import Pitos.Refinement.Arena
import Pitos.Refinement.Coalescing

/-!
# Giving a block out

`ki_malloc` takes the slop block, a block of its list or of a larger one, or memory from `sbrk`,
and `ki_realloc` adds a copy and a `ki_free`. What they leave is said by `Consegna` and
`Spostato`.
-/

namespace Pitos

open Lib

namespace Heap

variable {V : Blocco → Prop} {m₀ m m' : Mem} {s s' : Heap} {q : Quadro} {a b c d : Blocco} {k : Nat}

/-! ## Giving a block out -/

theorem le_ofNat {j : Nat} (hj : j < 2 ^ 32) (hk : k < 2 ^ 32) :
    BitVec.ofNat 32 j ≤ BitVec.ofNat 32 k ↔ j ≤ k := by
  rw [BitVec.le_def, BitVec.toNat_ofNat, BitVec.toNat_ofNat, Nat.mod_eq_of_lt hj,
    Nat.mod_eq_of_lt hk]

/-- What is left of a block becomes the slop block. -/
theorem Sano.resto (h : Sano V m₀ { s with slop := 0 } q) (hb : q.Tolto b) (hq : q.Quasi b)
    (hi : q.Isolato b) (hk8 : k % 8 = 0) (hk : 8 ≤ k) (hkd : k + 16 ≤ b.dim) :
    ∃ r a, a.ptr = b.ptr ∧ a.dim = k ∧ r.Tolto a ∧ r.Quasi a ∧ r.usato = q.usato ∧
      Sano V m₀ { (s.splitBlock b.ptr (BitVec.ofNat 32 k)).2 with
        slop := (s.splitBlock b.ptr (BitVec.ofNat 32 k)).1 } r := by
  obtain ⟨l, r, a, c, hl, ha, hc, hptr, hnum, hs⟩ := h.spezza hb hk8 hk hkd
  have hd := h.piano.dove hb.dentro
  have hai : a.inizio = b.inizio := by rw [ha]
  have had : a.dim = k := by rw [ha]
  have hci : c.inizio = b.inizio + k + 8 := by rw [hc]
  have hcd : c.dim = b.dim - k - 8 := by rw [hc]
  have hcf : c.fine = b.fine := by
    unfold Blocco.fine
    omega
  have hanew : a ∉ q.blocchi := by
    intro hin
    rw [h.piano.stesso_inizio hin hb.dentro hai] at had
    omega
  have hcnew : c ∉ q.blocchi := by
    intro hin
    rw [h.piano.stessa_fine hin hb.dentro hcf] at hci
    omega
  obtain ⟨hau, hal⟩ := h.piano.nuovo hanew
  obtain ⟨hcu, hcl⟩ := h.piano.nuovo hcnew
  have hac : a ≠ c := by
    rintro rfl
    omega
  have hct : Quadro.Tolto { q with blocchi := l ++ ([a, c] ++ r) } c := ⟨by simp, hcu, hcl⟩
  have hiso : Quadro.Isolato { q with blocchi := l ++ ([a, c] ++ r) } c := by
    intro d hdl
    have hdin := (h.piano.liberi d hdl).1
    have hdb : d ≠ b := by
      rintro rfl
      exact hb.tolto hdl
    have hap := h.piano.tessere.apart hdin hb.dentro hdb
    have hdd := h.piano.dove hdin
    refine ⟨?_, hcf ▸ (hi d hdl).2⟩
    unfold Blocco.fine at hap ⊢
    omega
  have hav := hs.avanza hct hnum hiso rfl
  have hnodup := hl ▸ h.piano.tessere.nodup
  refine ⟨Quadro.avanza { q with blocchi := l ++ ([a, c] ++ r) } c, a,
    by rw [Blocco.ptr, Blocco.ptr, hai], had,
    ⟨by simp [Quadro.avanza], hau, fun hla => hla.elim hal hac⟩, fun d hd hda => ?_, rfl, ?_⟩
  · have hcases : d = c ∨ d ∈ l ∨ d ∈ r := by
      simp only [Quadro.avanza, List.mem_append, List.mem_cons, List.not_mem_nil, or_false] at hd
      tauto
    rcases hcases with rfl | hdlr
    · exact Or.inr (Or.inr rfl)
    · have hdin : d ∈ q.blocchi := by
        rw [hl]
        simp only [List.mem_append, List.mem_cons]
        tauto
      have hdb : d ≠ b := by
        rintro rfl
        simp only [List.nodup_append, List.nodup_cons, List.mem_cons] at hnodup
        rcases hdlr with hd | hd
        · exact hnodup.2.2 d hd d (Or.inl rfl) rfl
        · exact hnodup.2.1.1 hd
      exact (hq d hdin hdb).imp_right Or.inl
  · have hfst : (s.splitBlock b.ptr (BitVec.ofNat 32 k)).1 = c.ptr := hptr
    rw [hfst]
    exact hav

/-- What `RET` leaves: a block that was not in use now is, large enough. -/
structure Consegna (V : Blocco → Prop) (m₀ : Mem) (q : Quadro) (n : Nat) (x : Word × Heap)
    (b : Blocco) (r : Quadro) : Prop where
  sano : Sano V m₀ x.2 r
  pieno : r.Pieno
  ptr : x.1 = b.dati
  basta : n ≤ b.dim
  nuovo : ¬ q.usato b
  usati : ∀ c, r.usato c ↔ q.usato c ∨ c = b

theorem Sano.consegna {r : Quadro} {n : Nat} (h : Sano V m₀ s r) (hb : r.Tolto b)
    (hq : r.Quasi b) (hus : r.usato = q.usato) (hn : n ≤ b.dim) :
    Consegna V m₀ q n (s.ret b.ptr) b { r with usato := fun c => r.usato c ∨ c = b } := by
  obtain ⟨hptr, hs⟩ := h.marca hb
  refine ⟨hs, fun c hc => ?_, hptr, hn, hus ▸ hb.fermo, fun c => by rw [hus]⟩
  by_cases hcb : c = b
  · exact Or.inl (Or.inr hcb)
  · exact (hq c hc hcb).imp_left Or.inl

/-- The slop block may be put on its list before or after `slop` is written. -/
theorem elenca_slop (s : Heap) (bp v : Word) :
    { s with slop := v }.elenca bp = { s.elenca bp with slop := v } := by
  have hb : { s with slop := v }.b2bucket bp =
      ((s.b2bucket bp).1, { (s.b2bucket bp).2 with slop := v }) := by
    have hbucket : { s with slop := v }.bucket bp = s.bucket bp := rfl
    simp only [b2bucket, hbucket]
    by_cases h1 : s.bucket bp = -1
    · simp only [if_pos h1]
      rfl
    · simp only [if_neg h1]
      rfl
  simp only [elenca, hb]
  rfl

/-- The block found, cut when there is enough to save. -/
theorem Sano.conserva (h : Sano V m₀ s q) (hb : q.Tolto b) (hq : q.Quasi b) (hi : q.Isolato b)
    (hk8 : k % 8 = 0) (hk : 8 ≤ k) (hkd : k ≤ b.dim) :
    ∃ r a, a.ptr = b.ptr ∧ k ≤ a.dim ∧ r.Tolto a ∧ r.Quasi a ∧ r.usato = q.usato ∧
      Sano V m₀ (s.conserva b.ptr (BitVec.ofNat 32 k)) r := by
  have hd := h.piano.dove hb.dentro
  have hsize : s.size b.ptr = BitVec.ofNat 32 b.dim :=
    (h.piano.altri b hb.dentro hb.fermo).size
  have htest : BitVec.ofNat 32 k + MIN_SAVE_EXTRA ≤ s.size b.ptr ↔ k + 64 ≤ b.dim := by
    rw [hsize, ← le_ofNat (by omega) (by omega), BitVec.ofNat_add]
    rfl
  unfold Heap.conserva
  by_cases hsave : k + 64 ≤ b.dim
  · rw [if_pos (htest.mpr hsave)]
    by_cases hslop : s.slop = 0
    · have hs : Sano V m₀ { s with slop := 0 } q := by
        have heq : { s with slop := 0 } = s := by rw [← hslop]
        rwa [heq]
      obtain ⟨r, a, hptr, had, hat, haq, hus, hs'⟩ := hs.resto hb hq hi hk8 hk (by omega)
      refine ⟨r, a, hptr, Nat.le_of_eq had.symm, hat, haq, hus, ?_⟩
      simp only [hslop, ne_eq, not_true_eq_false, if_false]
      exact hs'
    · -- the old slop block goes to its list
      obtain ⟨e, he, hse, hout⟩ := h.elenchi.avanzo hslop
      obtain ⟨hein, heu, henum⟩ := h.piano.liberi e he
      have h1 := h.savanzo hein hse
      have het : (q.savanzo e).Tolto e := ⟨hein, heu, fun hl => hl.2 rfl⟩
      have heiso : (q.savanzo e).Isolato e := fun d hdl =>
        ⟨h.separati d e hdl.1 he, h.separati e d he hdl.1⟩
      have h2 := h1.elenca het henum heiso
      rw [elenca_slop] at h2
      have hbe : b ≠ e := by
        rintro rfl
        exact hb.tolto he
      have hlib : ∀ d, ((q.savanzo e).elenca e).libero d ↔ q.libero d := by
        intro d
        constructor
        · rintro (hl | rfl)
          · exact hl.1
          · exact he
        · intro hl
          by_cases hde : d = e
          · exact Or.inr hde
          · exact Or.inl ⟨hl, hde⟩
      obtain ⟨r, a, hptr, had, hat, haq, hus, hs'⟩ := h2.resto (s := s.elenca e.ptr)
        ⟨hb.dentro, hb.fermo, fun hl => hb.tolto ((hlib b).mp hl)⟩
        (fun d hd hdb => (hq d hd hdb).imp_right (hlib d).mpr)
        (fun d hdl => hi d ((hlib d).mp hdl)) hk8 hk (by omega)
      refine ⟨r, a, hptr, Nat.le_of_eq had.symm, hat, haq, hus, ?_⟩
      simp only [hslop, ne_eq, not_false_eq_true, if_true]
      rw [hse]
      exact hs'
  · rw [if_neg fun ht => hsave (htest.mp ht)]
    exact ⟨q, b, rfl, hkd, hb, hq, rfl, h⟩

/-! ## `ki_malloc` -/

/-- The size asked for becomes a multiple of eight, at least eight. -/
theorem arrotonda_ofNat {n : Nat} (hn : n ≤ 512000) : ∃ k, arrotonda (BitVec.ofNat 32 n) =
    BitVec.ofNat 32 k ∧ k % 8 = 0 ∧ 8 ≤ k ∧ n ≤ k ∧ k ≤ 512000 := by
  have hlt : (BitVec.ofNat 32 n).slt ALIGN = decide (n < 8) := by
    have hint : (BitVec.ofNat 32 n).toInt = n := by
      rw [BitVec.toInt_eq_toNat_of_lt] <;> rw [BitVec.toNat_ofNat] <;> omega
    have h8 : ALIGN.toInt = 8 := by decide
    rw [BitVec.slt, hint, h8]
    exact decide_eq_decide.mpr (by omega)
  have hmask : ∀ j, j < 2 ^ 31 → (BitVec.ofNat 32 j + (ALIGN - 1)) &&& ~~~(ALIGN - 1) =
      BitVec.ofNat 32 ((j + 7) / 8 * 8) := by
    intro j hj
    have hlow := Mem.clear_low_ofNat (n := j + 7) 3 (by omega)
    rw [BitVec.ofNat_add] at hlow
    exact hlow
  unfold arrotonda
  rw [hlt]
  by_cases h : n < 8
  · refine ⟨8, ?_, by omega⟩
    simp only [h, decide_true, if_true]
    decide
  · refine ⟨(n + 7) / 8 * 8, ?_, by omega⟩
    simp only [h, decide_false, Bool.false_eq_true, if_false]
    exact hmask n (by omega)

theorem sbrk_ofNat {x : Nat} (ha : s.allocated = BitVec.ofNat 32 x) (hx : x ≤ 512000)
    (hk : k ≤ 512016) : s.sbrk (BitVec.ofNat 32 k) = if 512000 < x + k then .error .memoria
      else .ok (s.baseAddress, { s with
        baseAddress := s.baseAddress + BitVec.ofNat 32 k
        allocated := BitVec.ofNat 32 (x + k) }) := by
  have hx' : s.allocated.toNat = x := by
    rw [ha, BitVec.toNat_ofNat]
    omega
  have hk' : (BitVec.ofNat 32 k).toNat = k := by
    rw [BitVec.toNat_ofNat]
    omega
  rw [sbrk_misurato (by omega), hx', hk', cresciuto, ha, ← BitVec.ofNat_add]

/-- A request is for 16 bytes more, and `aggiunge` makes blocks of what `sbrk` returns. -/
theorem chiedeMemoria_ofNat {x : Nat} (ha : s.allocated = BitVec.ofNat 32 x) (hx : x ≤ 512000)
    (hk : k ≤ 512000) (hrv : s.baseAddress ≠ -1) : s.chiedeMemoria (BitVec.ofNat 32 k) =
      if 512000 < x + (k + 16) then .error .memoria
      else .ok (aggiunge { s with
        baseAddress := s.baseAddress + BitVec.ofNat 32 (k + 16)
        allocated := BitVec.ofNat 32 (x + (k + 16)) } s.baseAddress (BitVec.ofNat 32 (k + 16))) := by
  have hsbrk := sbrk_ofNat (k := k + 16) ha hx (by omega)
  have hchunk : BitVec.ofNat 32 k + 16 = BitVec.ofNat 32 (k + 16) := (BitVec.ofNat_add ..).symm
  by_cases hfull : 512000 < x + (k + 16)
  · rw [if_pos hfull] at hsbrk ⊢
    simp only [Heap.chiedeMemoria, hchunk, hsbrk, bind, Except.bind]
  · rw [if_neg hfull] at hsbrk ⊢
    simp only [Heap.chiedeMemoria, hchunk, hsbrk, bind, Except.bind, pure, Except.pure, if_neg hrv]

/-- A new block at the end of the arena is given out. -/
theorem Sano.fornisce {t : Heap} (h : Sano V m₀ s q) (hq : q.Pieno) (hb : b.inizio = q.fine)
    (hd : b.dim % 8 = 0 ∧ 8 ≤ b.dim) (hlim : b.fine + 4 ≤ 10512000) (hk : k ≤ b.dim)
    (hch : Mem.ChangesAt (Mem.Between b.inizio (b.fine + 4)) s.mem t.mem)
    (hf : t.freelist = s.freelist) (hs : t.slop = s.slop)
    (ha : t.baseAddress = BitVec.ofNat 32 (b.fine + 4))
    (hx : t.expectedSbrk = BitVec.ofNat 32 (b.fine + 4))
    (hr : t.allocated = BitVec.ofNat 32 (b.fine + 4 - 10000000)) :
    ∃ r, Consegna V m₀ q k ((t.delimita b.ptr (BitVec.ofNat 32 b.dim)).ret b.ptr) b r := by
  have hfine : b.fine = b.inizio + b.dim + 8 := rfl
  have hdel := delimita_ptr (s := t) (b := b) (by omega)
  have h1 : Sano V m₀ (t.delimita b.ptr (BitVec.ofNat 32 b.dim))
      { q with blocchi := q.blocchi ++ [b], fine := b.fine } := by
    rw [hdel]
    refine h.allunga hb hd h.piano.fine_allineata hlim ?_ ?_ ?_ hf hs ha hx hr
    · refine Mem.ChangesAt.write32_number ?_ (by omega) (by omega) (by omega)
      refine Mem.ChangesAt.write32_number ?_ (by omega) (by omega) (by omega)
      exact hch.write32_number (by omega) (by omega) (by omega)
    · refine ⟨?_, ?_⟩ <;>
        simp (disch := omega) only [Mem.read32_write32_number, Mem.read32_write32, Nat.add_zero]
    · exact Mem.read32_write32 ..
  have hbnew : b ∉ q.blocchi := by
    intro hin
    have hbound := h.piano.tessere.bounds hin
    omega
  obtain ⟨hbu, hbl⟩ := h.piano.nuovo hbnew
  refine ⟨_, h1.consegna ⟨by simp, hbu, hbl⟩ (fun c hc hcb => hq c ?_) rfl hk⟩
  simp only [List.mem_append, List.mem_singleton] at hc
  exact hc.resolve_right hcb

/-- The request to `sbrk`: the arena grows, or the memory is used up. -/
theorem Sano.chiedeMemoria (h : Sano V m₀ s q) (hq : q.Pieno) (hk8 : k % 8 = 0) (hk : 8 ≤ k)
    (hkl : k ≤ 512000) : s.chiedeMemoria (BitVec.ofNat 32 k) = .error .memoria ∨
      ∃ x b r, s.chiedeMemoria (BitVec.ofNat 32 k) = .ok x ∧ Consegna V m₀ q k x b r := by
  have hlim := h.piano.limite
  have hle := h.piano.tessere.le
  have hrv : s.baseAddress ≠ -1 := by
    rw [h.arena]
    bv_omega
  have hreq := chiedeMemoria_ofNat h.resi (by omega) hkl hrv
  by_cases hfull : 512000 < q.fine + 4 - 10000000 + (k + 16)
  · left
    rw [hreq, if_pos hfull]
  · right
    obtain ⟨b, hb⟩ : ∃ b, b = Blocco.mk q.fine (k + 8) := ⟨_, rfl⟩
    have hbi : b.inizio = q.fine := by rw [hb]
    have hbd : b.dim = k + 8 := by rw [hb]
    have hfine : b.fine = b.inizio + b.dim + 8 := rfl
    have hptr : s.baseAddress - 4 = b.ptr := by
      rw [h.arena, Blocco.ptr, hbi]
      bv_omega
    have hsize : BitVec.ofNat 32 (k + 16) - 8 = BitVec.ofNat 32 b.dim := by
      rw [hbd]
      bv_omega
    have hnext : s.baseAddress + BitVec.ofNat 32 (k + 16) = BitVec.ofNat 32 (b.fine + 4) := by
      rw [h.arena, ← BitVec.ofNat_add]
      exact congrArg (BitVec.ofNat 32) (by omega)
    have hsum : q.fine + 4 - 10000000 + (k + 16) = b.fine + 4 - 10000000 := by omega
    have hcont : s.baseAddress = s.expectedSbrk := h.arena.trans h.atteso.symm
    obtain ⟨t, ht⟩ : ∃ t : Heap, t = { s with
      baseAddress := BitVec.ofNat 32 (b.fine + 4)
      allocated := BitVec.ofNat 32 (b.fine + 4 - 10000000)
      expectedSbrk := BitVec.ofNat 32 (b.fine + 4) } := ⟨_, rfl⟩
    have hok : s.chiedeMemoria (BitVec.ofNat 32 k) =
        .ok ((t.delimita b.ptr (BitVec.ofNat 32 b.dim)).ret b.ptr) := by
      rw [hreq, if_neg hfull]
      simp only [aggiunge, if_pos hcont, hptr, hsize, hnext, hsum, ht]
    obtain ⟨r, hr⟩ := h.fornisce (b := b) (k := k) (t := t) hq hbi (by omega) (by omega) (by omega)
      (by rw [ht]; exact Mem.ChangesAt.refl s.mem) (by rw [ht]) (by rw [ht]) (by rw [ht])
      (by rw [ht]) (by rw [ht])
    exact ⟨_, b, r, hok, hr⟩

/-- An arena with the two markers and nothing between them. -/
def Quadro.vuoto : Quadro :=
  { blocchi := [], usato := fun _ => False, libero := fun _ => False, lista := fun _ => [],
    fine := 10000004 }

theorem Sano.vuoto (m m₀ : Mem) : Sano (fun _ => False) m₀ { iniziale m with
    mem := (m.write32 (BitVec.ofNat 32 10000000) 1).write32 (BitVec.ofNat 32 10000004) 1
    baseAddress := BitVec.ofNat 32 10000008
    allocated := BitVec.ofNat 32 8
    expectedSbrk := BitVec.ofNat 32 10000008 } Quadro.vuoto := by
  have hfirst : ((m.write32 (BitVec.ofNat 32 10000000) 1).write32
      (BitVec.ofNat 32 10000004) 1).read32 (BitVec.ofNat 32 10000000) = 1 := by
    rw [Mem.read32_write32_number (by decide) (by decide) (by decide), Mem.read32_write32]
  exact
    { piano :=
        { tessere := Tiles.nil
          limite := by decide
          misura := fun b hb => absurd hb List.not_mem_nil
          primo := hfirst
          ultimo := Mem.read32_write32 ..
          usati := fun _ hu => hu.elim
          altri := fun b hb => absurd hb List.not_mem_nil
          liberi := fun _ hl => hl.elim
          custoditi := fun _ hV => hV.elim }
      elenchi := ⟨fun _ => Linked.nil, fun _ _ hw => absurd hw List.not_mem_nil,
        fun hne => absurd rfl hne, fun _ hl => hl.elim⟩
      separati := fun _ _ hl => hl.elim
      arena := rfl
      atteso := rfl
      resi := rfl }

/-- The first request builds the start marker; where it puts the first block there was no end
marker to absorb. -/
theorem chiedeMemoria_iniziale (m m₀ : Mem) (hk8 : k % 8 = 0) (hk : 8 ≤ k) (hkl : k ≤ 512000) :
    (iniziale m).chiedeMemoria (BitVec.ofNat 32 k) = .error .memoria ∨
      ∃ x b r, (iniziale m).chiedeMemoria (BitVec.ofNat 32 k) = .ok x ∧
        Consegna (fun _ => False) m₀ Quadro.vuoto k x b r := by
  have hrv : (iniziale m).baseAddress ≠ -1 := by
    show (10000000 : Word) ≠ -1
    decide
  have hreq := chiedeMemoria_ofNat (s := iniziale m) (x := 0) rfl (by omega) hkl hrv
  by_cases hfull : 512000 < 0 + (k + 16)
  · left
    rw [hreq, if_pos hfull]
  · right
    obtain ⟨b, hb⟩ : ∃ b, b = Blocco.mk 10000004 k := ⟨_, rfl⟩
    have hbi : b.inizio = 10000004 := by rw [hb]
    have hbd : b.dim = k := by rw [hb]
    have hfine : b.fine = b.inizio + b.dim + 8 := rfl
    have hcont : (iniziale m).baseAddress ≠ (iniziale m).expectedSbrk := by
      show (10000000 : Word) ≠ 0
      decide
    have hptr : (iniziale m).baseAddress + 4 = b.ptr := by
      rw [Blocco.ptr, hbi]
      rfl
    have hsize : BitVec.ofNat 32 (k + 16) - 8 - 8 = BitVec.ofNat 32 b.dim := by
      rw [hbd]
      bv_omega
    have hnext : (iniziale m).baseAddress + BitVec.ofNat 32 (k + 16) =
        BitVec.ofNat 32 (b.fine + 4) := by
      show BitVec.ofNat 32 10000000 + _ = _
      rw [← BitVec.ofNat_add]
      exact congrArg (BitVec.ofNat 32) (by omega)
    have hsum : 0 + (k + 16) = b.fine + 4 - 10000000 := by omega
    obtain ⟨t, ht⟩ : ∃ t : Heap, t = { iniziale m with
      mem := m.write32 (BitVec.ofNat 32 10000000) 1
      baseAddress := BitVec.ofNat 32 (b.fine + 4)
      allocated := BitVec.ofNat 32 (b.fine + 4 - 10000000)
      expectedSbrk := BitVec.ofNat 32 (b.fine + 4) } := ⟨_, rfl⟩
    have hok : (iniziale m).chiedeMemoria (BitVec.ofNat 32 k) =
        .ok ((t.delimita b.ptr (BitVec.ofNat 32 b.dim)).ret b.ptr) := by
      rw [hreq, if_neg hfull]
      simp only [aggiunge, if_neg hcont, hptr, hsize, hnext, hsum, ht]
      rfl
    have hch : Mem.ChangesAt (Mem.Between b.inizio (b.fine + 4))
        ((m.write32 (BitVec.ofNat 32 10000000) 1).write32 (BitVec.ofNat 32 10000004) 1)
        (m.write32 (BitVec.ofNat 32 10000000) 1) := by
      have hset := (Mem.ChangesAt.refl (P := Mem.Between b.inizio (b.fine + 4))
        (m.write32 (BitVec.ofNat 32 10000000) 1)).write32_number (k := 10000004) (v := 1)
          (by omega) (by omega) (by decide)
      exact fun w hw => (hset w hw).symm
    obtain ⟨r, hr⟩ := (Sano.vuoto m m₀).fornisce (b := b) (k := k) (t := t)
      (fun c hc => absurd hc List.not_mem_nil) hbi (by omega) (by omega) (by omega)
      (by rw [ht]; exact hch) (by rw [ht]) (by rw [ht]) (by rw [ht]) (by rw [ht]) (by rw [ht])
    exact ⟨_, b, r, hok, hr⟩

/-- A free block that was taken out: no neighbour of it is free. -/
theorem Sano.prelevato {r : Quadro} (h : Sano V m₀ s q) (hq : q.Pieno) (hb : q.libero b)
    (hbl : r.blocchi = q.blocchi) (hus : r.usato = q.usato)
    (hlib : ∀ d, r.libero d ↔ q.libero d ∧ d ≠ b) : r.Tolto b ∧ r.Quasi b ∧ r.Isolato b := by
  obtain ⟨hin, hu, _⟩ := h.piano.liberi b hb
  refine ⟨⟨hbl ▸ hin, hus ▸ hu, fun hl => ((hlib b).mp hl).2 rfl⟩, fun c hc hcb => ?_,
    fun d hdl => ?_⟩
  · rcases hq c (hbl ▸ hc) with hcu | hcl
    · exact Or.inl (hus ▸ hcu)
    · exact Or.inr ((hlib c).mpr ⟨hcl, hcb⟩)
  · obtain ⟨hdl, _⟩ := (hlib d).mp hdl
    exact ⟨h.separati d b hdl hb, h.separati b d hb hdl⟩

/-- The result of a request: memory is used up, or a block is given out. -/
def Esaudita (V : Blocco → Prop) (m₀ : Mem) (q : Quadro) (n : Nat)
    (e : Except Arresto (Word × Heap)) : Prop :=
  e = .error .memoria ∨ ∃ x b r, e = .ok x ∧ Consegna V m₀ q n x b r

/-- The walk over the larger lists; the induction is on the lists left. -/
theorem Sano.secchi (h : Sano V m₀ s q) (hq : q.Pieno) (hk8 : k % 8 = 0) (hk : 8 ≤ k)
    (hkl : k ≤ 512000) (n i : Nat) :
    Esaudita V m₀ q k (s.secchi (BitVec.ofNat 32 k) n i) := by
  induction n generalizing i with
  | zero => exact h.chiedeMemoria hq hk8 hk hkl
  | succ n ih =>
    rcases h.cerca i fun rv => BitVec.ofNat 32 k ≤ s.size rv with
      ⟨b, l, r, hb, hl, hva, hw⟩ | ⟨_, prev, hw⟩
    · obtain ⟨hin, hu, _⟩ := h.piano.liberi b hb
      have hd := h.piano.dove hin
      have hkb : k ≤ b.dim := by
        rw [(h.piano.altri b hin hu).size, decide_eq_true_eq, le_ofNat (by omega) (by omega)] at hva
        exact hva
      obtain ⟨hbt, hbq, hbi⟩ := h.prelevato (r := q.slista b i (l ++ r)) hq hb rfl rfl
        fun _ => Iff.rfl
      obtain ⟨r', a, hptr, hka, hat, haq, hus, hs⟩ :=
        (h.slista hin hl).conserva hbt hbq hbi hk8 hk hkb
      right
      refine ⟨_, a, _, ?_, hs.consegna hat haq hus hka⟩
      simp only [Heap.secchi, hw, hptr, bind, Except.bind, pure, Except.pure]
    · have hnext : s.secchi (BitVec.ofNat 32 k) (n + 1) i =
          s.secchi (BitVec.ofNat 32 k) n (i + 1) := by
        simp only [Heap.secchi, hw, bind, Except.bind]
      rw [hnext]
      exact ih (i + 1)

/-- `ki_malloc` gives out a block large enough that was not in use. -/
theorem Sano.kiMalloc {n : Nat} (h : Sano V m₀ s q) (hq : q.Pieno) (hn : n ≤ 512000) :
    Esaudita V m₀ q n (s.kiMalloc (BitVec.ofNat 32 n)) := by
  obtain ⟨k, hround, hk8, hk, hnk, hkl⟩ := arrotonda_ofNat hn
  -- what is enough for `k` bytes is enough for `n`
  have hmeno : ∀ e, Esaudita V m₀ q k e → Esaudita V m₀ q n e := by
    rintro e (he | ⟨x, b, r, he, hc⟩)
    · exact Or.inl he
    · exact Or.inr ⟨x, b, r, he, { hc with basta := Nat.le_trans hnk hc.basta }⟩
  apply hmeno
  unfold Heap.kiMalloc
  rw [hround]
  by_cases hslop : s.slop ≠ 0 ∧ BitVec.ofNat 32 k ≤ s.size s.slop
  · obtain ⟨hne, hle⟩ := hslop
    obtain ⟨b, hb, hsb, _⟩ := h.elenchi.avanzo hne
    obtain ⟨hin, hu, _⟩ := h.piano.liberi b hb
    have hd := h.piano.dove hin
    have hsize : s.size b.ptr = BitVec.ofNat 32 b.dim := (h.piano.altri b hin hu).size
    have h1 := h.savanzo hin hsb
    obtain ⟨hbt, hbq, hbi⟩ := h.prelevato (r := q.savanzo b) hq hb rfl rfl fun _ => Iff.rfl
    have hkb : k ≤ b.dim := by
      rwa [hsb, hsize, le_ofNat (by omega) (by omega)] at hle
    have htest : BitVec.ofNat 32 k + MIN_SAVE_EXTRA ≤ s.size b.ptr ↔ k + 64 ≤ b.dim := by
      rw [hsize, ← le_ofNat (by omega) (by omega), BitVec.ofNat_add]
      rfl
    right
    simp only [hsb] at hne hle ⊢
    by_cases hsave : k + 64 ≤ b.dim
    · obtain ⟨r, a, hptr, had, hat, haq, hus, hs⟩ := h1.resto hbt hbq hbi hk8 hk (by omega)
      refine ⟨_, a, _, ?_, hs.consegna hat haq hus (Nat.le_of_eq had.symm)⟩
      simp only [hne, hle, htest.mpr hsave, hptr, ne_eq, not_false_eq_true, and_self, if_true]
      rfl
    · refine ⟨_, b, _, ?_, h1.consegna hbt hbq rfl hkb⟩
      have hno : ¬ BitVec.ofNat 32 k + MIN_SAVE_EXTRA ≤ s.size b.ptr :=
        fun ht => hsave (htest.mp ht)
      simp only [hne, hle, hno, ne_eq, not_false_eq_true, and_self, if_true, if_false]
      rfl
  · simp only [if_neg hslop]
    rcases h.cerca (size2bucket (BitVec.ofNat 32 k)) fun rv =>
        BitVec.ofNat 32 k ≤ s.size rv ∧ s.size rv < BitVec.ofNat 32 k + (BitVec.ofNat 32 k).sdiv 4
      with ⟨b, l, r, hb, hl, hva, hw⟩ | ⟨_, prev, hw⟩
    · obtain ⟨hin, hu, _⟩ := h.piano.liberi b hb
      have hd := h.piano.dove hin
      have hkb : k ≤ b.dim := by
        rw [(h.piano.altri b hin hu).size, decide_eq_true_eq, le_ofNat (by omega) (by omega)] at hva
        exact hva.1
      obtain ⟨hbt, hbq, _⟩ := h.prelevato
        (r := q.slista b (size2bucket (BitVec.ofNat 32 k)) (l ++ r)) hq hb rfl rfl fun _ => Iff.rfl
      right
      refine ⟨_, b, _, ?_, (h.slista hin hl).consegna hbt hbq rfl hkb⟩
      simp only [hw, bind, Except.bind, pure, Except.pure]
    · simp only [hw, bind, Except.bind]
      exact h.secchi hq hk8 hk hkl _ _

/-- On the empty heap there is nothing to look for. -/
theorem kiMalloc_iniziale {n : Nat} (m m₀ : Mem) (hn : n ≤ 512000) :
    Esaudita (fun _ => False) m₀ Quadro.vuoto n ((iniziale m).kiMalloc (BitVec.ofNat 32 n)) := by
  obtain ⟨k, hround, hk8, hk, hnk, hkl⟩ := arrotonda_ofNat hn
  have hcerca : ∀ i va, (iniziale m).cerca i va = .ok (none, none) := fun i va => rfl
  have hsecchi : ∀ size j i, (iniziale m).secchi size j i = (iniziale m).chiedeMemoria size := by
    intro size j
    induction j with
    | zero => exact fun i => rfl
    | succ j ih =>
      intro i
      rw [← ih (i + 1)]
      simp only [Heap.secchi, hcerca, bind, Except.bind]
  have hslop : ¬ ((iniziale m).slop ≠ 0 ∧
      BitVec.ofNat 32 k ≤ (iniziale m).size (iniziale m).slop) := fun hs => hs.1 rfl
  have hcall : (iniziale m).kiMalloc (BitVec.ofNat 32 n) =
      (iniziale m).chiedeMemoria (BitVec.ofNat 32 k) := by
    simp only [Heap.kiMalloc, hround, if_neg hslop, hcerca, hsecchi, bind, Except.bind]
  rw [hcall]
  rcases chiedeMemoria_iniziale m m₀ hk8 hk hkl with he | ⟨x, b, r, he, hc⟩
  · exact Or.inl he
  · exact Or.inr ⟨x, b, r, he, { hc with basta := Nat.le_trans hnk hc.basta }⟩

/-! ## `ki_realloc` -/

/-- The contents to keep may be chosen anew between two calls. -/
theorem Sano.custodisci {W : Blocco → Prop} {m₁ : Mem} (h : Sano V m₀ s q)
    (hW : ∀ b, W b → q.usato b ∧ Intatto m₁ s.mem b) : Sano W m₁ s q where
  __ := h
  piano := { h.piano with custoditi := hW }

/-- The owner of a block writes into it. -/
theorem Sano.scrittura (h : Sano V m₀ s q) (hb : q.usato b) (hs : s' = { s with mem := m' })
    (hch : Mem.ChangesAt (Mem.Between (b.inizio + 4) (b.inizio + 4 + b.dim)) s.mem m') :
    Sano (fun _ => False) m₀ s' q := by
  obtain ⟨hin, he⟩ := h.piano.usati b hb
  have hl : ¬ q.libero b := fun hl => (h.piano.liberi b hl).2.1 hb
  have hd := h.piano.dove hin
  have hwide : Mem.ChangesAt (Mem.Between b.inizio b.fine) s.mem m' := by
    apply hch.mono
    intro w hw
    obtain ⟨h1, h2⟩ := hw
    unfold Blocco.fine
    exact ⟨by omega, by omega⟩
  have h0 : Sano (fun _ => False) m₀ s q := h.custodisci fun _ hf => hf.elim
  have hpiano : Piano (fun _ => False) m₀ m' q := by
    refine h0.piano.tocca (U := q.usato) (F := q.libero) hin id hwide (fun _ _ => Iff.rfl)
      (fun _ _ => id) (fun _ => ⟨?_, ?_⟩) (fun hu => absurd hb hu) (fun hf => absurd hf hl)
    · exact (hch.read32_number (by omega) (by omega)).trans he.1
    · exact (hch.read32_number (by omega) (by omega)).trans he.2
  subst hs
  exact
    { piano := hpiano
      elenchi := h.elenchi.dentro h.piano hin hwide rfl rfl rfl rfl fun hf => absurd hf hl
      separati := h.separati
      arena := h.arena
      atteso := h.atteso
      resi := h.resi }

/-- `memcpy` of whole words between places apart. -/
theorem memcpy_ofNat {dst src : Word} {n : Nat} (hn : n < 2 ^ 32) (hn4 : n % 4 = 0)
    (hfar : ∀ b, Mem.Within dst n b → ¬ Mem.Within src n b) :
    s.memcpy dst src (BitVec.ofNat 32 n) = { s with mem := s.mem.copy dst src n } := by
  have hback : (BitVec.ofNat 32 n).toNat = n := by
    rw [BitVec.toNat_ofNat]
    omega
  have hmul : 4 * (n / 4) = n := by omega
  -- nothing is left for the half word and the byte
  have hclear : BitVec.ofNat 32 n &&& ~~~BitVec.ofNat 32 3 = BitVec.ofNat 32 n := by
    have hlow := Mem.clear_low_ofNat (n := n) 2 hn
    rwa [show n / 2 ^ 2 * 2 ^ 2 = n by omega] at hlow
  have h2 : BitVec.ofNat 32 n &&& 2 = 0 := by
    rw [← hclear, BitVec.and_assoc, show ~~~BitVec.ofNat 32 3 &&& 2 = 0#32 from rfl,
      BitVec.and_zero]
    rfl
  have h1 : BitVec.ofNat 32 n &&& 1 = 0 := by
    rw [← hclear, BitVec.and_assoc, show ~~~BitVec.ofNat 32 3 &&& 1 = 0#32 from rfl,
      BitVec.and_zero]
    rfl
  simp only [memcpy, hback, h2, h1, ne_eq, not_true_eq_false, if_false]
  rw [Mem.copyRep_eq (by omega) (by rwa [hmul]), hmul]

/-- The contents of two blocks of one arena lie apart. -/
theorem Piano.dati_lontani (h : Piano V m₀ m q) (hb : b ∈ q.blocchi) (hc : c ∈ q.blocchi)
    (hne : c ≠ b) {j : Nat} (hjb : j ≤ b.dim) (hjc : j ≤ c.dim) (w : Word)
    (hw : Mem.Within c.dati j w) : ¬ Mem.Within b.dati j w := by
  have hdb := h.dove hb
  have hdc := h.dove hc
  have hap := h.tessere.apart hc hb hne
  intro hw'
  obtain ⟨h1, h2⟩ := (Mem.within_ofNat (by omega)).mp hw
  obtain ⟨h3, h4⟩ := (Mem.within_ofNat (by omega)).mp hw'
  unfold Blocco.fine at hap
  omega

/-- What `ki_realloc` leaves when it moves the block `b` to `c`. -/
structure Spostato (s : Heap) (q : Quadro) (n : Nat) (b : Blocco) (x : Word × Heap) (c : Blocco)
    (r : Quadro) : Prop where
  sano : Sano (fun d => q.usato d ∧ d ≠ b) s.mem x.2 r
  pieno : r.Pieno
  ptr : x.1 = c.dati
  basta : n ≤ c.dim
  usati : ∀ d, r.usato d ↔ (q.usato d ∧ d ≠ b) ∨ d = c
  nuovo : ¬ q.usato c
  copiati : b.dim ≤ c.dim ∧ ∀ i < b.dim,
    x.2.mem (BitVec.ofNat 32 (c.inizio + 4 + i)) = s.mem (BitVec.ofNat 32 (b.inizio + 4 + i))

/-- The contents of one block copied to another that is as large. -/
theorem Sano.ricopia (h : Sano V m₀ s q) (hb : q.usato b) (hc : q.usato c) (hcb : c ≠ b)
    (hle : b.dim ≤ c.dim) : ∃ m, s.memcpy c.dati b.dati (BitVec.ofNat 32 b.dim) =
      { s with mem := m } ∧
      Mem.ChangesAt (Mem.Between (c.inizio + 4) (c.inizio + 4 + c.dim)) s.mem m ∧
      ∀ i < b.dim, m (BitVec.ofNat 32 (c.inizio + 4 + i)) =
        s.mem (BitVec.ofNat 32 (b.inizio + 4 + i)) := by
  have hbin := (h.piano.usati b hb).1
  have hcin := (h.piano.usati c hc).1
  have hdb := h.piano.dove hbin
  have hdc := h.piano.dove hcin
  refine ⟨s.mem.copy c.dati b.dati b.dim, ?_, ?_, ?_⟩
  · exact memcpy_ofNat (by omega) (by omega)
      (h.piano.dati_lontani hbin hcin hcb (Nat.le_refl _) hle)
  · apply (Mem.copy_changes _).mono
    intro w hw
    obtain ⟨h1, h2⟩ := (Mem.within_ofNat (by omega)).mp hw
    exact ⟨h1, by omega⟩
  · intro i hi
    have hoff : BitVec.ofNat 32 (c.inizio + 4 + i) - c.dati = BitVec.ofNat 32 i := by
      unfold Blocco.dati
      bv_omega
    have hilt : (BitVec.ofNat 32 i).toNat < b.dim := by
      rw [BitVec.toNat_ofNat]
      omega
    rw [Mem.copy, hoff, if_pos hilt, Blocco.dati, ← BitVec.ofNat_add]

/-- A pointer that was given out is not null, and the size found behind it is that of its block. -/
theorem Sano.kiRealloc_eq {n : Nat} (h : Sano V m₀ s q) (hb : q.usato b) (hn : n ≤ 512000) :
    s.kiRealloc b.dati (BitVec.ofNat 32 n) =
      if n ≤ b.dim then .ok (b.dati, s)
      else do
        let (newptr, s) ← s.kiMalloc (BitVec.ofNat 32 n)
        if newptr = 0 then return (0, s)
        let s ← (s.memcpy newptr b.dati (BitVec.ofNat 32 b.dim)).kiFree b.dati
        return (newptr, s) := by
  obtain ⟨hin, he⟩ := h.piano.usati b hb
  have hd := h.piano.dove hin
  have hptr : b.dati - 4 = b.ptr := by
    unfold Blocco.dati Blocco.ptr
    bv_omega
  have hnull : b.dati ≠ 0 := by
    unfold Blocco.dati
    bv_omega
  have hsize : s.size b.ptr &&& ~~~1 = BitVec.ofNat 32 b.dim := by
    have hlow := Mem.clear_low_ofNat (n := b.dim + 1) 1 (by omega)
    rw [he.size]
    rwa [show (b.dim + 1) / 2 ^ 1 * 2 ^ 1 = b.dim by omega] at hlow
  have htest : BitVec.ofNat 32 n ≤ BitVec.ofNat 32 b.dim ↔ n ≤ b.dim :=
    le_ofNat (by omega) (by omega)
  unfold Heap.kiRealloc
  simp only [if_neg hnull, hptr, hsize, htest]
  rfl

/-- `ki_realloc` leaves a block that is large enough where it is, or moves its contents. -/
theorem Sano.kiRealloc {n : Nat} (h : Sano V m₀ s q) (hq : q.Pieno) (hb : q.usato b)
    (hn : n ≤ 512000) :
    s.kiRealloc b.dati (BitVec.ofNat 32 n) = .error .memoria ∨
    (n ≤ b.dim ∧ s.kiRealloc b.dati (BitVec.ofNat 32 n) = .ok (b.dati, s)) ∨
    ∃ x c r, s.kiRealloc b.dati (BitVec.ofNat 32 n) = .ok x ∧ Spostato s q n b x c r := by
  have heq := h.kiRealloc_eq hb hn
  by_cases hle : n ≤ b.dim
  · right
    left
    rw [if_pos hle] at heq
    exact ⟨hle, heq⟩
  · rw [if_neg hle] at heq
    have h0 : Sano q.usato s.mem s q := h.custodisci fun c hc => ⟨hc, fun _ _ _ => rfl⟩
    rcases h0.kiMalloc hq hn with hfail | ⟨x, c, r, hx, hc⟩
    · left
      rw [heq, hfail]
      rfl
    · right
      right
      obtain ⟨hs₁, hp₁, hx1, hcn, hcnew, hus⟩ := hc
      have hcu : r.usato c := (hus c).mpr (Or.inr rfl)
      have hbu : r.usato b := (hus b).mpr (Or.inl hb)
      have hcb : c ≠ b := by
        rintro rfl
        exact hcnew hb
      have hcin := (hs₁.piano.usati c hcu).1
      have hdb := h.piano.dove (h.piano.usati b hb).1
      have hdc := hs₁.piano.dove hcin
      have hxnull : x.1 ≠ 0 := by
        rw [hx1]
        unfold Blocco.dati
        bv_omega
      obtain ⟨m₂, hcopy, hch, hcopied⟩ := hs₁.ricopia hbu hcu hcb (by omega)
      have hs₂ := hs₁.scrittura hcu rfl hch
      -- everything but the old block is kept while it is freed
      have hs₃ : Sano (fun d => r.usato d ∧ d ≠ b) m₂ { x.2 with mem := m₂ } r :=
        hs₂.custodisci fun d hd => ⟨hd.1, fun _ _ _ => rfl⟩
      obtain ⟨s', r', hfree, hs', hp', hus'⟩ := hs₃.kiFree hp₁ hbu fun hV => hV.2 rfl
      have hkeep := fun d (hd : r.usato d ∧ d ≠ b) => (hs'.piano.custoditi d hd).2
      refine ⟨(x.1, s'), c, r', ?_, ?_⟩
      · rw [← hx1] at hcopy
        simp only [heq, hx, bind, Except.bind, if_neg hxnull, hcopy, hfree, pure, Except.pure]
      · refine
          { sano := hs'.custodisci fun d hd => ⟨?_, fun k hk hk' => ?_⟩
            pieno := hp'
            ptr := hx1
            basta := hcn
            usati := fun d => ?_
            nuovo := hcnew
            copiati := ⟨by omega, fun i hi => ?_⟩ }
        · exact (hus' d).mpr ⟨(hus d).mpr (Or.inl hd.1), hd.2⟩
        · have hdu : r.usato d := (hus d).mpr (Or.inl hd.1)
          have hdin := (hs₁.piano.usati d hdu).1
          have hdd := hs₁.piano.dove hdin
          have hdc' : d ≠ c := by
            rintro rfl
            exact hcnew hd.1
          have hap := hs₁.piano.tessere.apart hdin hcin hdc'
          unfold Blocco.fine at hap
          rw [hkeep d ⟨hdu, hd.2⟩ k hk hk', hch.byte_number (by omega) (by omega)]
          exact (hs₁.piano.custoditi d hd.1).2 k hk hk'
        · rw [hus' d, hus d]
          constructor
          · rintro ⟨hdu | rfl, hdb⟩
            · exact Or.inl ⟨hdu, hdb⟩
            · exact Or.inr rfl
          · rintro (⟨hdu, hdb⟩ | rfl)
            · exact ⟨Or.inl hdu, hdb⟩
            · exact ⟨Or.inr rfl, hcb⟩
        · rw [hkeep c ⟨hcu, hcb⟩ _ (by omega) (by omega), hcopied i hi]
          exact (hs₁.piano.custoditi b hb).2 _ (by omega) (by omega)

end Heap

end Pitos
