import Pitos.Refinement.Heap

/-!
# Giving a block back

`ki_free` as a sequence of the changes of `Sano`: the block is marked, joined to its free
neighbours and put on its list. Between two calls every block is in use or free
(`Quadro.Pieno`), during one a single block may be in nobody's hands (`Quadro.Quasi`).
-/

namespace Pitos

open Lib

namespace Heap

def Quadro.Pieno (q : Quadro) : Prop := ∀ b ∈ q.blocchi, q.usato b ∨ q.libero b

/-- All the blocks but one have their place. -/
def Quadro.Quasi (q : Quadro) (b : Blocco) : Prop :=
  ∀ c ∈ q.blocchi, c ≠ b → q.usato c ∨ q.libero c

/-- What the caller gets: the memory of the block. -/
def Blocco.dati (b : Blocco) : Word := BitVec.ofNat 32 (b.inizio + 4)

variable {V : Blocco → Prop} {m₀ m m' : Mem} {s s' : Heap} {q : Quadro} {a b c d : Blocco} {k : Nat}

/-! ## Walking along a list -/

theorem Sano.lunghezza (h : Sano V m₀ s q) (i : Nat) : (q.lista i).length < 512000 := by
  have hmany := h.piano.tessere.length_le (n := 16) fun b hb => by
    have hd := h.piano.dove hb
    unfold Blocco.fine
    omega
  have hsub : q.lista i ⊆ q.blocchi.map Blocco.ptr := fun w hw => by
    obtain ⟨b, hb, rfl, _⟩ := h.elenchi.elencati i w hw
    exact List.mem_map_of_mem (h.piano.liberi b hb).1
  have hlen := List.Nodup.length_le_of_subset (h.elenchi.liste i).nodup hsub
  have hlim := h.piano.limite
  rw [List.length_map] at hlen
  omega

/-- The walk ends at the first block that passes the test, or finds none. -/
theorem Sano.cerca (h : Sano V m₀ s q) (i : Nat) (va : Word → Bool) :
    (∃ b l r, q.libero b ∧ q.lista i = l ++ b.ptr :: r ∧ va b.ptr = true ∧
      s.cerca i va = .ok (l.getLast?, some b.ptr)) ∨
    (∀ w ∈ q.lista i, va w = false) ∧ ∃ prev, s.cerca i va = .ok (prev, none) := by
  rcases walk_stopAt va (h.elenchi.liste i) (h.lunghezza i) with
    ⟨l, w, r, hl, hva, hwalk⟩ | ⟨hnone, prev, hwalk⟩
  · left
    have hw : w ∈ q.lista i := by simp [hl]
    obtain ⟨b, hb, rfl, _⟩ := h.elenchi.elencati i w hw
    refine ⟨b, l, r, hb, hl, hva, ?_⟩
    rw [Heap.cerca, hwalk]
  · right
    refine ⟨hnone, prev, ?_⟩
    rw [Heap.cerca, hwalk]

/-- Taking a free block off `slop` or off its list. -/
theorem Sano.stacca (h : Sano V m₀ s q) (hc : q.libero c) : ∃ s' r, s.stacca c.ptr = .ok s' ∧
    Sano V m₀ s' r ∧ r.blocchi = q.blocchi ∧ r.usato = q.usato ∧ r.fine = q.fine ∧
      ∀ d, r.libero d ↔ q.libero d ∧ d ≠ c := by
  obtain ⟨hin, hu, hnum⟩ := h.piano.liberi c hc
  by_cases hs : c.ptr = s.slop
  · have h1 := h.savanzo hin hs.symm
    have hout := (h.elenchi.di_avanzo h.piano hin hs.symm).2
    obtain ⟨hsec, h2, _, _, _⟩ := h1.b2bucket hin hu hnum
    rcases h2.cerca c.secchio fun bp => bp = c.ptr with ⟨b, l, r, _, hl, hva, _⟩ | ⟨_, prev, hw⟩
    · have hbc : b.ptr = c.ptr := by simpa using hva
      have hmem : c.ptr ∈ (q.savanzo c).lista c.secchio := by
        rw [hl, ← hbc]
        simp
      exact absurd hmem (hout _)
    · refine ⟨_, q.savanzo c, ?_, h2, rfl, rfl, rfl, fun d => Iff.rfl⟩
      simp only [Heap.stacca, if_pos hs, hsec, hw]
      rfl
  · have hmem := (h.elenchi.posti c hc).resolve_left fun he => hs he.symm
    obtain ⟨hsec, h2, _, _, _⟩ := h.b2bucket hin hu hnum
    rcases h2.cerca c.secchio fun bp => bp = c.ptr with ⟨b, l, r, _, hl, hva, hw⟩ | ⟨hnone, _⟩
    · have hbc : b.ptr = c.ptr := by simpa using hva
      rw [hbc] at hl hw
      refine ⟨_, q.slista c c.secchio (l ++ r), ?_, h2.slista hin hl, rfl, rfl, rfl,
        fun d => Iff.rfl⟩
      simp only [Heap.stacca, if_neg hs, hsec, hw]
      rfl
    · have hne := hnone c.ptr hmem
      simp at hne

/-! ## Coalescing -/

/-- A free block and a neighbour in nobody's hands become one. -/
theorem Sano.merge {x y : Blocco} (h : Sano V m₀ s q) (hxy : x.fine = y.inizio)
    (hc : q.libero c) (hb : q.Tolto b) (hq : q.Quasi b)
    (hpair : (x = c ∧ y = b) ∨ (x = b ∧ y = c)) :
    ∃ s' r z, s.merge x.ptr y.ptr c.ptr = .ok (z.ptr, s') ∧ Sano V m₀ s' r ∧
      z.inizio = x.inizio ∧ z.fine = y.fine ∧ r.Tolto z ∧ r.Quasi z ∧ Numerato s'.mem z ∧
        r.usato = q.usato ∧ ∀ d, r.libero d ↔ q.libero d ∧ d ≠ c := by
  obtain ⟨s₁, r₁, hs₁, h₁, hbl, hus, _, hlib⟩ := h.stacca hc
  obtain ⟨hcin, hcu, _⟩ := h.piano.liberi c hc
  have hct : r₁.Tolto c :=
    ⟨hbl ▸ hcin, hus ▸ hcu, fun hl => ((hlib c).mp hl).2 rfl⟩
  have hbt : r₁.Tolto b :=
    ⟨hbl ▸ hb.dentro, hus ▸ hb.fermo, fun hl => hb.tolto ((hlib b).mp hl).1⟩
  have hx : r₁.Tolto x := by rcases hpair with ⟨rfl, _⟩ | ⟨rfl, _⟩ <;> assumption
  have hy : r₁.Tolto y := by rcases hpair with ⟨_, rfl⟩ | ⟨_, rfl⟩ <;> assumption
  obtain ⟨l, r, z, hl, hz, hnum, h₂⟩ := h₁.unisci hx hy hxy
  have hzi : z.inizio = x.inizio := by rw [hz]
  have hzd : z.dim = x.dim + y.dim + 8 := by rw [hz]
  -- the new block is none of the old ones
  have hznew : z ∉ r₁.blocchi := by
    intro hin
    rw [h₁.piano.stesso_inizio hin hx.dentro hzi] at hzd
    omega
  obtain ⟨hzu, hzl⟩ := h₁.piano.nuovo hznew
  have hnodup := hl ▸ h₁.piano.tessere.nodup
  refine ⟨_, { r₁ with blocchi := l ++ ([z] ++ r) }, z, ?_, h₂, hzi, ?_, ⟨by simp, hzu, hzl⟩, ?_,
    hnum, hus, hlib⟩
  · rw [Heap.merge, hs₁]
    show Except.ok (x.ptr, _) = _
    rw [show x.ptr = z.ptr by rw [Blocco.ptr, Blocco.ptr, hzi]]
  · unfold Blocco.fine at hxy ⊢
    omega
  · intro d hd hdz
    have hdlr : d ∈ l ∨ d ∈ r := by
      simp only [List.mem_append, List.mem_singleton] at hd
      tauto
    have hdin : d ∈ r₁.blocchi := by
      rw [hl]
      simp only [List.mem_append]
      tauto
    have hdxy : d ≠ x ∧ d ≠ y := by
      simp only [List.nodup_append, List.mem_append, List.mem_cons, List.not_mem_nil,
        or_false] at hnodup
      obtain ⟨_, ⟨_, _, hxyr⟩, hlxy⟩ := hnodup
      rcases hdlr with hd | hd
      · exact ⟨hlxy d hd x (by simp), hlxy d hd y (by simp)⟩
      · exact ⟨(hxyr x (by simp) d hd).symm, (hxyr y (by simp) d hd).symm⟩
    have hdb : d ≠ b ∧ d ≠ c := by
      rcases hpair with ⟨rfl, rfl⟩ | ⟨rfl, rfl⟩
      · exact hdxy.symm
      · exact hdxy
    rcases hq d (hbl ▸ hdin) hdb.1 with hu | hf
    · exact Or.inl (hus ▸ hu)
    · exact Or.inr ((hlib d).mpr ⟨hf, hdb.2⟩)

/-- The low bit of the word behind a block tells whether the next one is in use. -/
theorem Piano.dopo (h : Piano V m₀ m q) (hb : b ∈ q.blocchi) :
    (m.read32 (BitVec.ofNat 32 b.fine) &&& 1 = 0 ∧
      ∃ c ∈ q.blocchi, b.fine = c.inizio ∧ ¬ q.usato c) ∨
    m.read32 (BitVec.ofNat 32 b.fine) &&& 1 ≠ 0 ∧
      ∀ c ∈ q.blocchi, b.fine = c.inizio → q.usato c := by
  rcases h.tessere.after hb with hend | ⟨c, hc, hstart⟩
  · refine Or.inr ⟨?_, fun c hc hbc => ?_⟩
    · rw [hend, h.ultimo]
      decide
    · have hbound := h.tessere.bounds hc
      omega
  · have hd := h.dove hc
    by_cases hu : q.usato c
    · refine Or.inr ⟨?_, fun d hd hbd => ?_⟩
      · rw [← hstart, (h.usati c hu).2.1, Mem.and_one_ofNat, show (c.dim + 1) % 2 = 1 by omega]
        decide
      · rwa [← h.stesso_inizio hc hd (hstart.trans hbd)]
    · refine Or.inl ⟨?_, c, hc, hstart.symm, hu⟩
      rw [← hstart, (h.altri c hc hu).1, Mem.and_one_ofNat, show (c.dim + 0) % 2 = 0 by omega]
      rfl

/-- The word before a block is the trailer of the one before. -/
theorem Piano.prima (h : Piano V m₀ m q) (hb : b ∈ q.blocchi) :
    (∃ c ∈ q.blocchi, c.fine = b.inizio ∧ ¬ q.usato c ∧ BitVec.ofNat 32 c.dim &&& 1 = 0 ∧
      m.read32 (BitVec.ofNat 32 (b.inizio - 4)) = BitVec.ofNat 32 c.dim) ∨
    m.read32 (BitVec.ofNat 32 (b.inizio - 4)) &&& 1 ≠ 0 ∧
      ∀ c ∈ q.blocchi, c.fine = b.inizio → q.usato c := by
  rcases h.tessere.before hb with hfirst | ⟨c, hc, hstop⟩
  · refine Or.inr ⟨?_, fun c hc hbc => ?_⟩
    · rw [hfirst, h.primo]
      decide
    · have hbound := h.tessere.bounds hc
      omega
  · have hd := h.dove hc
    have htail : b.inizio - 4 = c.inizio + c.dim + 4 := by
      unfold Blocco.fine at hstop
      omega
    by_cases hu : q.usato c
    · refine Or.inr ⟨?_, fun d hdin hbd => ?_⟩
      · rw [htail, (h.usati c hu).2.2, Mem.and_one_ofNat, show (c.dim + 1) % 2 = 1 by omega]
        decide
      · rwa [← h.stessa_fine hc hdin (hstop.trans hbd.symm)]
    · refine Or.inl ⟨c, hc, hstop, hu, ?_, ?_⟩
      · rw [Mem.and_one_ofNat, show c.dim % 2 = 0 by omega]
        rfl
      · rw [htail]
        exact (h.altri c hc hu).2

/-! ## `ki_free` -/

/-- What the running call has: a block in nobody's hands, all the others in their place. -/
structure Sano.Con (V : Blocco → Prop) (m₀ : Mem) (s : Heap) (q : Quadro) (b : Blocco) : Prop where
  sano : Sano V m₀ s q
  tolto : q.Tolto b
  quasi : q.Quasi b
  numerato : Numerato s.mem b

/-- After the first merge no free block ends where this one starts. -/
theorem Sano.Con.prima (h : Sano.Con V m₀ s q b) : ∃ s' r z,
    s.unisciPrima b.ptr = .ok (z.ptr, s') ∧ Sano.Con V m₀ s' r z ∧ r.usato = q.usato ∧
      ∀ d, r.libero d → d.fine ≠ z.inizio := by
  obtain ⟨hs, hb, hq, hnum⟩ := h
  have hd := hs.piano.dove hb.dentro
  have hword : s.befsz b.ptr = s.mem.read32 (BitVec.ofNat 32 (b.inizio - 4)) := by
    have hsub : b.ptr - 4 = BitVec.ofNat 32 (b.inizio - 4) := by
      unfold Blocco.ptr
      bv_omega
    rw [befsz, hsub]
  rcases hs.piano.prima hb.dentro with ⟨c, hc, hcb, hu, hbit, hw⟩ | ⟨hbit, hall⟩
  · have hne : c ≠ b := by
      rintro rfl
      unfold Blocco.fine at hcb
      omega
    have hlib := (hq c hc hne).resolve_left hu
    have hbefore : s.before b.ptr = c.ptr := by
      have hdc := hs.piano.dove hc
      unfold Blocco.fine at hcb
      rw [before, hword, hw]
      unfold Blocco.ptr
      bv_omega
    obtain ⟨s', r, z, hm, hs', hzi, _, hzt, hzq, hzn, hus, hl⟩ :=
      hs.merge hcb hlib hb hq (Or.inl ⟨rfl, rfl⟩)
    refine ⟨s', r, z, ?_, ⟨hs', hzt, hzq, hzn⟩, hus, fun d hdl hdz => ?_⟩
    · rw [unisciPrima, hword, hw, if_pos hbit, hbefore, hm]
    · exact hs.separati d c ((hl d).mp hdl).1 hlib (hdz.trans hzi)
  · refine ⟨s, q, b, ?_, ⟨hs, hb, hq, hnum⟩, rfl, fun d hdl hdb => ?_⟩
    · rw [unisciPrima, hword, if_neg hbit]
    · obtain ⟨hdin, hdu, _⟩ := hs.piano.liberi d hdl
      exact hdu (hall d hdin hdb)

/-- After the second one none starts where this one ends. -/
theorem Sano.Con.dopo (h : Sano.Con V m₀ s q b) (hsep : ∀ d, q.libero d → d.fine ≠ b.inizio) :
    ∃ s' r z, s.unisciDopo b.ptr = .ok (z.ptr, s') ∧ Sano.Con V m₀ s' r z ∧
      r.usato = q.usato ∧ r.Isolato z := by
  obtain ⟨hs, hb, hq, hnum⟩ := h
  have hafter : s.after b.ptr = BitVec.ofNat 32 b.fine := by
    rw [after, (hs.piano.altri b hb.dentro hb.fermo).size, b.ptr_add]
    exact (BitVec.ofNat_add _ _).symm
  have hword : s.size (s.after b.ptr) = s.mem.read32 (BitVec.ofNat 32 b.fine) := by
    rw [hafter, size]
  rcases hs.piano.dopo hb.dentro with ⟨hbit, c, hc, hbc, hu⟩ | ⟨hbit, hall⟩
  · have hne : c ≠ b := by
      rintro rfl
      unfold Blocco.fine at hbc
      omega
    have hlib := (hq c hc hne).resolve_left hu
    have hptr : s.after b.ptr = c.ptr := by rw [hafter, hbc, Blocco.ptr]
    obtain ⟨s', r, z, hm, hs', hzi, hzf, hzt, hzq, hzn, hus, hl⟩ :=
      hs.merge hbc hlib hb hq (Or.inr ⟨rfl, rfl⟩)
    refine ⟨s', r, z, ?_, ⟨hs', hzt, hzq, hzn⟩, hus, fun d hdl => ?_⟩
    · rw [unisciDopo, hword, if_pos hbit, hptr, hm]
    · obtain ⟨hdl, _⟩ := (hl d).mp hdl
      exact ⟨hzi ▸ hsep d hdl, hzf ▸ hs.separati c d hlib hdl⟩
  · refine ⟨s, q, b, ?_, ⟨hs, hb, hq, hnum⟩, rfl, fun d hdl => ⟨hsep d hdl, fun hbd => ?_⟩⟩
    · rw [unisciDopo, hword, if_neg hbit]
    · obtain ⟨hdin, hdu, _⟩ := hs.piano.liberi d hdl
      exact hdu (hall d hdin hbd)

/-- `ki_free` of a block in use: it is free, alone or as a part of a larger one. -/
theorem Sano.kiFree (h : Sano V m₀ s q) (hq : q.Pieno) (hb : q.usato b) (hV : ¬ V b) :
    ∃ s' r, s.kiFree b.dati = .ok s' ∧ Sano V m₀ s' r ∧ r.Pieno ∧
      ∀ c, r.usato c ↔ q.usato c ∧ c ≠ b := by
  have hin := (h.piano.usati b hb).1
  have hd := h.piano.dove hin
  obtain ⟨h₁, hnum⟩ := h.smarca hb hV
  have hcon : Sano.Con V m₀ (s.smarca b.ptr) { q with usato := fun c => q.usato c ∧ c ≠ b } b :=
    ⟨h₁, ⟨hin, fun hu => hu.2 rfl, fun hl => (h.piano.liberi b hl).2.1 hb⟩,
      fun c hc hcb => (hq c hc).imp_left fun hu => ⟨hu, hcb⟩, hnum⟩
  obtain ⟨s₂, q₂, z₂, hm₂, hcon₂, hus₂, hsep⟩ := hcon.prima
  obtain ⟨s₃, q₃, z₃, hm₃, hcon₃, hus₃, hiso⟩ := hcon₂.dopo hsep
  have hptr : b.dati - 4 = b.ptr := by
    unfold Blocco.dati Blocco.ptr
    bv_omega
  have hnull : b.dati ≠ 0 := by
    unfold Blocco.dati
    bv_omega
  refine ⟨s₃.elenca z₃.ptr, q₃.elenca z₃, ?_,
    hcon₃.sano.elenca hcon₃.tolto hcon₃.numerato hiso, fun c hc => ?_, fun c => ?_⟩
  · simp only [Heap.kiFree, if_neg hnull, hptr, hm₂, hm₃, bind, Except.bind, pure, Except.pure]
  · by_cases hcz : c = z₃
    · exact Or.inr (Or.inr hcz)
    · exact (hcon₃.quasi c hc hcz).imp_right Or.inl
  · show q₃.usato c ↔ _
    rw [hus₃, hus₂]

end Heap

end Pitos
