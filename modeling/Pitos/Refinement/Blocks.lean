import Pitos.Kernel.Heap
import Pitos.Lib.Tiling

/-!
# The blocks of the heap

`Quadro` describes the arena: the blocks that fill it, those in use, those on a list, the lists
and where the arena ends. A block that is neither in use nor free is in the hands of the call
that is running. `Piano` says what the words of memory are, `Elenchi` what the lists hold, and
`Sano` joins the two; it also keeps the contents of the blocks of `V`, as they were in `m₀`.
Taking a free block off its list and putting one back keep `Sano`.
-/

namespace Pitos

open Lib

namespace Heap

/-- The header is at `inizio`, the trailer behind `dim` bytes. -/
structure Blocco where
  inizio : Nat
  dim : Nat
  deriving DecidableEq, Repr

namespace Blocco

def fine (b : Blocco) : Nat := b.inizio + b.dim + 8

def ptr (b : Blocco) : Word := BitVec.ofNat 32 b.inizio

def secchio (b : Blocco) : Nat := size2bucket (BitVec.ofNat 32 b.dim)

end Blocco

/-- The two copies of the size, with the bit of the blocks in use. -/
def Etichetta (m : Mem) (b : Blocco) (bit : Nat) : Prop :=
  m.read32 (BitVec.ofNat 32 b.inizio) = BitVec.ofNat 32 (b.dim + bit) ∧
    m.read32 (BitVec.ofNat 32 (b.inizio + b.dim + 4)) = BitVec.ofNat 32 (b.dim + bit)

/-- The number of the list, when it has been computed, is the right one. -/
def Numerato (m : Mem) (b : Blocco) : Prop :=
  m.read32 (BitVec.ofNat 32 (b.inizio + 8)) = -1 ∨
    m.read32 (BitVec.ofNat 32 (b.inizio + 8)) = BitVec.ofNat 32 b.secchio

/-- The memory of the block is as in `m₀`. -/
def Intatto (m₀ m : Mem) (b : Blocco) : Prop :=
  ∀ k, b.inizio + 4 ≤ k → k < b.inizio + 4 + b.dim →
    m (BitVec.ofNat 32 k) = m₀ (BitVec.ofNat 32 k)

structure Quadro where
  blocchi : List Blocco
  usato : Blocco → Prop
  libero : Blocco → Prop
  lista : Nat → List Word
  fine : Nat

structure Piano (V : Blocco → Prop) (m₀ m : Mem) (q : Quadro) : Prop where
  tessere : Tiles Blocco.inizio Blocco.fine 10000004 q.blocchi q.fine
  limite : q.fine + 4 ≤ 10512000
  misura : ∀ b ∈ q.blocchi, b.inizio % 8 = 4 ∧ b.dim % 8 = 0 ∧ 8 ≤ b.dim
  primo : m.read32 (BitVec.ofNat 32 10000000) = 1
  ultimo : m.read32 (BitVec.ofNat 32 q.fine) = 1
  usati : ∀ b, q.usato b → b ∈ q.blocchi ∧ Etichetta m b 1
  altri : ∀ b ∈ q.blocchi, ¬ q.usato b → Etichetta m b 0
  liberi : ∀ b, q.libero b → b ∈ q.blocchi ∧ ¬ q.usato b ∧ Numerato m b
  custoditi : ∀ b, V b → q.usato b ∧ Intatto m₀ m b

structure Elenchi (s : Heap) (q : Quadro) : Prop where
  liste : ∀ i, Linked s.successore (puntato (s.freelist i)) (q.lista i)
  elencati : ∀ i, ∀ w ∈ q.lista i, ∃ b, q.libero b ∧ w = b.ptr ∧ i = b.secchio
  avanzo : s.slop ≠ 0 → ∃ b, q.libero b ∧ s.slop = b.ptr ∧ b.ptr ∉ q.lista b.secchio
  posti : ∀ b, q.libero b → s.slop = b.ptr ∨ b.ptr ∈ q.lista b.secchio

structure Sano (V : Blocco → Prop) (m₀ : Mem) (s : Heap) (q : Quadro) : Prop where
  piano : Piano V m₀ s.mem q
  elenchi : Elenchi s q
  separati : ∀ a b, q.libero a → q.libero b → a.fine ≠ b.inizio
  arena : s.baseAddress = BitVec.ofNat 32 (q.fine + 4)
  atteso : s.expectedSbrk = BitVec.ofNat 32 (q.fine + 4)
  resi : s.allocated = BitVec.ofNat 32 (q.fine + 4 - 10000000)

variable {V : Blocco → Prop} {m₀ m m' : Mem} {s s' : Heap} {q : Quadro} {b c d : Blocco} {k : Nat}

/-! ## Where the blocks are -/

theorem Blocco.ptr_add (b : Blocco) (k : Nat) :
    b.ptr + BitVec.ofNat 32 k = BitVec.ofNat 32 (b.inizio + k) :=
  (BitVec.ofNat_add _ _).symm

/-- The bounds of a block, for arithmetic. -/
theorem Piano.dove (h : Piano V m₀ m q) (hb : b ∈ q.blocchi) :
    10000004 ≤ b.inizio ∧ b.inizio + b.dim + 8 ≤ q.fine ∧ q.fine + 4 ≤ 10512000 ∧
      b.inizio % 8 = 4 ∧ b.dim % 8 = 0 ∧ 8 ≤ b.dim := by
  obtain ⟨h1, _, h3⟩ := h.tessere.bounds hb
  exact ⟨h1, h3, h.limite, h.misura b hb⟩

theorem Piano.ptr_ne_zero (h : Piano V m₀ m q) (hb : b ∈ q.blocchi) : b.ptr ≠ 0 := by
  have hd := h.dove hb
  intro he
  have hn := congrArg BitVec.toNat he
  simp only [Blocco.ptr, BitVec.toNat_ofNat, BitVec.reduceToNat] at hn
  omega

theorem Piano.puntato_ptr (h : Piano V m₀ m q) (hb : b ∈ q.blocchi) :
    puntato b.ptr = some b.ptr := if_neg (h.ptr_ne_zero hb)

/-- A block is known by where it starts. -/
theorem Piano.stesso_inizio (h : Piano V m₀ m q) (hb : b ∈ q.blocchi) (hc : c ∈ q.blocchi)
    (he : b.inizio = c.inizio) : b = c := by
  have hbb := h.tessere.bounds hb
  have hbc := h.tessere.bounds hc
  exact h.tessere.unique (k := b.inizio) hb hc ⟨Nat.le_refl _, hbb.2.1⟩ ⟨by omega, by omega⟩

/-- A block is known by where it ends. -/
theorem Piano.stessa_fine (h : Piano V m₀ m q) (hb : b ∈ q.blocchi) (hc : c ∈ q.blocchi)
    (he : b.fine = c.fine) : b = c := by
  have hbb := h.tessere.bounds hb
  have hbc := h.tessere.bounds hc
  exact h.tessere.unique (k := b.fine - 1) hb hc ⟨by omega, by omega⟩ ⟨by omega, by omega⟩

/-- A pointer is that of one block. -/
theorem Piano.ptr_inj (h : Piano V m₀ m q) (hb : b ∈ q.blocchi) (hc : c ∈ q.blocchi)
    (he : b.ptr = c.ptr) : b = c := by
  have hdb := h.dove hb
  have hdc := h.dove hc
  have hn := congrArg BitVec.toNat he
  simp only [Blocco.ptr, BitVec.toNat_ofNat] at hn
  exact h.stesso_inizio hb hc (by omega)

/-- The arena ends where a header could start. -/
theorem Piano.fine_allineata (h : Piano V m₀ m q) : q.fine % 8 = 4 := by
  have ht := h.tessere
  rcases List.eq_nil_or_concat q.blocchi with hnil | ⟨l, b, hl⟩
  · rw [hnil] at ht
    have hend := ht.eq_of_nil
    omega
  · have hd := h.dove (b := b) (by simp [hl])
    rw [hl, List.concat_eq_append, Tiles.append_iff] at ht
    obtain ⟨u, _, hb⟩ := ht
    have hend := (Tiles.cons_iff.mp hb).2.2.eq_of_nil
    unfold Blocco.fine at hend
    omega

/-- What changes inside one block leaves the words of the others alone. -/
theorem Piano.altrove (h : Piano V m₀ m q) (hc : c ∈ q.blocchi) (hd : d ∈ q.blocchi)
    (hne : d ≠ c) (hch : Mem.ChangesAt (Mem.Between c.inizio c.fine) m m')
    (hk : d.inizio ≤ k) (hk' : k + 4 ≤ d.fine) :
    m'.read32 (BitVec.ofNat 32 k) = m.read32 (BitVec.ofNat 32 k) := by
  have hap := h.tessere.apart hd hc hne
  have hdd := h.dove hd
  apply hch.read32_number (by omega)
  unfold Blocco.fine at hk'
  omega

theorem Piano.etichetta_altrove {bit : Nat} (h : Piano V m₀ m q) (hc : c ∈ q.blocchi)
    (hd : d ∈ q.blocchi) (hne : d ≠ c)
    (hch : Mem.ChangesAt (Mem.Between c.inizio c.fine) m m') (he : Etichetta m d bit) :
    Etichetta m' d bit := by
  refine ⟨(h.altrove hc hd hne hch (Nat.le_refl _) ?_).trans he.1,
    (h.altrove hc hd hne hch (by omega) ?_).trans he.2⟩ <;> unfold Blocco.fine <;> omega

/-- A change inside a block that nobody uses: the description may be changed there. -/
theorem Piano.tocca {U F : Blocco → Prop} (h : Piano V m₀ m q) (hc : c ∈ q.blocchi) (hV : ¬ V c)
    (hch : Mem.ChangesAt (Mem.Between c.inizio c.fine) m m')
    (hU : ∀ b, b ≠ c → (U b ↔ q.usato b)) (hF : ∀ b, b ≠ c → F b → q.libero b)
    (hU1 : U c → Etichetta m' c 1) (hU0 : ¬ U c → Etichetta m' c 0)
    (hFc : F c → ¬ U c ∧ Numerato m' c) :
    Piano V m₀ m' { q with usato := U, libero := F } := by
  have hdc := h.dove hc
  refine
    { tessere := h.tessere
      limite := h.limite
      misura := h.misura
      primo := ?_
      ultimo := ?_
      usati := fun b hb => ?_
      altri := fun b hb hn => ?_
      liberi := fun b hb => ?_
      custoditi := fun b hb => ?_ }
  · exact (hch.read32_number (by omega) (by omega)).trans h.primo
  · have hlast : c.fine ≤ q.fine := by
      unfold Blocco.fine
      omega
    exact (hch.read32_number (Or.inr hlast) (by omega)).trans h.ultimo
  · by_cases hbc : b = c
    · subst hbc
      exact ⟨hc, hU1 hb⟩
    · obtain ⟨hin, he⟩ := h.usati b ((hU b hbc).mp hb)
      exact ⟨hin, h.etichetta_altrove hc hin hbc hch he⟩
  · by_cases hbc : b = c
    · subst hbc
      exact hU0 hn
    · exact h.etichetta_altrove hc hb hbc hch (h.altri b hb fun hu => hn ((hU b hbc).mpr hu))
  · by_cases hbc : b = c
    · subst hbc
      exact ⟨hc, hFc hb⟩
    · obtain ⟨hin, hu, hnum⟩ := h.liberi b (hF b hbc hb)
      refine ⟨hin, fun hu' => hu ((hU b hbc).mp hu'), ?_⟩
      have hdb := h.dove hin
      have hword := h.altrove (k := b.inizio + 8) hc hin hbc hch (by omega) (by
        unfold Blocco.fine
        omega)
      unfold Numerato
      rwa [hword]
  · have hbc : b ≠ c := by
      rintro rfl
      exact hV hb
    obtain ⟨hu, hint⟩ := h.custoditi b hb
    have hin := (h.usati b hu).1
    have hdb := h.dove hin
    refine ⟨(hU b hbc).mpr hu, fun k hk hk' => ?_⟩
    have hap := h.tessere.apart hin hc hbc
    refine (hch.byte_number ?_ (by omega)).trans (hint k hk hk')
    unfold Blocco.fine at hap ⊢
    omega

/-- A write inside the memory of a block that is not in use. -/
theorem Piano.interna {v : Word} (h : Piano V m₀ m q) (hc : c ∈ q.blocchi) (hu : ¬ q.usato c)
    (hk : c.inizio + 4 ≤ k) (hk' : k + 4 ≤ c.inizio + c.dim + 4)
    (hnum : q.libero c → Numerato (m.write32 (BitVec.ofNat 32 k) v) c) :
    Piano V m₀ (m.write32 (BitVec.ofNat 32 k) v) q := by
  have hd := h.dove hc
  obtain ⟨hh, ht⟩ := h.altri c hc hu
  have hch : Mem.ChangesAt (Mem.Between c.inizio c.fine) m (m.write32 (BitVec.ofNat 32 k) v) := by
    refine (Mem.ChangesAt.refl m).write32_number (by omega) ?_ (by omega)
    unfold Blocco.fine
    omega
  refine h.tocca (U := q.usato) (F := q.libero) hc (fun hV => hu (h.custoditi c hV).1) hch
    (fun _ _ => Iff.rfl) (fun _ _ => id) (fun hu' => absurd hu' hu) (fun _ => ?_)
    (fun hF => ⟨hu, hnum hF⟩)
  refine ⟨?_, ?_⟩
  · rwa [Mem.read32_write32_number (by omega) (by omega) (by omega)]
  · rwa [Mem.read32_write32_number (by omega) (by omega) (by omega)]

/-- A change of the link keeps the number of the list. -/
theorem Numerato.next {v : Word} (h : Numerato m b) (hb : b.inizio + 12 ≤ 2 ^ 32) :
    Numerato (m.write32 (BitVec.ofNat 32 (b.inizio + 4)) v) b := by
  unfold Numerato
  rwa [Mem.read32_write32_number (by omega) (by omega) (by omega)]

/-! ## The lists -/

/-- The link word of a block. -/
theorem next_ptr (s : Heap) (b : Blocco) :
    s.next b.ptr = s.mem.read32 (BitVec.ofNat 32 (b.inizio + 4)) := by
  rw [← b.ptr_add]
  rfl

/-- The lists depend on the links of the free blocks only. -/
theorem Elenchi.conserva {r : Quadro} (h : Elenchi s q) (hf : s'.freelist = s.freelist)
    (hs : s'.slop = s.slop) (hlib : r.libero = q.libero) (hlis : r.lista = q.lista)
    (hn : ∀ b, q.libero b → s'.next b.ptr = s.next b.ptr) : Elenchi s' r := by
  refine ⟨fun i => ?_, ?_, ?_, ?_⟩
  · rw [hf, hlis]
    apply (h.liste i).congr
    intro w hw
    obtain ⟨b, hb, rfl, _⟩ := h.elencati i w hw
    simp only [successore, hn b hb]
  · rw [hlib, hlis]
    exact h.elencati
  · rw [hs, hlib, hlis]
    exact h.avanzo
  · rw [hs, hlib, hlis]
    exact h.posti

/-- A change inside one block that keeps its link when it is free. -/
theorem Elenchi.dentro {r : Quadro} (h : Elenchi s q) (hp : Piano V m₀ s.mem q)
    (hb : b ∈ q.blocchi) (hch : Mem.ChangesAt (Mem.Between b.inizio b.fine) s.mem s'.mem)
    (hf : s'.freelist = s.freelist) (hs : s'.slop = s.slop) (hlib : r.libero = q.libero)
    (hlis : r.lista = q.lista) (hn : q.libero b → s'.next b.ptr = s.next b.ptr) : Elenchi s' r := by
  apply h.conserva hf hs hlib hlis
  intro c hc
  by_cases hcb : c = b
  · subst hcb
    exact hn hc
  · have hin := (hp.liberi c hc).1
    have hd := hp.dove hin
    rw [next_ptr, next_ptr]
    apply hp.altrove hb hin hcb hch (by omega)
    unfold Blocco.fine
    omega

/-- A pointer in a list is that of a free block of that list. -/
theorem Elenchi.di_lista {i : Nat} (h : Elenchi s q) (hp : Piano V m₀ m q) (hb : b ∈ q.blocchi)
    (hi : b.ptr ∈ q.lista i) : q.libero b ∧ i = b.secchio := by
  obtain ⟨c, hc, hptr, hi⟩ := h.elencati i _ hi
  obtain rfl := hp.ptr_inj hb (hp.liberi c hc).1 hptr
  exact ⟨hc, hi⟩

/-- The slop block is on no list. -/
theorem Elenchi.di_avanzo (h : Elenchi s q) (hp : Piano V m₀ m q) (hb : b ∈ q.blocchi)
    (hs : s.slop = b.ptr) : q.libero b ∧ ∀ i, b.ptr ∉ q.lista i := by
  obtain ⟨c, hc, hptr, hn⟩ := h.avanzo fun h0 => hp.ptr_ne_zero hb (hs.symm.trans h0)
  obtain rfl := hp.ptr_inj hb (hp.liberi c hc).1 (hs.symm.trans hptr)
  refine ⟨hc, fun i hi => hn ?_⟩
  obtain ⟨_, rfl⟩ := h.di_lista hp hb hi
  exact hi

/-- The links after `*prev = v`. -/
theorem successore_scrivePrev {i : Nat} {prev : Option Word} {v : Word}
    (hp : Piano V m₀ s.mem q) (hb : b ∈ q.blocchi)
    (hprev : ∀ w ∈ prev, ∃ c ∈ q.blocchi, w = c.ptr) :
    (s.scrivePrev i prev v).successore b.ptr =
      if some b.ptr = prev then puntato v else s.successore b.ptr := by
  cases prev with
  | none => simp [scrivePrev, successore, next]
  | some w =>
    obtain ⟨c, hc, rfl⟩ := hprev w rfl
    have hd := hp.dove hb
    have hdc := hp.dove hc
    have hmem : (s.scrivePrev i (some c.ptr) v).mem =
        s.mem.write32 (BitVec.ofNat 32 (c.inizio + 4)) v := by
      rw [← c.ptr_add]
      rfl
    simp only [successore, next_ptr, hmem, Option.some.injEq]
    by_cases hbc : b = c
    · subst hbc
      rw [if_pos rfl, Mem.read32_write32]
    · have hap := hp.tessere.apart hb hc hbc
      unfold Blocco.fine at hap
      rw [if_neg fun he => hbc (hp.ptr_inj hb hc he),
        Mem.read32_write32_number (by omega) (by omega) (by omega)]

/-- A free block is taken off the list it is on. -/
def Quadro.slista (q : Quadro) (b : Blocco) (i : Nat) (l : List Word) : Quadro :=
  { q with libero := fun c => q.libero c ∧ c ≠ b, lista := Function.update q.lista i l }

theorem Quadro.slista_self (q : Quadro) (b : Blocco) (i : Nat) (l : List Word) :
    (q.slista b i l).lista i = l := Function.update_self ..

theorem Quadro.slista_of_ne {b : Blocco} {i j : Nat} {l : List Word} (hj : j ≠ i) :
    (q.slista b i l).lista j = q.lista j := Function.update_of_ne hj ..

theorem slop_scrivePrev (s : Heap) (b : Nat) (prev : Option Word) (v : Word) :
    (s.scrivePrev b prev v).slop = s.slop := by
  cases prev <;> rfl

theorem Elenchi.slista {i : Nat} {a r : List Word} (h : Elenchi s q) (hp : Piano V m₀ s.mem q)
    (hb : b ∈ q.blocchi) (hl : q.lista i = a ++ b.ptr :: r) :
    Elenchi (s.scrivePrev i a.getLast? (s.next b.ptr)) (q.slista b i (a ++ r)) := by
  have hbi : b.ptr ∈ q.lista i := by simp [hl]
  obtain ⟨hlib, hi⟩ := h.di_lista hp hb hbi
  have hlink := hl ▸ h.liste i
  have hnodup := hlink.nodup
  -- the block before is one of the list
  have hprev : ∀ w ∈ a.getLast?, w ∈ q.lista i := fun w hw => by
    rw [hl]
    exact List.mem_append_left _ (List.mem_of_getLast? hw)
  have hprev' : ∀ w ∈ a.getLast?, ∃ c ∈ q.blocchi, w = c.ptr := fun w hw => by
    obtain ⟨c, hc, hw, _⟩ := h.elencati i w (hprev w hw)
    exact ⟨c, (hp.liberi c hc).1, hw⟩
  have hsub : ∀ j, ∀ w ∈ Function.update q.lista i (a ++ r) j, w ∈ q.lista j := by
    intro j w hw
    by_cases hj : j = i
    · subst hj
      rw [Function.update_self] at hw
      rw [hl]
      rcases List.mem_append.mp hw with hw | hw
      · exact List.mem_append_left _ hw
      · exact List.mem_append_right _ (List.mem_cons_of_mem _ hw)
    · rwa [Function.update_of_ne hj] at hw
  have hout : b.ptr ∉ a ++ r := by
    intro hm
    rw [List.nodup_append, List.nodup_cons] at hnodup
    rcases List.mem_append.mp hm with hm | hm
    · exact hnodup.2.2 _ hm _ List.mem_cons_self rfl
    · exact hnodup.2.1.1 hm
  refine ⟨fun j => ?_, fun j w hw => ?_, fun hne => ?_, fun c hc => ?_⟩
  · by_cases hj : j = i
    · subst hj
      have hhead : puntato ((s.scrivePrev j a.getLast? (s.next b.ptr)).freelist j) =
          if a = [] then s.successore b.ptr else puntato (s.freelist j) := by
        cases a with
        | nil => simp [scrivePrev, successore]
        | cons x a =>
          rw [List.getLast?_cons]
          simp [scrivePrev, setNext]
      rw [hhead, Quadro.slista_self]
      apply hlink.bypass.congr
      intro w hw
      have hw' : w ∈ q.lista j := hsub j w (by rwa [Function.update_self])
      obtain ⟨c, hc, rfl, _⟩ := h.elencati j w hw'
      rw [successore_scrivePrev hp (hp.liberi c hc).1 hprev']
      rfl
    · have hhead : (s.scrivePrev i a.getLast? (s.next b.ptr)).freelist j = s.freelist j := by
        cases a.getLast? with
        | none => exact Function.update_of_ne hj ..
        | some w => rfl
      rw [Quadro.slista_of_ne hj, hhead]
      apply (h.liste j).congr
      intro w hw
      obtain ⟨c, hc, rfl, hcj⟩ := h.elencati j w hw
      rw [successore_scrivePrev hp (hp.liberi c hc).1 hprev', if_neg]
      intro hlast
      have hci := h.di_lista hp (hp.liberi c hc).1 (hprev c.ptr hlast.symm)
      exact hj (hcj.trans hci.2.symm)
  · obtain ⟨c, hc, rfl, hcj⟩ := h.elencati j w (hsub j w hw)
    refine ⟨c, ⟨hc, ?_⟩, rfl, hcj⟩
    rintro rfl
    obtain rfl : j = i := hcj.trans hi.symm
    rw [Quadro.slista_self] at hw
    exact hout hw
  · rw [slop_scrivePrev] at hne ⊢
    obtain ⟨c, hc, hs, hn⟩ := h.avanzo hne
    refine ⟨c, ⟨hc, ?_⟩, hs, fun hm => hn (hsub _ _ hm)⟩
    rintro rfl
    exact hn (hi ▸ hbi)
  · rw [slop_scrivePrev]
    apply (h.posti c hc.1).imp_right
    intro hm
    by_cases hj : c.secchio = i
    · rw [hj, hl] at hm
      rw [hj, Quadro.slista_self]
      have hne : c.ptr ≠ b.ptr := fun he => hc.2 (hp.ptr_inj (hp.liberi c hc.1).1 hb he)
      rcases List.mem_append.mp hm with hm | hm
      · exact List.mem_append_left _ hm
      · exact List.mem_append_right _ ((List.mem_cons.mp hm).resolve_left hne)
    · rwa [Quadro.slista_of_ne hj]

/-- The slop block leaves `slop`. -/
def Quadro.savanzo (q : Quadro) (b : Blocco) : Quadro :=
  { q with libero := fun c => q.libero c ∧ c ≠ b }

theorem Elenchi.savanzo (h : Elenchi s q) (hp : Piano V m₀ m q) (hb : b ∈ q.blocchi)
    (hs : s.slop = b.ptr) : Elenchi { s with slop := 0 } (q.savanzo b) := by
  obtain ⟨_, hout⟩ := h.di_avanzo hp hb hs
  refine ⟨h.liste, fun i w hw => ?_, fun hne => absurd rfl hne, fun c hc => Or.inr ?_⟩
  · obtain ⟨c, hc, rfl, hi⟩ := h.elencati i w hw
    refine ⟨c, ⟨hc, ?_⟩, rfl, hi⟩
    rintro rfl
    exact hout i hw
  · refine (h.posti c hc.1).resolve_left fun hsc => hc.2 ?_
    exact hp.ptr_inj (hp.liberi c hc.1).1 hb (hsc.symm.trans hs)

/-- A block becomes the slop block. -/
def Quadro.avanza (q : Quadro) (b : Blocco) : Quadro :=
  { q with libero := fun c => q.libero c ∨ c = b }

theorem Elenchi.avanza (h : Elenchi s q) (hp : Piano V m₀ m q) (hb : b ∈ q.blocchi)
    (hn : ¬ q.libero b) (hs : s.slop = 0) : Elenchi { s with slop := b.ptr } (q.avanza b) := by
  refine ⟨h.liste, fun i w hw => ?_, fun _ => ?_, fun c hc => ?_⟩
  · obtain ⟨c, hc, hw, hi⟩ := h.elencati i w hw
    exact ⟨c, Or.inl hc, hw, hi⟩
  · exact ⟨b, Or.inr rfl, rfl, fun hm => hn (h.di_lista hp hb hm).1⟩
  · rcases hc with hc | rfl
    · refine Or.inr ((h.posti c hc).resolve_left fun h0 => ?_)
      exact hp.ptr_ne_zero (hp.liberi c hc).1 (h0.symm.trans hs)
    · exact Or.inl rfl

/-- A block is put at the head of its list. -/
def Quadro.elenca (q : Quadro) (b : Blocco) : Quadro :=
  { q with
    libero := fun c => q.libero c ∨ c = b
    lista := Function.update q.lista b.secchio (b.ptr :: q.lista b.secchio) }

theorem Quadro.lista_elenca (q : Quadro) (b : Blocco) :
    (q.elenca b).lista b.secchio = b.ptr :: q.lista b.secchio := Function.update_self ..

theorem Quadro.lista_elenca_ne {i : Nat} (q : Quadro) (hi : i ≠ b.secchio) :
    (q.elenca b).lista i = q.lista i := Function.update_of_ne hi ..

theorem Quadro.mem_elenca {i : Nat} {w : Word} : w ∈ (q.elenca b).lista i ↔
    (i = b.secchio ∧ w = b.ptr) ∨ w ∈ q.lista i := by
  by_cases hi : i = b.secchio
  · subst hi
    simp [q.lista_elenca]
  · simp [q.lista_elenca_ne hi, hi]

theorem successore_freelist (s : Heap) (f : Nat → Word) :
    { s with freelist := f }.successore = s.successore := rfl

/-- `bp->next = freelist[b]; freelist[b] = bp` with the number of the list known. -/
def inserisci (s : Heap) (b : Nat) (bp : Word) : Heap :=
  { s.setNext bp (s.freelist b) with freelist := Function.update s.freelist b bp }

theorem Elenchi.inserisci (h : Elenchi s q) (hp : Piano V m₀ s.mem q) (hb : b ∈ q.blocchi)
    (hn : ¬ q.libero b) : Elenchi (s.inserisci b.secchio b.ptr) (q.elenca b) := by
  have hout : ∀ i, b.ptr ∉ q.lista i := fun i hi => hn (h.di_lista hp hb hi).1
  have hsucc : ∀ c ∈ q.blocchi, (s.inserisci b.secchio b.ptr).successore c.ptr =
      if some c.ptr = some b.ptr then puntato (s.freelist b.secchio) else s.successore c.ptr := by
    intro c hc
    have hset : s.setNext b.ptr (s.freelist b.secchio) =
        s.scrivePrev 0 (some b.ptr) (s.freelist b.secchio) := rfl
    rw [Heap.inserisci, successore_freelist, hset]
    exact successore_scrivePrev hp hc fun w hw => ⟨b, hb, (Option.some.inj hw).symm⟩
  have hkeep : ∀ i, Linked (s.inserisci b.secchio b.ptr).successore
      (puntato (s.freelist i)) (q.lista i) := fun i => (h.liste i).congr fun w hw => by
    obtain ⟨c, hc, rfl, _⟩ := h.elencati i w hw
    rw [hsucc c (hp.liberi c hc).1, if_neg]
    intro he
    exact hout i (Option.some.inj he ▸ hw)
  refine ⟨fun i => ?_, fun i w hw => ?_, fun hne => ?_, fun c hc => ?_⟩
  · by_cases hi : i = b.secchio
    · subst hi
      have hhead : (s.inserisci b.secchio b.ptr).freelist b.secchio = b.ptr :=
        Function.update_self ..
      rw [q.lista_elenca, hhead, hp.puntato_ptr hb]
      apply Linked.cons
      rw [hsucc b hb, if_pos rfl]
      exact hkeep b.secchio
    · have hhead : (s.inserisci b.secchio b.ptr).freelist i = s.freelist i :=
        Function.update_of_ne hi ..
      rw [q.lista_elenca_ne hi, hhead]
      exact hkeep i
  · rcases Quadro.mem_elenca.mp hw with ⟨rfl, rfl⟩ | hw
    · exact ⟨b, Or.inr rfl, rfl, rfl⟩
    · obtain ⟨c, hc, hw, hi⟩ := h.elencati i w hw
      exact ⟨c, Or.inl hc, hw, hi⟩
  · obtain ⟨c, hc, hs, hnc⟩ := h.avanzo hne
    refine ⟨c, Or.inl hc, hs, fun hm => ?_⟩
    rcases Quadro.mem_elenca.mp hm with ⟨_, hptr⟩ | hm
    · obtain rfl := hp.ptr_inj (hp.liberi c hc).1 hb hptr
      exact hn hc
    · exact hnc hm
  · rcases hc with hc | rfl
    · exact (h.posti c hc).imp_right fun hm => Quadro.mem_elenca.mpr (Or.inr hm)
    · exact Or.inr (Quadro.mem_elenca.mpr (Or.inl ⟨rfl, rfl⟩))

/-! ## Lists and memory together -/

theorem Piano.meno {F : Blocco → Prop} {l : Nat → List Word} (h : Piano V m₀ m q)
    (hF : ∀ b, F b → q.libero b) : Piano V m₀ m { q with libero := F, lista := l } :=
  { h with liberi := fun b hb => h.liberi b (hF b hb) }

theorem Piano.piu {l : Nat → List Word} (h : Piano V m₀ m q) (hb : b ∈ q.blocchi)
    (hu : ¬ q.usato b) (hnum : Numerato m b) :
    Piano V m₀ m { q with libero := fun c => q.libero c ∨ c = b, lista := l } where
  __ := h
  liberi c hc := by
    rcases hc with hc | rfl
    · exact h.liberi c hc
    · exact ⟨hb, hu, hnum⟩

theorem Sano.slista {i : Nat} {a r : List Word} (h : Sano V m₀ s q) (hb : b ∈ q.blocchi)
    (hl : q.lista i = a ++ b.ptr :: r) :
    Sano V m₀ (s.scrivePrev i a.getLast? (s.next b.ptr)) (q.slista b i (a ++ r)) := by
  have hpiano : Piano V m₀ (s.scrivePrev i a.getLast? (s.next b.ptr)).mem q := by
    cases hw : a.getLast? with
    | none => exact h.piano
    | some w =>
      have hwl : w ∈ q.lista i := by
        rw [hl]
        exact List.mem_append_left _ (List.mem_of_getLast? hw)
      obtain ⟨c, hc, rfl, _⟩ := h.elenchi.elencati i w hwl
      obtain ⟨hin, hu, hnum⟩ := h.piano.liberi c hc
      have hd := h.piano.dove hin
      show Piano V m₀ (s.mem.write32 (c.ptr + 4) _) q
      rw [show c.ptr + 4 = BitVec.ofNat 32 (c.inizio + 4) from c.ptr_add 4]
      exact h.piano.interna hin hu (Nat.le_refl _) (by omega) fun _ => hnum.next (by omega)
  have hrest : ∀ v : Word, (s.scrivePrev i a.getLast? v).baseAddress = s.baseAddress ∧
      (s.scrivePrev i a.getLast? v).expectedSbrk = s.expectedSbrk ∧
      (s.scrivePrev i a.getLast? v).allocated = s.allocated := by
    intro v
    cases a.getLast? <;> exact ⟨rfl, rfl, rfl⟩
  obtain ⟨h1, h2, h3⟩ := hrest (s.next b.ptr)
  exact
    { piano := hpiano.meno fun c hc => hc.1
      elenchi := h.elenchi.slista h.piano hb hl
      separati := fun a b ha hb => h.separati a b ha.1 hb.1
      arena := h1.trans h.arena
      atteso := h2.trans h.atteso
      resi := h3.trans h.resi }

theorem Sano.savanzo (h : Sano V m₀ s q) (hb : b ∈ q.blocchi) (hs : s.slop = b.ptr) :
    Sano V m₀ { s with slop := 0 } (q.savanzo b) where
  __ := h
  piano := h.piano.meno fun _ hc => hc.1
  elenchi := h.elenchi.savanzo h.piano hb hs
  separati a b ha hb := h.separati a b ha.1 hb.1

/-- No free block next to this one. -/
def Quadro.Isolato (q : Quadro) (b : Blocco) : Prop :=
  ∀ c, q.libero c → c.fine ≠ b.inizio ∧ b.fine ≠ c.inizio

/-- A block that nobody has: it may be given out, joined to another or freed. -/
structure Quadro.Tolto (q : Quadro) (b : Blocco) : Prop where
  dentro : b ∈ q.blocchi
  fermo : ¬ q.usato b
  tolto : ¬ q.libero b

theorem Quadro.Isolato.separati (hi : q.Isolato b) (h : Sano V m₀ s q) (c d : Blocco)
    (hc : q.libero c ∨ c = b) (hd : q.libero d ∨ d = b) : c.fine ≠ d.inizio := by
  rcases hc with hc | rfl <;> rcases hd with hd | rfl
  · exact h.separati c d hc hd
  · exact (hi c hc).1
  · exact (hi d hd).2
  · unfold Blocco.fine
    omega

theorem Sano.avanza (h : Sano V m₀ s q) (hb : q.Tolto b) (hnum : Numerato s.mem b)
    (hi : q.Isolato b) (hs : s.slop = 0) : Sano V m₀ { s with slop := b.ptr } (q.avanza b) where
  __ := h
  piano := h.piano.piu hb.dentro hb.fermo hnum
  elenchi := h.elenchi.avanza h.piano hb.dentro hb.tolto hs
  separati := hi.separati h

theorem Sano.inserisci (h : Sano V m₀ s q) (hb : q.Tolto b) (hnum : Numerato s.mem b)
    (hi : q.Isolato b) : Sano V m₀ (s.inserisci b.secchio b.ptr) (q.elenca b) := by
  have hd := h.piano.dove hb.dentro
  have hmem : (s.inserisci b.secchio b.ptr).mem =
      s.mem.write32 (BitVec.ofNat 32 (b.inizio + 4)) (s.freelist b.secchio) := by
    rw [← b.ptr_add]
    rfl
  have hnum' : Numerato (s.inserisci b.secchio b.ptr).mem b := by
    rw [hmem]
    exact hnum.next (by omega)
  have hpiano : Piano V m₀ (s.inserisci b.secchio b.ptr).mem q := by
    rw [hmem]
    exact h.piano.interna hb.dentro hb.fermo (Nat.le_refl _) (by omega) fun _ =>
      hnum.next (by omega)
  exact
    { piano := hpiano.piu hb.dentro hb.fermo hnum'
      elenchi := h.elenchi.inserisci h.piano hb.dentro hb.tolto
      separati := hi.separati h
      arena := h.arena
      atteso := h.atteso
      resi := h.resi }

/-! ## The number of the list -/

theorem contaBit_le {n k r : Nat} {w : Word} (h : w.toNat < 2 ^ k) :
    contaBit n w r ≤ r + k := by
  induction n generalizing w r k with
  | zero => exact Nat.le_add_right _ _
  | succ n ih =>
    unfold contaBit
    split
    · omega
    · rename_i hw
      cases k with
      | zero =>
        have hzero : w = 0 := BitVec.eq_of_toNat_eq (by simpa using h)
        exact absurd hzero hw
      | succ k =>
        have hshift : (w >>> 1).toNat < 2 ^ k := by
          rw [BitVec.toNat_ushiftRight, Nat.shiftRight_eq_div_pow]
          omega
        have hle := ih (r := r + 1) hshift
        omega

/-- The size of a block of the arena has a list of its own among the thirty. -/
theorem secchio_lt (hb : b.dim < 2 ^ 31) : b.secchio < 30 := by
  have hshift : (BitVec.ofNat 32 b.dim >>> 2).toNat < 2 ^ 29 := by
    rw [BitVec.toNat_ushiftRight, Nat.shiftRight_eq_div_pow, BitVec.toNat_ofNat]
    omega
  have hle := contaBit_le (n := 32) (r := 0) hshift
  unfold Blocco.secchio size2bucket
  omega

/-- `b2bucket` of a block that is not in use gives its list and keeps the heap. -/
theorem Sano.b2bucket (h : Sano V m₀ s q) (hb : b ∈ q.blocchi) (hu : ¬ q.usato b)
    (hnum : Numerato s.mem b) : (s.b2bucket b.ptr).1 = b.secchio ∧
      Sano V m₀ (s.b2bucket b.ptr).2 q ∧ Numerato (s.b2bucket b.ptr).2.mem b ∧
      (s.b2bucket b.ptr).2.slop = s.slop ∧ (s.b2bucket b.ptr).2.freelist = s.freelist := by
  have hd := h.piano.dove hb
  have hsec := secchio_lt (b := b) (by omega)
  have hback : (BitVec.ofNat 32 b.secchio).toNat = b.secchio := by
    rw [BitVec.toNat_ofNat]
    omega
  have hword : s.bucket b.ptr = s.mem.read32 (BitVec.ofNat 32 (b.inizio + 8)) := by
    rw [← b.ptr_add]
    rfl
  simp only [Heap.b2bucket]
  by_cases h1 : s.bucket b.ptr = -1
  · have hsize : s.size b.ptr = BitVec.ofNat 32 b.dim := (h.piano.altri b hb hu).1
    have hset : s.setBucket b.ptr (BitVec.ofNat 32 (size2bucket (s.size b.ptr))) =
        { s with
          mem := s.mem.write32 (BitVec.ofNat 32 (b.inizio + 8)) (BitVec.ofNat 32 b.secchio) } := by
      rw [← b.ptr_add, hsize]
      rfl
    have hnum' : Numerato (s.mem.write32 (BitVec.ofNat 32 (b.inizio + 8))
        (BitVec.ofNat 32 b.secchio)) b := Or.inr (Mem.read32_write32 ..)
    rw [if_pos h1, hset]
    refine ⟨?_, ?_, hnum', rfl, rfl⟩
    · show (Mem.read32 _ (b.ptr + BitVec.ofNat 32 8)).toNat = _
      rw [b.ptr_add, Mem.read32_write32, hback]
    · have hch : Mem.ChangesAt (Mem.Between b.inizio b.fine) s.mem (s.mem.write32
          (BitVec.ofNat 32 (b.inizio + 8)) (BitVec.ofNat 32 b.secchio)) := by
        refine (Mem.ChangesAt.refl s.mem).write32_number (by omega) ?_ (by omega)
        unfold Blocco.fine
        omega
      refine ⟨h.piano.interna hb hu (by omega) (by omega) fun _ => hnum',
        h.elenchi.dentro h.piano hb hch rfl rfl rfl rfl fun _ => ?_, h.separati, h.arena, h.atteso,
        h.resi⟩
      rw [next_ptr, next_ptr, Mem.read32_write32_number (by omega) (by omega) (by omega)]
  · rw [if_neg h1]
    refine ⟨?_, h, hnum, rfl, rfl⟩
    rw [hword] at h1 ⊢
    rw [hnum.resolve_left h1, hback]

/-- A block in nobody's hands is put on its list. -/
theorem Sano.elenca (h : Sano V m₀ s q) (hb : q.Tolto b) (hnum : Numerato s.mem b)
    (hi : q.Isolato b) : Sano V m₀ (s.elenca b.ptr) (q.elenca b) := by
  obtain ⟨hsec, hsano, hnum', _, _⟩ := h.b2bucket hb.dentro hb.fermo hnum
  have heq : s.elenca b.ptr = (s.b2bucket b.ptr).2.inserisci b.secchio b.ptr := by
    rw [← hsec]
    rfl
  rw [heq]
  exact hsano.inserisci hb hnum' hi

end Heap

end Pitos
