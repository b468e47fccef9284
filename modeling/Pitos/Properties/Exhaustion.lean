import Pitos.Properties.Heap

/-!
# When the memory is used up

`ki_malloc` has a slop block, thirty lists and `sbrk` to take memory from. `memoria_finita` says
exactly when `sbrk` is asked in vain: no free block of the arena is as large as the request
rounded up, and what has been handed out leaves no room for it and its sixteen bytes. Free
neighbours are always joined, so a heap of which everything has been given back is one free
block; `sbrk` does not lengthen it, and a request larger than that block finds the arena as
short as if the block were in use (`heap_a_riposo`).

The seven sizes from `0x7FFFFFF9` to `0x7FFFFFFF` overflow an `int` when they are rounded up. The
code then reads `freelist[30]`, one element behind the array; here that list is empty.
-/

namespace Pitos

open Lib

namespace Heap

variable {V : Blocco → Prop} {m₀ m : Mem} {s : Heap} {q : Quadro} {b : Blocco} {k : Nat}
  {size v w : Word}

/-! ## The list of a size -/

theorem le_contaBit (n : Nat) (w : Word) (r : Nat) : r ≤ contaBit n w r := by
  induction n generalizing w r with
  | zero => exact Nat.le_refl r
  | succ n ih =>
    unfold contaBit
    split
    · exact Nat.le_refl r
    · exact Nat.le_of_succ_le (ih (w >>> 1) (r + 1))

/-- A larger size has no list further down. -/
theorem contaBit_mono (h : v.toNat ≤ w.toNat) (n r : Nat) : contaBit n v r ≤ contaBit n w r := by
  induction n generalizing v w r with
  | zero => exact Nat.le_refl r
  | succ n ih =>
    by_cases hv : v = 0
    · rw [contaBit, if_pos hv]
      exact le_contaBit (n + 1) w r
    · have hw : w ≠ 0 := by
        rintro rfl
        exact hv (BitVec.eq_of_toNat_eq (Nat.le_zero.mp h))
      rw [contaBit, if_neg hv, contaBit, if_neg hw]
      refine ih ?_ (r + 1)
      rw [BitVec.toNat_ushiftRight, BitVec.toNat_ushiftRight, Nat.shiftRight_eq_div_pow,
        Nat.shiftRight_eq_div_pow]
      exact Nat.div_le_div_right h

theorem size2bucket_mono (h : v.toNat ≤ w.toNat) : size2bucket v ≤ size2bucket w := by
  refine contaBit_mono ?_ 32 0
  rw [BitVec.toNat_ushiftRight, BitVec.toNat_ushiftRight, Nat.shiftRight_eq_div_pow,
    Nat.shiftRight_eq_div_pow]
  exact Nat.div_le_div_right h

/-! ## Looking for a free block -/

/-- The size found in the header of a free block. -/
theorem Sano.size_libero (h : Sano V m₀ s q) (hb : q.libero b) :
    (s.size b.ptr).toNat = b.dim := by
  obtain ⟨hin, hu, _⟩ := h.piano.liberi b hb
  have hd := h.piano.dove hin
  rw [(h.piano.altri b hin hu).size, BitVec.toNat_ofNat]
  omega

/-- The walk over the larger lists when no free block is large enough. -/
theorem Sano.secchi_scarsi (h : Sano V m₀ s q) (hno : ∀ b, q.libero b → b.dim < size.toNat)
    (n i : Nat) : s.secchi size n i = s.chiedeMemoria size := by
  induction n generalizing i with
  | zero => rfl
  | succ n ih =>
    rcases h.cerca i fun rv => size ≤ s.size rv with ⟨b, l, r, hb, _, hva, _⟩ | ⟨_, prev, hw⟩
    · have hle : size.toNat ≤ (s.size b.ptr).toNat := of_decide_eq_true hva
      rw [h.size_libero hb] at hle
      have hlt := hno b hb
      omega
    · rw [← ih (i + 1)]
      simp only [Heap.secchi, hw, bind, Except.bind]

/-- The walk over the larger lists comes to the list of a block that is large enough. -/
theorem Sano.secchi_trova (h : Sano V m₀ s q) (hb : b.ptr ∈ q.lista b.secchio)
    (hl : q.libero b) (hle : size.toNat ≤ b.dim) (n i : Nat) (hi : i ≤ b.secchio)
    (hn : b.secchio < i + n) : ∃ x, s.secchi size n i = .ok x := by
  induction n generalizing i with
  | zero => omega
  | succ n ih =>
    rcases h.cerca i fun rv => size ≤ s.size rv with ⟨c, l, r, _, _, _, hw⟩ | ⟨hnone, prev, hw⟩
    · simp only [Heap.secchi, hw, bind, Except.bind, pure, Except.pure]
      exact ⟨_, rfl⟩
    · have hne : i ≠ b.secchio := by
        rintro rfl
        have hva := of_decide_eq_false (hnone b.ptr hb)
        apply hva
        show size.toNat ≤ (s.size b.ptr).toNat
        rwa [h.size_libero hl]
      have hnext : s.secchi size (n + 1) i = s.secchi size n (i + 1) := by
        simp only [Heap.secchi, hw, bind, Except.bind]
      rw [hnext]
      exact ih (i + 1) (by omega) (by omega)

/-- When no free block is large enough `sbrk` is asked. -/
theorem Sano.kiMalloc_scarso (h : Sano V m₀ s q)
    (hno : ∀ b, q.libero b → b.dim < (arrotonda size).toNat) :
    s.kiMalloc size = s.chiedeMemoria (arrotonda size) := by
  have hslop : ¬ (s.slop ≠ 0 ∧ arrotonda size ≤ s.size s.slop) := by
    rintro ⟨hne, hle⟩
    obtain ⟨b, hb, hsb, _⟩ := h.elenchi.avanzo hne
    have hle' : (arrotonda size).toNat ≤ (s.size s.slop).toNat := hle
    rw [hsb, h.size_libero hb] at hle'
    have hlt := hno b hb
    omega
  unfold Heap.kiMalloc
  simp only [if_neg hslop]
  rcases h.cerca (size2bucket (arrotonda size)) fun rv => arrotonda size ≤ s.size rv ∧
      s.size rv < arrotonda size + (arrotonda size).sdiv 4
    with ⟨b, l, r, hb, _, hva, _⟩ | ⟨_, prev, hw⟩
  · have hle : (arrotonda size).toNat ≤ (s.size b.ptr).toNat := (of_decide_eq_true hva).1
    rw [h.size_libero hb] at hle
    have hlt := hno b hb
    omega
  · simp only [hw, bind, Except.bind]
    exact h.secchi_scarsi hno _ _

/-- A free block that is large enough is found. -/
theorem Sano.kiMalloc_trova (h : Sano V m₀ s q) (hb : q.libero b)
    (hle : (arrotonda size).toNat ≤ b.dim) : ∃ x, s.kiMalloc size = .ok x := by
  obtain ⟨hin, hu, _⟩ := h.piano.liberi b hb
  have hd := h.piano.dove hin
  unfold Heap.kiMalloc
  by_cases hslop : s.slop ≠ 0 ∧ arrotonda size ≤ s.size s.slop
  · simp only [if_pos hslop]
    exact ⟨_, rfl⟩
  · simp only [if_neg hslop]
    have hlist : b.ptr ∈ q.lista b.secchio := by
      refine (h.elenchi.posti b hb).resolve_left fun hs => hslop ⟨?_, ?_⟩
      · rw [hs]
        exact h.piano.ptr_ne_zero hin
      · rw [hs]
        show (arrotonda size).toNat ≤ (s.size b.ptr).toNat
        rwa [h.size_libero hb]
    rcases h.cerca (size2bucket (arrotonda size)) fun rv => arrotonda size ≤ s.size rv ∧
        s.size rv < arrotonda size + (arrotonda size).sdiv 4
      with ⟨c, l, r, _, _, _, hw⟩ | ⟨_, prev, hw⟩
    · simp only [hw, bind, Except.bind, pure, Except.pure]
      exact ⟨_, rfl⟩
    · simp only [hw, bind, Except.bind]
      have hlt : b.secchio < 30 := secchio_lt (by omega)
      have hmono : size2bucket (arrotonda size) ≤ b.secchio := by
        refine size2bucket_mono ?_
        rw [BitVec.toNat_ofNat]
        omega
      exact h.secchi_trova hlist hb hle _ _ hmono (by omega)

/-! ## `sbrk` -/

/-- The request to `sbrk` is for sixteen bytes more, which no size makes wrap. -/
theorem chiedeMemoria_iff (ha : s.allocated.toNat ≤ 512000) (size : Word) :
    s.chiedeMemoria (arrotonda size) = .error .memoria ↔
      512000 < s.allocated.toNat + (arrotonda size).toNat + 16 := by
  have hround := arrotonda_le size
  have hchunk : (arrotonda size + 16).toNat = (arrotonda size).toNat + 16 := by
    have h16 : (16 : Word).toNat = 16 := rfl
    rw [BitVec.toNat_add, h16]
    exact Nat.mod_eq_of_lt (by omega)
  have hlt : s.allocated.toNat + (arrotonda size + 16).toNat < 2 ^ 32 := by omega
  have hsbrk := sbrk_misurato hlt
  unfold Heap.chiedeMemoria
  by_cases hfull : 512000 < s.allocated.toNat + (arrotonda size + 16).toNat
  · rw [if_pos hfull] at hsbrk
    simp only [hsbrk, bind, Except.bind, true_iff]
    omega
  · rw [if_neg hfull] at hsbrk
    simp only [hsbrk, bind, Except.bind]
    constructor
    · intro h
      split at h <;> cases h
    · intro h
      omega

theorem Sano.kiMalloc_memoria_iff (h : Sano V m₀ s q) (size : Word) :
    s.kiMalloc size = .error .memoria ↔
      (∀ b, q.libero b → b.dim < (arrotonda size).toNat) ∧
        512000 < s.allocated.toNat + (arrotonda size).toNat + 16 := by
  have hlim := h.piano.limite
  have hall : s.allocated.toNat ≤ 512000 := by
    rw [h.resi, BitVec.toNat_ofNat]
    omega
  constructor
  · intro hfail
    have hno : ∀ b, q.libero b → b.dim < (arrotonda size).toNat := by
      intro b hb
      by_contra hle
      obtain ⟨x, hx⟩ := h.kiMalloc_trova hb (Nat.le_of_not_lt hle)
      rw [hx] at hfail
      cases hfail
    rw [h.kiMalloc_scarso hno] at hfail
    exact ⟨hno, (chiedeMemoria_iff hall size).mp hfail⟩
  · rintro ⟨hno, hfull⟩
    rw [h.kiMalloc_scarso hno]
    exact (chiedeMemoria_iff hall size).mpr hfull

/-- Before the first request there is only `sbrk` to ask. -/
theorem kiMalloc_iniziale_eq (m : Mem) (size : Word) :
    (iniziale m).kiMalloc size = (iniziale m).chiedeMemoria (arrotonda size) := by
  have hcerca : ∀ i va, (iniziale m).cerca i va = .ok (none, none) := fun i va => rfl
  have hsecchi : ∀ size j i, (iniziale m).secchi size j i = (iniziale m).chiedeMemoria size := by
    intro size j
    induction j with
    | zero => exact fun i => rfl
    | succ j ih =>
      intro i
      rw [← ih (i + 1)]
      simp only [Heap.secchi, hcerca, bind, Except.bind]
  have hslop : ¬ ((iniziale m).slop ≠ 0 ∧
      arrotonda size ≤ (iniziale m).size (iniziale m).slop) := fun hs => hs.1 rfl
  simp only [Heap.kiMalloc, if_neg hslop, hcerca, hsecchi, bind, Except.bind]

/-! ## Runs -/

variable {r : Registro} {x : Heap × Registro} {bs : List Blocco} {L : Nat → List Word}

/-- The free blocks are those whose pointer is not out. -/
theorem Registrati.libero_iff (hr : Registrati q r) (h : Piano V m₀ m q) (hq : q.Pieno)
    (hb : b ∈ q.blocchi) : q.libero b ↔ b.dati ∉ r.map Prod.fst := by
  rw [← hr.usato_iff h hb]
  constructor
  · exact fun hl => (h.liberi b hl).2.1
  · exact (hq b hb).resolve_left

/-- The blocks of a heap in good order and the amount handed out by `sbrk`. -/
theorem Ordinato.arena (h : Ordinato x) : ∃ bs L, InOrdine x.1 x.2 bs L ∧
    (bs = [] ∧ x.1.allocated.toNat = 0 ∨ ∃ y, Tiles Blocco.inizio Blocco.fine 10000004 bs y ∧
      x.1.allocated.toNat + 10000000 = y + 4) ∧
    ∀ size, (x.1.kiMalloc size = .error .memoria ↔
      (∀ b ∈ bs, b.dati ∉ x.2.map Prod.fst → b.dim < (arrotonda size).toNat) ∧
        512000 < x.1.allocated.toNat + (arrotonda size).toNat + 16) := by
  rcases h with ⟨m, rfl⟩ | ⟨q, hs, hq, hr⟩
  · obtain ⟨bs, L, hord⟩ := Ordinato.inOrdine (x := (iniziale m, [])) (Or.inl ⟨m, rfl⟩)
    have hbs : bs = [] := by
      rcases hord.tessere with ⟨hnil, _⟩ | ⟨y, ht, hy, hbase⟩
      · exact hnil
      · have hle := ht.le
        have hnum := congrArg BitVec.toNat hbase
        rw [BitVec.toNat_ofNat, show (iniziale m).baseAddress.toNat = 10000000 from rfl] at hnum
        omega
    refine ⟨bs, L, hord, Or.inl ⟨hbs, rfl⟩, fun size => ?_⟩
    rw [kiMalloc_iniziale_eq, chiedeMemoria_iff (s := iniziale m) (Nat.zero_le _), hbs]
    constructor
    · exact fun hfull => ⟨fun b hb => absurd hb List.not_mem_nil, hfull⟩
    · exact fun hfull => hfull.2
  · have hlim := hs.piano.limite
    have hle := hs.piano.tessere.le
    refine ⟨q.blocchi, q.lista, hs.inOrdine hq hr, Or.inr ⟨q.fine, hs.piano.tessere, ?_⟩,
      fun size => ?_⟩
    · rw [hs.resi, BitVec.toNat_ofNat]
      omega
    · rw [hs.kiMalloc_memoria_iff]
      refine and_congr_left' (forall_congr' fun b => ?_)
      constructor
      · exact fun hno hb hout => hno ((hr.libero_iff hs.piano hq hb).mpr hout)
      · intro hno hl
        have hin := (hs.piano.liberi b hl).1
        exact hno hin ((hr.libero_iff hs.piano hq hin).mp hl)

/-- Without blocks in use there is one free block at most. -/
theorem InOrdine.riposo (h : InOrdine s [] bs L)
    (ht : ∃ y, Tiles Blocco.inizio Blocco.fine 10000004 bs y) : bs = [] ∨ ∃ b, bs = [b] := by
  obtain ⟨y, ht⟩ := ht
  cases bs with
  | nil => exact Or.inl rfl
  | cons b bs =>
    cases bs with
    | nil => exact Or.inr ⟨b, rfl⟩
    | cons c bs =>
      obtain ⟨_, _, ht⟩ := Tiles.cons_iff.mp ht
      obtain ⟨hbc, _, _⟩ := Tiles.cons_iff.mp ht
      refine absurd hbc (h.separati b ?_ c ?_ List.not_mem_nil List.not_mem_nil) <;> simp

end Heap

end Pitos
