import Mathlib.Algebra.Order.Group.Nat
import Pitos.Kernel.Heap
import Pitos.Lib.Regions

/-!
# The arena behind the heap

`sbrk` moves two words, the next address and what is allocated of the arena. Its test adds two
unsigned words: as long as the sum does not wrap, it is the test of a counter that grants regions
up to its limit, and `sbrk` is that counter (`Concessioni.Conta`). A sum that wraps passes the test.
-/

namespace Pitos

open Lib

namespace Heap

variable {s : Heap} {size : Word}

/-- The heap after a request that was granted. -/
def cresciuto (s : Heap) (size : Word) : Heap :=
  { s with baseAddress := s.baseAddress + size, allocated := s.allocated + size }

theorem sbrk_eq (s : Heap) (size : Word) : s.sbrk size =
    if 512000 < (s.allocated + size).toNat then .error .memoria
    else .ok (s.baseAddress, s.cresciuto size) := rfl

/-- The test on numbers. -/
theorem sbrk_misurato (h : s.allocated.toNat + size.toNat < 2 ^ 32) : s.sbrk size =
    if 512000 < s.allocated.toNat + size.toNat then .error .memoria
    else .ok (s.baseAddress, s.cresciuto size) := by
  rw [sbrk_eq, BitVec.toNat_add_of_lt h]

/-- A sum that wraps is small again. -/
theorem sbrk_trabocca (hs : s.allocated.toNat ≤ 512000)
    (h : 2 ^ 32 ≤ s.allocated.toNat + size.toNat) :
    s.sbrk size = .ok (s.baseAddress, s.cresciuto size) := by
  have hsize := size.isLt
  rw [sbrk_eq, BitVec.toNat_add, if_neg]
  omega

/-- `ki_malloc` compares an `int`: what it takes for small is rounded up to 8 bytes, the rest is
less than half of the words. -/
theorem arrotonda_le (size : Word) : (arrotonda size).toNat ≤ 2 ^ 31 + 6 := by
  have hmask : ∀ v : Word, v.toNat < 2 ^ 31 →
      ((v + (ALIGN - 1)) &&& ~~~(ALIGN - 1)).toNat ≤ 2 ^ 31 + 6 := by
    intro v hv
    have hsum : (v + (ALIGN - 1)).toNat ≤ 2 ^ 31 + 6 := by
      have hseven : (ALIGN - 1).toNat = 7 := rfl
      rw [BitVec.toNat_add, hseven]
      omega
    rw [BitVec.toNat_and]
    exact Nat.and_le_left.trans hsum
  unfold arrotonda
  by_cases hsmall : size.slt ALIGN
  · rw [if_pos hsmall]
    exact hmask ALIGN (by decide)
  · rw [if_neg hsmall]
    apply hmask size
    have halign : ALIGN.toInt = 8 := rfl
    rw [BitVec.slt, halign, decide_eq_true_eq, BitVec.toInt_eq_toNat_cond] at hsmall
    split at hsmall <;> omega

end Heap

/-- A heap with the regions that `sbrk` has granted, in the order of the calls. -/
structure Concessioni where
  heap : Heap
  regioni : List (Region Nat)

namespace Concessioni

/-- A call that does not return grants nothing. -/
def sbrk (x : Concessioni) (size : Word) : Concessioni :=
  match x.heap.sbrk size with
  | .error _ => x
  | .ok (r, s) => { heap := s, regioni := x.regioni ++ [⟨r.toNat, size.toNat⟩] }

def corsa (m : Mem) (sizes : List Word) : Concessioni := sizes.foldl sbrk ⟨Heap.iniziale m, []⟩

variable {m : Mem} {x : Concessioni} {size : Word} {pre sizes : List Word}

theorem corsa_append (m : Mem) (pre : List Word) (size : Word) :
    corsa m (pre ++ [size]) = (corsa m pre).sbrk size := by
  rw [corsa, List.foldl_append]
  rfl

theorem sbrk_concessa {r : Word} {s : Heap} (h : x.heap.sbrk size = .ok (r, s)) :
    x.sbrk size = ⟨s, x.regioni ++ [⟨r.toNat, size.toNat⟩]⟩ := by
  rw [sbrk, h]

theorem sbrk_negata {e : Arresto} (h : x.heap.sbrk size = .error e) : x.sbrk size = x := by
  rw [sbrk, h]

/-- A call grants nothing, or the words have passed the test. -/
theorem sbrk_cases (x : Concessioni) (size : Word) : x.sbrk size = x ∨
    ((x.heap.allocated + size).toNat ≤ 512000 ∧
      x.sbrk size = ⟨x.heap.cresciuto size,
        x.regioni ++ [⟨x.heap.baseAddress.toNat, size.toNat⟩]⟩) := by
  have hsbrk := Heap.sbrk_eq x.heap size
  by_cases hfull : 512000 < (x.heap.allocated + size).toNat
  · rw [if_pos hfull] at hsbrk
    exact Or.inl (sbrk_negata hsbrk)
  · rw [if_neg hfull] at hsbrk
    exact Or.inr ⟨Nat.not_lt.mp hfull, sbrk_concessa hsbrk⟩

/-- What the test keeps, wrapping or not. -/
theorem allocated_le (m : Mem) (sizes : List Word) :
    (corsa m sizes).heap.allocated.toNat ≤ 512000 := by
  induction sizes using List.reverseRecOn with
  | nil => exact Nat.zero_le _
  | append_singleton pre size ih =>
    rw [corsa_append]
    rcases sbrk_cases (corsa m pre) size with hsame | ⟨hle, hgrant⟩
    · rw [hsame]
      exact ih
    · rw [hgrant]
      exact hle

/-- The granted bytes are never fewer than `allocated` says. -/
theorem allocated_le_total (m : Mem) (sizes : List Word) :
    (corsa m sizes).heap.allocated.toNat ≤ Region.total (corsa m sizes).regioni := by
  induction sizes using List.reverseRecOn with
  | nil => exact Nat.zero_le _
  | append_singleton pre size ih =>
    rw [corsa_append]
    rcases sbrk_cases (corsa m pre) size with hsame | ⟨-, hgrant⟩
    · rw [hsame]
      exact ih
    · rw [hgrant, Region.total_append]
      have hsum : ((corsa m pre).heap.allocated + size).toNat ≤
          (corsa m pre).heap.allocated.toNat + size.toNat := by
        rw [BitVec.toNat_add]
        exact Nat.mod_le _ _
      exact hsum.trans (Nat.add_le_add_right ih size.toNat)

/-- A sum that wraps is paid for by regions of at least as many bytes. -/
theorem le_total_trabocca (m : Mem)
    (h : 2 ^ 32 ≤ (corsa m pre).heap.allocated.toNat + size.toNat) :
    2 ^ 32 ≤ Region.total (corsa m (pre ++ [size])).regioni := by
  have htotal := allocated_le_total m pre
  rw [corsa_append, sbrk_concessa (Heap.sbrk_trabocca (allocated_le m pre) h), Region.total_append]
  exact h.trans (Nat.add_le_add_right htotal size.toNat)

theorem total_mono (m : Mem) (h : pre <+: sizes) :
    Region.total (corsa m pre).regioni ≤ Region.total (corsa m sizes).regioni := by
  obtain ⟨rest, rfl⟩ := h
  induction rest using List.reverseRecOn with
  | nil => rw [List.append_nil]
  | append_singleton rest size ih =>
    rw [← List.append_assoc, corsa_append]
    refine ih.trans ?_
    rcases sbrk_cases (corsa m (pre ++ rest)) size with hsame | ⟨-, hgrant⟩
    · rw [hsame]
    · rw [hgrant, Region.total_append]
      exact Nat.le_add_right _ _

/-! ## The counter -/

/-- The two words are where the counter stands. -/
structure Conta (x : Concessioni) (b : Bump Nat) : Prop where
  inizio : b.base = 10000000
  limite : b.limit = 10512000
  indirizzo : x.heap.baseAddress.toNat = b.next
  allocata : 10000000 + x.heap.allocated.toNat = b.next
  concesse : x.regioni = b.granted

/-- The arena of a loaded image. -/
def arena : Bump Nat := Bump.new 10000000 10512000 (by decide)

theorem conta_iniziale (m : Mem) : Conta ⟨Heap.iniziale m, []⟩ arena where
  inizio := rfl
  limite := rfl
  indirizzo := rfl
  allocata := rfl
  concesse := rfl

/-- A request whose sum does not wrap is a request to the counter. -/
theorem Conta.sbrk {b : Bump Nat} (h : Conta x b)
    (hsize : x.heap.allocated.toNat + size.toNat < 2 ^ 32) :
    Conta (x.sbrk size) (b.grant size.toNat) := by
  obtain ⟨hbase, hlimit, hnext, halloc, hregions⟩ := h
  have hsbrk := Heap.sbrk_misurato hsize
  by_cases hfull : 512000 < x.heap.allocated.toNat + size.toNat
  · rw [if_pos hfull] at hsbrk
    rw [sbrk_negata hsbrk, Bump.grant_refused (by omega)]
    exact ⟨hbase, hlimit, hnext, halloc, hregions⟩
  · rw [if_neg hfull] at hsbrk
    obtain ⟨hb, hg⟩ := Bump.grant_fits (b := b) (n := size.toNat) (by omega)
    rw [sbrk_concessa hsbrk]
    refine ⟨?_, ?_, ?_, ?_, ?_⟩
    · rw [Bump.grant_base, hbase]
    · rw [Bump.grant_limit, hlimit]
    · rw [hb, Heap.cresciuto, BitVec.toNat_add_of_lt (by omega), hnext]
    · rw [hb, Heap.cresciuto, BitVec.toNat_add_of_lt hsize]
      omega
    · rw [hg, hregions, hnext]

/-- No sum wraps in the sequence. -/
def Misurata (m : Mem) (sizes : List Word) : Prop :=
  ∀ pre size, pre ++ [size] <+: sizes →
    (corsa m pre).heap.allocated.toNat + size.toNat < 2 ^ 32

theorem Misurata.mono (h : Misurata m sizes) (hpre : pre <+: sizes) : Misurata m pre := by
  intro pre' size hp
  exact h pre' size (hp.trans hpre)

theorem Misurata.conta (h : Misurata m sizes) :
    Conta (corsa m sizes) (arena.grantAll (sizes.map BitVec.toNat)) := by
  induction sizes using List.reverseRecOn with
  | nil => exact conta_iniziale m
  | append_singleton pre size ih =>
    have hpre := ih (h.mono (List.prefix_append _ _))
    rw [corsa_append, List.map_append]
    have hstep := hpre.sbrk (h pre size (List.prefix_refl _))
    rw [← Bump.grantAll_append] at hstep
    exact hstep

end Concessioni

end Pitos
