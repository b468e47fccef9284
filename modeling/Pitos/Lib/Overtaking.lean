import Pitos.Lib.PriorityInsert

/-!
# Overtaking in a priority queue

`l.idxOf q` is the number of elements in front of `q`. An element whose key is not smaller does
not get in front of `q` when it is inserted (`idxOf_insertByKey`), nor when the queue is filled
again in its own order under other keys (`idxOf_sortByKey_le`).
-/

namespace Lib

variable {α κ : Type*} [LinearOrder κ] [DecidableEq α] {key : α → κ} {l acc : List α} {p q : α}

/-- The first element goes. -/
theorem idxOf_tail (hl : (p :: l).Nodup) (hq : q ∈ l) : l.idxOf q + 1 = (p :: l).idxOf q := by
  have hne : p ≠ q := by
    intro e
    exact (List.nodup_cons.mp hl).1 (e ▸ hq)
  exact (List.idxOf_cons_ne _ hne).symm

theorem idxOf_insertByKey (hl : Sorted key l) (hq : q ∈ l) (hqp : key q ≤ key p) :
    (insertByKey key p l).idxOf q = l.idxOf q := by
  induction l with
  | nil => cases hq
  | cons r l ih =>
    obtain ⟨hr, hl'⟩ := List.pairwise_cons.mp hl
    have hrp : ¬ key p < key r := by
      intro hlt
      rcases List.mem_cons.mp hq with rfl | hq
      · exact absurd hlt (not_lt.mpr hqp)
      · exact absurd (hlt.trans_le (hr q hq)) (not_lt.mpr hqp)
    rw [insertByKey_cons, if_neg hrp]
    by_cases hrq : r = q
    · rw [hrq, List.idxOf_cons_self, List.idxOf_cons_self]
    · have hq' : q ∈ l := (List.mem_cons.mp hq).resolve_left fun e => hrq e.symm
      rw [List.idxOf_cons_ne _ hrq, List.idxOf_cons_ne _ hrq, ih hl' hq']

theorem idxOf_insertByKey_of_lt (hq : q ∈ l) (hne : p ≠ q) (hpq : key p < key q) :
    (insertByKey key p l).idxOf q = l.idxOf q + 1 := by
  induction l with
  | nil => cases hq
  | cons r l ih =>
    rw [insertByKey_cons]
    by_cases hpr : key p < key r
    · rw [if_pos hpr, List.idxOf_cons_ne _ hne]
    · have hrq : r ≠ q := by
        intro e
        exact hpr (e ▸ hpq)
      have hq' : q ∈ l := (List.mem_cons.mp hq).resolve_left fun e => hrq e.symm
      rw [if_neg hpr, List.idxOf_cons_ne _ hrq, List.idxOf_cons_ne _ hrq, ih hq']

/-- Only an element with a smaller key gets in front of another. -/
theorem idxOf_insertByKey_eq (hl : Sorted key l) (hq : q ∈ l) (hne : p ≠ q) :
    (insertByKey key p l).idxOf q = l.idxOf q + if key p < key q then 1 else 0 := by
  by_cases hpq : key p < key q
  · rw [if_pos hpq, idxOf_insertByKey_of_lt hq hne hpq]
  · rw [if_neg hpq, idxOf_insertByKey hl hq (not_lt.mp hpq), Nat.add_zero]

theorem idxOf_fillByKey (hacc : Sorted key acc) (hq : q ∈ acc) (h : ∀ p ∈ l, key q ≤ key p) :
    (fillByKey key acc l).idxOf q = acc.idxOf q := by
  induction l generalizing acc with
  | nil => rfl
  | cons p l ih =>
    have hqp := h p List.mem_cons_self
    rw [fillByKey_cons, ih hacc.insertByKey (mem_insertByKey.mpr (Or.inr hq)) fun r hr =>
      h r (List.mem_cons_of_mem p hr), idxOf_insertByKey hacc hq hqp]

/-- In a queue that is filled again nobody gets in front of an element with the smallest key. -/
theorem idxOf_sortByKey_le (hq : q ∈ l) (h : ∀ p ∈ l, key q ≤ key p) :
    (sortByKey key l).idxOf q ≤ l.idxOf q := by
  obtain ⟨a, b, rfl, ha⟩ := List.eq_append_cons_of_mem hq
  have hsort : sortByKey key (a ++ q :: b) =
      fillByKey key (insertByKey key q (sortByKey key a)) b := by
    unfold sortByKey
    rw [List.foldl_append]
    rfl
  have hmem : q ∈ insertByKey key q (sortByKey key a) := mem_insertByKey.mpr (Or.inl rfl)
  have hb : ∀ p ∈ b, key q ≤ key p := fun p hp =>
    h p (List.mem_append_right a (List.mem_cons_of_mem q hp))
  have hlength : (sortByKey key a).length = a.length := (sortByKey_perm key a).length_eq
  have hidx : (a ++ q :: b).idxOf q = a.length := by
    rw [List.idxOf_append_of_notMem ha, List.idxOf_cons_self, Nat.add_zero]
  have hlt := List.idxOf_lt_length_of_mem hmem
  rw [length_insertByKey, hlength] at hlt
  rw [hsort, idxOf_fillByKey (sortByKey_sorted key a).insertByKey hmem hb, hidx]
  exact Nat.lt_succ_iff.mp hlt

end Lib
