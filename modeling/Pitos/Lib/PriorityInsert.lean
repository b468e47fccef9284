import Mathlib.Data.List.Sort
import Pitos.Lib.Linked

/-!
# Stable insertion by priority

`insertByKey key p l` puts `p` before the first element of `l` whose key is strictly larger
and so behind every element of equal key. On a list in key order the result is again in key
order (`Sorted.insertByKey`) and, class by class, `p` is the last of its equals
(`filter_insertByKey`): a queue that is filled this way serves the smallest key first and is
first-in first-out among equals. `sortByKey` fills an empty queue with the elements of a list
in turn; it is a stable sort (`sortByKey_sorted`, `filter_sortByKey`).
-/

namespace Lib

variable {α κ : Type*} [LinearOrder κ]

/-- The list is in the order of its keys. -/
def Sorted (key : α → κ) (l : List α) : Prop := l.Pairwise fun a b => key a ≤ key b

/-- Put `p` before the first element with a larger key. -/
def insertByKey (key : α → κ) (p : α) (l : List α) : List α :=
  l.orderedInsert (fun a b => key a < key b) p

/-- Fill an empty queue with the elements of the list, in their order. -/
def sortByKey (key : α → κ) (l : List α) : List α :=
  l.foldl (fun acc p => insertByKey key p acc) []

variable {key key' : α → κ} {l : List α} {p q : α} {k : κ}

@[simp] theorem insertByKey_nil : insertByKey key p [] = [p] := rfl

theorem insertByKey_cons (r : α) : insertByKey key p (r :: l) =
    if key p < key r then p :: r :: l else r :: insertByKey key p l := rfl

theorem insertByKey_perm (key : α → κ) (p : α) (l : List α) :
    (insertByKey key p l).Perm (p :: l) := List.perm_orderedInsert _ p l

@[simp] theorem mem_insertByKey : q ∈ insertByKey key p l ↔ q = p ∨ q ∈ l :=
  List.mem_orderedInsert _

@[simp] theorem count_insertByKey [DecidableEq α] :
    (insertByKey key p l).count q = l.count q + if p = q then 1 else 0 := by
  rw [(insertByKey_perm key p l).count_eq, List.count_cons]
  simp

@[simp] theorem length_insertByKey : (insertByKey key p l).length = l.length + 1 :=
  (insertByKey_perm key p l).length_eq

theorem insertByKey_ne_nil : insertByKey key p l ≠ [] := fun h => by
  have := congrArg List.length h
  simp at this

/-- An element before all others. -/
theorem insertByKey_of_lt (h : ∀ q ∈ l, key p < key q) : insertByKey key p l = p :: l := by
  cases l with
  | nil => rfl
  | cons r l => rw [insertByKey_cons, if_pos (h r List.mem_cons_self)]

/-- The keys of the elements concerned are all that matters. -/
theorem insertByKey_congr (h : ∀ x ∈ p :: l, key x = key' x) :
    insertByKey key p l = insertByKey key' p l := by
  induction l with
  | nil => rfl
  | cons r l ih =>
    have hp := h p List.mem_cons_self
    have hr := h r (by simp)
    have hl := ih fun x hx => h x (by
      rcases List.mem_cons.mp hx with rfl | hx
      · simp
      · simp [hx])
    rw [insertByKey_cons, insertByKey_cons, hp, hr, hl]

theorem Sorted.congr (hl : Sorted key l) (h : ∀ x ∈ l, key' x = key x) : Sorted key' l :=
  List.Pairwise.imp_of_mem (fun ha hb hab => by rw [h _ ha, h _ hb]; exact hab) hl

/-- Insertion keeps a list in key order. -/
theorem Sorted.insertByKey (hl : Sorted key l) : Sorted key (insertByKey key p l) := by
  induction l with
  | nil => exact List.pairwise_singleton _ _
  | cons r l ih =>
    obtain ⟨hr, hl⟩ := List.pairwise_cons.mp hl
    rw [insertByKey_cons]
    split
    · rename_i hpr
      refine List.pairwise_cons.mpr ⟨fun x hx => ?_, List.pairwise_cons.mpr ⟨hr, hl⟩⟩
      rcases List.mem_cons.mp hx with rfl | hx
      · exact hpr.le
      · exact hpr.le.trans (hr x hx)
    · rename_i hpr
      refine List.pairwise_cons.mpr ⟨fun x hx => ?_, ih hl⟩
      rcases mem_insertByKey.mp hx with rfl | hx
      · exact not_lt.mp hpr
      · exact hr x hx

/-- In key order an inserted element comes behind all its equals, and the other classes are
as before. -/
theorem filter_insertByKey (hl : Sorted key l) (k : κ) :
    (insertByKey key p l).filter (fun x => key x = k) =
      l.filter (fun x => key x = k) ++ if key p = k then [p] else [] := by
  induction l with
  | nil => by_cases h : key p = k <;> simp [h]
  | cons r l ih =>
    obtain ⟨hr, hl⟩ := List.pairwise_cons.mp hl
    rw [insertByKey_cons]
    split
    · rename_i hpr
      by_cases h : key p = k
      · have hnone : (r :: l).filter (fun x => key x = k) = [] := by
          apply List.filter_eq_nil_iff.mpr
          intro x hx
          have : key p < key x := by
            rcases List.mem_cons.mp hx with rfl | hx
            · exact hpr
            · exact hpr.trans_le (hr x hx)
          simp only [decide_eq_true_eq]
          exact fun e => absurd (h.trans e.symm) (ne_of_lt this)
        rw [List.filter_cons_of_pos (by simpa using h), hnone]
        simp [h]
      · rw [List.filter_cons_of_neg (by simpa using h)]
        simp [h]
    · rw [List.filter_cons, List.filter_cons, ih hl]
      by_cases h : key r = k <;> simp [h]

/-- In key order the new element parts those that are not behind it by key from the others. -/
theorem insertByKey_append (hl : Sorted key l) (p : α) : ∃ a b, l = a ++ b ∧
    insertByKey key p l = a ++ p :: b ∧ (∀ q ∈ a, key q ≤ key p) ∧ ∀ q ∈ b, key p < key q := by
  induction l with
  | nil => exact ⟨[], [], rfl, rfl, by simp, by simp⟩
  | cons r l ih =>
    obtain ⟨hr, hl'⟩ := List.pairwise_cons.mp hl
    rw [insertByKey_cons]
    split
    · rename_i hpr
      refine ⟨[], r :: l, rfl, rfl, by simp, ?_⟩
      intro q hq
      rcases List.mem_cons.mp hq with rfl | hq
      · exact hpr
      · exact hpr.trans_le (hr q hq)
    · rename_i hpr
      obtain ⟨a, b, hab, hins, ha, hb⟩ := ih hl'
      refine ⟨r :: a, b, by rw [hab]; rfl, by rw [hins]; rfl, ?_, hb⟩
      intro q hq
      rcases List.mem_cons.mp hq with rfl | hq
      · exact not_lt.mp hpr
      · exact ha q hq

/-- In key order, an element that is not behind `p` by key is not behind it in the queue:
after the insertion `p` is not the first. -/
theorem head_insertByKey (hl : Sorted key l) (hq : q ∈ l) (hqp : key q ≤ key p) :
    (insertByKey key p l).head? = l.head? := by
  cases l with
  | nil => simp at hq
  | cons r l =>
    have hrq : key r ≤ key q := by
      rcases List.mem_cons.mp hq with rfl | hq
      · exact le_rfl
      · exact (List.pairwise_cons.mp hl).1 q hq
    rw [insertByKey_cons, if_neg (not_lt.mpr (hrq.trans hqp))]
    rfl

/-- The elements that are not behind `p` by key stand in front of it after the insertion. -/
theorem insertByKey_split (hl : Sorted key l) (hp : p ∉ l) (hq : q ∈ l) (hqp : key q ≤ key p) :
    ∃ a b, insertByKey key p l = a ++ p :: b ∧ p ∉ a ∧ q ∈ a := by
  induction l with
  | nil => cases hq
  | cons r l ih =>
    obtain ⟨hr, hl'⟩ := List.pairwise_cons.mp hl
    have hrp : ¬ key p < key r := fun hlt => by
      rcases List.mem_cons.mp hq with rfl | hq
      · exact absurd hlt (not_lt.mpr hqp)
      · exact absurd (hlt.trans_le (hr q hq)) (not_lt.mpr hqp)
    have hpr : p ≠ r := fun e => hp (e ▸ List.mem_cons_self)
    rw [insertByKey_cons, if_neg hrp]
    by_cases hq' : q ∈ l
    · obtain ⟨a, b, hab, hpa, hqa⟩ := ih hl' (fun h => hp (List.mem_cons_of_mem _ h)) hq'
      refine ⟨r :: a, b, by rw [hab]; rfl, ?_, List.mem_cons_of_mem _ hqa⟩
      exact fun h => (List.mem_cons.mp h).elim hpr hpa
    · have hqr : q = r := (List.mem_cons.mp hq).resolve_right hq'
      obtain ⟨a, b, hab, hpa⟩ := List.eq_append_cons_of_mem
        (mem_insertByKey.mpr (Or.inl rfl) : p ∈ insertByKey key p l)
      exact ⟨r :: a, b, by rw [hab]; rfl, fun h => (List.mem_cons.mp h).elim hpr hpa,
        hqr ▸ List.mem_cons_self⟩

/-- No element has a smaller key than the first one. -/
theorem Sorted.head_le (hl : Sorted key l) (hp : l.head? = some p) (hq : q ∈ l) :
    key p ≤ key q := by
  cases l with
  | nil => simp at hq
  | cons r l =>
    simp only [List.head?_cons, Option.some.injEq] at hp
    subst hp
    rcases List.mem_cons.mp hq with rfl | hq
    · exact le_rfl
    · exact (List.pairwise_cons.mp hl).1 q hq

/-! ## Filling a queue -/

/-- Filling a queue that is not empty. -/
def fillByKey (key : α → κ) (acc l : List α) : List α :=
  l.foldl (fun acc p => insertByKey key p acc) acc

@[simp] theorem fillByKey_nil (acc : List α) : fillByKey key acc [] = acc := rfl

@[simp] theorem fillByKey_cons (acc : List α) :
    fillByKey key acc (p :: l) = fillByKey key (insertByKey key p acc) l := rfl

theorem sortByKey_eq_fill : sortByKey key l = fillByKey key [] l := rfl

theorem fillByKey_perm (key : α → κ) (acc l : List α) :
    (fillByKey key acc l).Perm (l ++ acc) := by
  induction l generalizing acc with
  | nil => exact List.Perm.refl _
  | cons p l ih =>
    calc (fillByKey key (insertByKey key p acc) l).Perm (l ++ insertByKey key p acc) := ih _
      _ |>.Perm (l ++ p :: acc) := (insertByKey_perm key p acc).append_left l
      _ |>.Perm (p :: (l ++ acc)) := List.perm_middle

theorem fillByKey_sorted {acc : List α} (h : Sorted key acc) : Sorted key (fillByKey key acc l) := by
  induction l generalizing acc with
  | nil => exact h
  | cons p l ih => exact ih h.insertByKey

theorem filter_fillByKey {acc : List α} (h : Sorted key acc) (k : κ) :
    (fillByKey key acc l).filter (fun x => key x = k) =
      acc.filter (fun x => key x = k) ++ l.filter (fun x => key x = k) := by
  induction l generalizing acc with
  | nil => simp
  | cons p l ih =>
    rw [fillByKey_cons, ih h.insertByKey, filter_insertByKey h, List.filter_cons]
    by_cases hp : key p = k <;> simp [hp]

theorem sortByKey_perm (key : α → κ) (l : List α) : (sortByKey key l).Perm l := by
  simpa [sortByKey_eq_fill] using fillByKey_perm key [] l

theorem sortByKey_sorted (key : α → κ) (l : List α) : Sorted key (sortByKey key l) :=
  fillByKey_sorted List.Pairwise.nil

/-- Among equals `sortByKey` keeps the order of the list. -/
theorem filter_sortByKey (k : κ) :
    (sortByKey key l).filter (fun x => key x = k) = l.filter (fun x => key x = k) := by
  simpa [sortByKey_eq_fill] using filter_fillByKey (List.Pairwise.nil : Sorted key []) k

/-- An element behind another whose key is not larger is not served first. -/
theorem head_sortByKey_ne {a b : List α} (hl : l = a ++ p :: b) (hp : p ∉ a) (hq : q ∈ a)
    (hqp : key q ≤ key p) : (sortByKey key l).head? ≠ some p := by
  intro hhead
  have hmem : q ∈ sortByKey key l := (sortByKey_perm key l).mem_iff.mpr (by simp [hl, hq])
  have hkey : key q = key p := le_antisymm hqp ((sortByKey_sorted key l).head_le hhead hmem)
  have hclass : ((sortByKey key l).filter (fun x => key x = key p)).head? = some p := by
    cases hs : sortByKey key l with
    | nil => simp [hs] at hhead
    | cons r t =>
      simp only [hs, List.head?_cons, Option.some.injEq] at hhead
      simp [hhead]
  rw [filter_sortByKey, hl, List.filter_append] at hclass
  cases ha : a.filter (fun x => key x = key p) with
  | nil =>
    have := List.filter_eq_nil_iff.mp ha q hq
    simp [hkey] at this
  | cons r t =>
    rw [ha] at hclass
    simp only [List.cons_append, List.head?_cons, Option.some.injEq] at hclass
    have hr : r ∈ a.filter (fun x => key x = key p) := by simp [ha]
    exact hp (hclass ▸ (List.mem_filter.mp hr).1)

/-! ## The search behind an insertion -/

/-- The search for the place of a node of key `k`: pass every node whose key is not larger. -/
def passes (key : α → κ) (k : κ) : Unit → α → Option Unit :=
  fun _ r => if k < key r then none else some ()

/-- The two-pointer search of `Lib.walk` finds the place where `insertByKey` puts the node. -/
theorem cut_passes (key : α → κ) (p : α) (l : List α) :
    (cut (passes key (key p)) () l).1 ++ p :: (cut (passes key (key p)) () l).2.2 =
      insertByKey key p l := by
  induction l with
  | nil => rfl
  | cons r l ih =>
    unfold cut
    rw [insertByKey_cons]
    by_cases h : key p < key r
    · simp [passes, h]
    · have hgo : passes key (key p) () r = some () := by simp [passes, h]
      simp only [hgo, if_neg h, List.cons_append, ih]

end Lib
