import Mathlib.Algebra.BigOperators.Group.List.Basic
import Mathlib.Algebra.Order.Monoid.Canonical.Defs
import Mathlib.Data.List.Chain
import Mathlib.Order.CompletePartialOrder
import Mathlib.Order.Interval.Set.Disjoint

/-!
# Regions granted one after the other

An arena that is never given back is a counter: a grant of `n` is the region from the counter on,
and moves the counter past it. `Consecutive x l y` says that the regions of `l`, in this order, lead
from `x` to `y`; `Bump` is a counter with what it has granted and a limit that it keeps.
-/

namespace Lib

structure Region (α : Type*) where
  start : α
  size : α
  deriving DecidableEq, Repr

namespace Region

variable {α : Type*} [AddCommMonoid α]

def stop (r : Region α) : α := r.start + r.size

def total (l : List (Region α)) : α := (l.map size).sum

theorem total_append (l : List (Region α)) (r : Region α) : total (l ++ [r]) = total l + r.size := by
  rw [total, List.map_append, List.sum_append]
  simp [total]

variable [PartialOrder α]

def carrier (r : Region α) : Set α := Set.Ico r.start r.stop

/-- A region that ends where another begins, or before. -/
theorem disjoint_of_stop_le {a b : Region α} (h : a.stop ≤ b.start) :
    Disjoint a.carrier b.carrier := by
  rw [Set.disjoint_left]
  intro x ha hb
  exact absurd (ha.2.trans_le (h.trans hb.1)) (lt_irrefl x)

end Region

open Region

inductive Consecutive {α : Type*} [AddCommMonoid α] (x : α) : List (Region α) → α → Prop
  | nil : Consecutive x [] x
  | snoc {l : List (Region α)} {r : Region α} :
      Consecutive x l r.start → Consecutive x (l ++ [r]) r.stop

namespace Consecutive

variable {α : Type*} [AddCommMonoid α] {x y : α} {l : List (Region α)}

/-- The counter is known from the sizes. -/
theorem eq_add_total (h : Consecutive x l y) : y = x + total l := by
  induction h with
  | nil => simp [total]
  | snoc _ ih => rw [total_append, ← add_assoc, ← ih, stop]

theorem getLast_stop (h : Consecutive x l y) : ∀ a ∈ l.getLast?, a.stop = y := by
  cases h with
  | nil =>
    intro a ha
    cases ha
  | snoc _ =>
    intro a ha
    rw [List.getLast?_concat] at ha
    rw [← Option.some.inj ha]

/-- Each region begins where the one before it ends. -/
theorem isChain (h : Consecutive x l y) : l.IsChain fun a b => b.start = a.stop := by
  induction h with
  | nil => exact List.IsChain.nil
  | snoc hl ih =>
    rw [List.isChain_append]
    refine ⟨ih, List.IsChain.singleton _, ?_⟩
    intro a ha b hb
    obtain rfl := Option.some.inj hb
    exact (hl.getLast_stop a ha).symm

variable [PartialOrder α] [CanonicallyOrderedAdd α]

/-- No region leaves what the counter has passed. -/
theorem within (h : Consecutive x l y) : ∀ a ∈ l, x ≤ a.start ∧ a.stop ≤ y := by
  induction h with
  | nil =>
    intro a ha
    cases ha
  | snoc hl ih =>
    rename_i l r
    intro a ha
    rcases List.mem_append.mp ha with ha | ha
    · obtain ⟨hstart, hstop⟩ := ih a ha
      exact ⟨hstart, hstop.trans le_self_add⟩
    · obtain rfl := List.mem_singleton.mp ha
      have hstart : x ≤ a.start := by
        rw [hl.eq_add_total]
        exact le_self_add
      exact ⟨hstart, le_refl _⟩

theorem pairwise_disjoint (h : Consecutive x l y) :
    l.Pairwise fun a b => Disjoint a.carrier b.carrier := by
  induction h with
  | nil => exact List.Pairwise.nil
  | snoc hl ih =>
    rw [List.pairwise_append]
    refine ⟨ih, List.pairwise_singleton _ _, ?_⟩
    intro a ha b hb
    obtain rfl := List.mem_singleton.mp hb
    exact disjoint_of_stop_le (hl.within a ha).2

end Consecutive

/-! ## A counter with a limit -/

structure Bump (α : Type*) [AddCommMonoid α] [PartialOrder α] where
  base : α
  limit : α
  next : α
  granted : List (Region α)
  consecutive : Consecutive base granted next
  next_le : next ≤ limit

namespace Bump

variable {α : Type*} [AddCommMonoid α] [PartialOrder α]

/-- Nothing is granted yet. -/
def new (base limit : α) (h : base ≤ limit) : Bump α where
  base := base
  limit := limit
  next := base
  granted := []
  consecutive := .nil
  next_le := h

variable [DecidableLE α]

/-- A request that does not fit changes nothing. -/
def grant (b : Bump α) (n : α) : Bump α :=
  if h : b.next + n ≤ b.limit then
    { b with
      next := b.next + n
      granted := b.granted ++ [⟨b.next, n⟩]
      consecutive := .snoc (r := ⟨b.next, n⟩) b.consecutive
      next_le := h }
  else b

variable {b : Bump α} {n : α}

theorem grant_fits (h : b.next + n ≤ b.limit) : (b.grant n).next = b.next + n ∧
    (b.grant n).granted = b.granted ++ [⟨b.next, n⟩] := by
  rw [grant, dif_pos h]
  exact ⟨rfl, rfl⟩

theorem grant_refused (h : ¬ b.next + n ≤ b.limit) : b.grant n = b := dif_neg h

@[simp] theorem grant_base : (b.grant n).base = b.base := by
  unfold grant
  split <;> rfl

@[simp] theorem grant_limit : (b.grant n).limit = b.limit := by
  unfold grant
  split <;> rfl

def grantAll (b : Bump α) (ns : List α) : Bump α := ns.foldl grant b

theorem grantAll_append (b : Bump α) (ns : List α) (n : α) :
    b.grantAll (ns ++ [n]) = (b.grantAll ns).grant n := by
  rw [grantAll, List.foldl_append]
  rfl

end Bump

end Lib
