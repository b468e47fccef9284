import Mathlib.Data.List.MinMax
import Pitos.Lib.PriorityInsert

/-!
# Counting semaphores served by priority

What a counting semaphore is for, apart from how its queue is kept: `PrioSem` has a number of
permits, the processes that wait in the order of their arrival, and a record of what happened:
how many waits and signals were made, how many waits have been passed, and who is inside, that
is, has passed a wait and not yet made the signal that ends its stay. A signal serves the waiter
with the smallest key that has waited longest among its equals.

The number of passed waits never exceeds the initial value and the number of signals
(`Sound.passed_le`), and as long as only processes inside make signals, no more processes than
the initial value are inside (`Sound.inside_le`): with one permit, mutual exclusion.
-/

namespace Lib

structure PrioSem (α : Type*) where
  initial : Nat
  permits : Nat
  waiting : List α
  waits : Nat
  passed : Nat
  signals : Nat
  inside : List α
  /-- Every signal so far was made by a process inside. -/
  bracketed : Bool

namespace PrioSem

variable {α κ : Type*} [LinearOrder κ]

def new (v : Nat) : PrioSem α :=
  { initial := v, permits := v, waiting := [], waits := 0, passed := 0, signals := 0,
    inside := [], bracketed := true }

/-- A wait passes when there is a permit. -/
def wait (p : α) (m : PrioSem α) : PrioSem α :=
  let m := { m with waits := m.waits + 1 }
  if m.permits = 0 then { m with waiting := m.waiting ++ [p] }
  else { m with permits := m.permits - 1, passed := m.passed + 1, inside := p :: m.inside }

/-- The waiter that a signal serves. -/
def next (key : α → κ) (m : PrioSem α) : Option α := m.waiting.argmin key

/-- A signal lets the next waiter pass or, when nobody waits, leaves a permit. -/
def signal [DecidableEq α] (key : α → κ) (p : α) (m : PrioSem α) : PrioSem α :=
  let m := { m with
    signals := m.signals + 1
    bracketed := m.bracketed && decide (p ∈ m.inside)
    inside := m.inside.erase p }
  match m.next key with
  | none => { m with permits := m.permits + 1 }
  | some q => { m with
      waiting := m.waiting.erase q, passed := m.passed + 1, inside := q :: m.inside }

/-- The laws of the counters. -/
structure Sound (m : PrioSem α) : Prop where
  balance : m.passed + m.permits = m.initial + m.signals
  calls : m.passed + m.waiting.length = m.waits
  busy : m.permits ≠ 0 → m.waiting = []
  inside : m.bracketed = true → m.inside.length + m.signals = m.passed

variable {m : PrioSem α} {key : α → κ} {p q : α}

theorem sound_new (v : Nat) : Sound (new v : PrioSem α) :=
  ⟨by simp [new], rfl, fun _ => rfl, fun _ => rfl⟩

theorem Sound.wait (h : Sound m) (p : α) : Sound (m.wait p) := by
  have hb := h.balance
  have hc := h.calls
  unfold PrioSem.wait
  simp only
  split
  · rename_i h0
    refine ⟨hb, ?_, fun hne => absurd h0 hne, h.inside⟩
    simp only [List.length_append, List.length_singleton]
    omega
  · rename_i h0
    refine ⟨?_, ?_, fun _ => h.busy h0, ?_⟩
    · simp only
      omega
    · simp only
      omega
    · intro hbr
      have := h.inside hbr
      simp only [List.length_cons]
      omega

theorem Sound.signal [DecidableEq α] (h : Sound m) (key : α → κ) (p : α) :
    Sound (m.signal key p) := by
  have hb := h.balance
  have hc := h.calls
  have hin : (m.bracketed && decide (p ∈ m.inside)) = true →
      (m.inside.erase p).length + (m.signals + 1) = m.passed := by
    intro hbr
    simp only [Bool.and_eq_true, decide_eq_true_eq] at hbr
    have h1 := h.inside hbr.1
    have h2 := List.length_erase_of_mem hbr.2
    have h3 := List.length_pos_of_mem hbr.2
    omega
  unfold PrioSem.signal
  cases hn : m.next key with
  | none =>
    have hn' := hn
    simp only [PrioSem.next] at hn' ⊢
    rw [hn']
    refine ⟨?_, hc, fun _ => List.argmin_eq_none.mp hn', hin⟩
    simp only
    omega
  | some q =>
    have hn' := hn
    simp only [PrioSem.next] at hn' ⊢
    rw [hn']
    have hq : q ∈ m.waiting := List.argmin_mem hn'
    have h0 : m.permits = 0 := by
      by_contra hne
      rw [h.busy hne] at hq
      cases hq
    have hlen := List.length_erase_of_mem hq
    have hpos := List.length_pos_of_mem hq
    refine ⟨?_, ?_, fun hne => absurd h0 hne, ?_⟩
    · simp only
      omega
    · simp only
      omega
    · intro hbr
      have := hin hbr
      simp only [List.length_cons]
      omega

theorem Sound.passed_le (h : Sound m) : m.passed ≤ m.initial + m.signals := by
  have := h.balance
  omega

/-- No more processes than permits are inside. -/
theorem Sound.inside_le (h : Sound m) (hbr : m.bracketed = true) :
    m.inside.length ≤ m.initial := by
  have h1 := h.balance
  have h2 := h.inside hbr
  omega

/-! ## A queue that serves the waiters -/

/-- The list holds the waiters in the order in which they will be served: by key and, among
equals, by arrival. -/
structure Serves (key : α → κ) (l waiting : List α) : Prop where
  sorted : Sorted key l
  classes : ∀ k, l.filter (fun x => key x = k) = waiting.filter (fun x => key x = k)

variable {l waiting : List α}

theorem Serves.nil : Serves key [] ([] : List α) := ⟨List.Pairwise.nil, fun _ => rfl⟩

theorem Serves.mem_iff (h : Serves key l waiting) : q ∈ l ↔ q ∈ waiting := by
  have hk : q ∈ l.filter (fun x => key x = key q) ↔ q ∈ waiting.filter (fun x => key x = key q) := by
    rw [h.classes]
  simpa using hk

theorem Serves.perm (h : Serves key l waiting) : l.Perm waiting := by
  classical
  apply List.perm_iff_count.mpr
  intro q
  have hk := congrArg (List.count q) (h.classes (key q))
  rwa [List.count_filter (by simp), List.count_filter (by simp)] at hk

/-- Only the keys of the waiters matter. -/
theorem Serves.congr {key' : α → κ} (h : Serves key l waiting) (hkey : ∀ x ∈ l, key' x = key x) :
    Serves key' l waiting := by
  refine ⟨h.sorted.congr hkey, ?_⟩
  intro k
  have h1 : l.filter (fun x => key' x = k) = l.filter (fun x => key x = k) :=
    List.filter_congr fun x hx => by rw [hkey x hx]
  have h2 : waiting.filter (fun x => key' x = k) = waiting.filter (fun x => key x = k) :=
    List.filter_congr fun x hx => by rw [hkey x (h.mem_iff.mpr hx)]
  rw [h1, h2, h.classes]

/-- A new waiter goes where `insertByKey` puts it. -/
theorem Serves.insert (h : Serves key l waiting) (p : α) :
    Serves key (insertByKey key p l) (waiting ++ [p]) := by
  refine ⟨h.sorted.insertByKey, ?_⟩
  intro k
  rw [filter_insertByKey h.sorted, h.classes, List.filter_append]
  by_cases hp : key p = k <;> simp [hp]

/-- The minimum of a list has no smaller key behind or before it, and no equal before it. -/
theorem head_class_argmin (h : waiting.argmin key = some q) :
    (waiting.filter fun x => key x = key q).head? = some q := by
  induction waiting generalizing q with
  | nil => cases h
  | cons a waiting ih =>
    rw [List.argmin_cons] at h
    cases hc : waiting.argmin key with
    | none =>
      simp only [hc, Option.some.injEq] at h
      subst h
      simp
    | some c =>
      simp only [hc] at h
      split at h
      · rename_i hlt
        obtain rfl := Option.some.inj h
        rw [List.filter_cons_of_neg (by simpa using hlt.ne')]
        exact ih hc
      · obtain rfl := Option.some.inj h
        simp

/-- The first of the queue is the waiter a signal serves. -/
theorem Serves.next_eq (h : Serves key (q :: l) waiting) : waiting.argmin key = some q := by
  cases hr : waiting.argmin key with
  | none =>
    have hq := h.mem_iff.mp List.mem_cons_self
    rw [List.argmin_eq_none.mp hr] at hq
    cases hq
  | some r =>
    have hrl : r ∈ q :: l := h.mem_iff.mpr (List.argmin_mem hr)
    have hle : key q ≤ key r := h.sorted.head_le rfl hrl
    have hge : key r ≤ key q := List.le_of_mem_argmin (h.mem_iff.mp List.mem_cons_self) hr
    have hkey : key r = key q := le_antisymm hge hle
    have hhead := head_class_argmin hr
    rw [← h.classes, hkey, List.filter_cons_of_pos (by simp)] at hhead
    exact hhead.symm

/-- Behind it the queue serves the others. -/
theorem Serves.tail [DecidableEq α] (h : Serves key (q :: l) waiting) :
    Serves key l (waiting.erase q) := by
  refine ⟨(List.pairwise_cons.mp h.sorted).2, ?_⟩
  intro k
  have hk := h.classes k
  rw [← List.erase_filter, ← hk]
  by_cases hq : key q = k
  · rw [List.filter_cons_of_pos (by simpa using hq), List.erase_cons_head]
  · rw [List.filter_cons_of_neg (by simpa using hq)]
    refine (List.erase_of_not_mem ?_).symm
    simp [hq]

end PrioSem

end Lib
