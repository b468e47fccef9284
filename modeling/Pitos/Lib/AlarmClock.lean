import Mathlib.Data.List.Induction
import Pitos.Lib.DeltaQueue

/-!
# Alarm clocks

What an alarm queue is for, apart from how it is kept: alarms are set with a time, counted in
ticks from now, and at each tick those whose time has come go off. `pending` is the set of the
alarms that have not gone off yet, with the ticks that are left; `mem_pending` says in terms of
the history which alarms these are. A delta queue (`Pitos.Lib.DeltaQueue`) whose times are the
pending alarms stays one under the same operations.
-/

namespace Lib

namespace AlarmClock

variable {α : Type*}

inductive Op (α : Type*)
  | set (x : α) (d : Int)
  | tick
  deriving DecidableEq

def apply (p : List (α × Int)) : Op α → List (α × Int)
  | .set x d => (x, d) :: p
  | .tick => (p.filter fun r => 1 < r.2).map fun r => (r.1, r.2 - 1)

/-- The alarms that are left after a history, with the ticks that each of them still waits. -/
def pending (es : List (Op α)) : List (α × Int) := es.foldl apply []

def Op.isTick : Op α → Bool
  | .set _ _ => false
  | .tick => true

def ticks (es : List (Op α)) : Nat := es.countP Op.isTick

/-- Alarms are set to go off at a tick that is still to come. -/
def Positive (es : List (Op α)) : Prop := ∀ x d, .set x d ∈ es → 1 ≤ d

variable {es : List (Op α)} {p : List (α × Int)} {l : List (α × Int)} {x y : α} {d m : Int}

theorem apply_perm {q : List (α × Int)} (h : p.Perm q) (e : Op α) :
    (apply p e).Perm (apply q e) := by
  cases e with
  | set x d => exact h.cons _
  | tick => exact (h.filter _).map _

theorem mem_apply_tick : (x, m) ∈ apply p .tick ↔ 1 ≤ m ∧ (x, m + 1) ∈ p := by
  simp only [apply, List.mem_map, List.mem_filter, decide_eq_true_eq, Prod.exists, Prod.mk.injEq]
  constructor
  · rintro ⟨y, k, ⟨hmem, hk⟩, rfl, rfl⟩
    refine ⟨by omega, ?_⟩
    rwa [Int.sub_add_cancel]
  · rintro ⟨hm, hmem⟩
    exact ⟨x, m + 1, ⟨hmem, by omega⟩, rfl, by omega⟩

theorem ticks_append (es fs : List (Op α)) : ticks (es ++ fs) = ticks es + ticks fs :=
  List.countP_append

/-- A split of a history that grows at its end. -/
theorem snoc_eq_append_cons {e f : Op α} {fs gs : List (Op α)} :
    es ++ [e] = fs ++ f :: gs ↔
      (es = fs ∧ e = f ∧ gs = []) ∨ ∃ hs, gs = hs ++ [e] ∧ es = fs ++ f :: hs := by
  constructor
  · intro heq
    rcases List.eq_nil_or_concat' gs with rfl | ⟨hs, g, rfl⟩
    · obtain ⟨rfl, he⟩ := List.append_inj' heq rfl
      exact Or.inl ⟨rfl, (List.cons.inj he).1, rfl⟩
    · have heq' : es ++ [e] = (fs ++ f :: hs) ++ [g] := by simpa using heq
      obtain ⟨rfl, he⟩ := List.append_inj' heq' rfl
      obtain rfl := (List.cons.inj he).1
      exact Or.inr ⟨hs, rfl, rfl⟩
  · rintro (⟨rfl, rfl, rfl⟩ | ⟨hs, rfl, rfl⟩)
    · rfl
    · simp

/-- **What is pending.** An alarm set to `d` is pending as long as fewer than `d` ticks have
passed since, whatever else was set before or after it. -/
theorem mem_pending (hes : Positive es) :
    (x, m) ∈ pending es ↔
      ∃ es₁ d es₂, es = es₁ ++ .set x d :: es₂ ∧ (ticks es₂ : Int) < d ∧ m = d - ticks es₂ := by
  induction es using List.reverseRecOn generalizing m with
  | nil => simp [pending]
  | append_singleton es e ih =>
    have ih := fun m => ih (m := m) fun x d h => hes x d (List.mem_append_left _ h)
    unfold pending at ih ⊢
    rw [List.foldl_append, List.foldl_cons, List.foldl_nil]
    simp only [snoc_eq_append_cons]
    cases e with
    | set y k =>
      have hk : 1 ≤ k := hes y k (by simp)
      have hticks : ∀ fs : List (Op α), ticks (fs ++ [.set y k]) = ticks fs := fun fs => by
        rw [ticks_append]
        rfl
      rw [apply, List.mem_cons, ih]
      constructor
      · rintro (heq | ⟨es₁, d, es₂, rfl, hlt, rfl⟩)
        · obtain ⟨rfl, rfl⟩ := Prod.mk.inj heq
          exact ⟨es, m, [], Or.inl ⟨rfl, rfl, rfl⟩, by simp [ticks]; omega, by simp [ticks]⟩
        · exact ⟨es₁, d, es₂ ++ [.set y k], Or.inr ⟨es₂, rfl, rfl⟩, by rwa [hticks],
            by rw [hticks]⟩
      · rintro ⟨es₁, d, es₂, ⟨rfl, he, rfl⟩ | ⟨fs, rfl, rfl⟩, hlt, rfl⟩
        · obtain ⟨rfl, rfl⟩ := Op.set.inj he
          exact Or.inl (by simp [ticks])
        · rw [hticks] at hlt ⊢
          exact Or.inr ⟨es₁, d, fs, rfl, hlt, rfl⟩
    | tick =>
      have hticks : ∀ fs : List (Op α), ticks (fs ++ [.tick]) = ticks fs + 1 := fun fs => by
        rw [ticks_append]
        rfl
      rw [mem_apply_tick, ih]
      constructor
      · rintro ⟨hm, es₁, d, es₂, rfl, hlt, he⟩
        refine ⟨es₁, d, es₂ ++ [.tick], Or.inr ⟨es₂, rfl, rfl⟩, ?_, ?_⟩
        · rw [hticks]
          omega
        · rw [hticks]
          omega
      · rintro ⟨es₁, d, es₂, ⟨rfl, he, rfl⟩ | ⟨fs, rfl, rfl⟩, hlt, rfl⟩
        · cases he
        · rw [hticks] at hlt ⊢
          exact ⟨by omega, es₁, d, fs, rfl, by omega, by omega⟩

/-! ## Delta queues -/

theorem due_insert (h : (due 0 l).Perm p) (d : Int) (x : α) :
    (due 0 (insertDelta d x l)).Perm (apply p (.set x d)) := by
  have hins := due_insertDelta 0 d x l
  rw [Int.zero_add] at hins
  exact hins.trans (h.cons _)

theorem due_tickDown (hl : Ready l) (h : (due 0 l).Perm p) :
    (due 0 (waiting (tickDown l))).Perm (apply p .tick) := by
  refine List.Perm.trans (List.Perm.of_eq ?_) (apply_perm h .tick)
  have hrest : ∀ r ∈ due 0 (waiting (tickDown l)), 1 ≤ r.2 := hl.tick.one_le_due
  rw [apply, due_tick l, List.filter_append, List.map_append]
  have hring : ((ringing (tickDown l)).map fun r => (r.1, (1 : Int))).filter
      (fun r => decide (1 < r.2)) = [] := by
    apply List.filter_eq_nil_iff.mpr
    intro r hr
    obtain ⟨q, -, rfl⟩ := List.mem_map.mp hr
    simp
  have hwait : (((due 0 (waiting (tickDown l))).map fun r => (r.1, r.2 + 1)).filter
      fun r => decide (1 < r.2)) = (due 0 (waiting (tickDown l))).map fun r => (r.1, r.2 + 1) := by
    apply List.filter_eq_self.mpr
    intro r hr
    obtain ⟨q, hq, rfl⟩ := List.mem_map.mp hr
    have := hrest q hq
    simp only [decide_eq_true_eq]
    omega
  rw [hring, hwait, List.map_map]
  simp [Function.comp_def]

/-- The alarms that ring at the next tick are those with one tick left. -/
theorem mem_ringing (hl : Ready l) (h : (due 0 l).Perm p) :
    x ∈ (ringing (tickDown l)).map Prod.fst ↔ (x, 1) ∈ p := by
  rw [← h.mem_iff, due_tick l, List.mem_append]
  constructor
  · intro hx
    obtain ⟨r, hr, rfl⟩ := List.mem_map.mp hx
    exact Or.inl (List.mem_map.mpr ⟨r, hr, rfl⟩)
  · rintro (hx | hx)
    · obtain ⟨r, hr, he⟩ := List.mem_map.mp hx
      exact List.mem_map.mpr ⟨r, hr, (Prod.mk.inj he).1⟩
    · obtain ⟨r, hr, he⟩ := List.mem_map.mp hx
      have := hl.tick.one_le_due r hr
      have := (Prod.mk.inj he).2
      omega

theorem mem_due (h : (due 0 l).Perm p) : x ∈ l.map Prod.fst ↔ ∃ m, (x, m) ∈ p := by
  have hfst : ∀ (off : Int) (l : List (α × Int)), (due off l).map Prod.fst = l.map Prod.fst := by
    intro off l
    induction l generalizing off with
    | nil => rfl
    | cons r l ih => exact congrArg (r.1 :: ·) (ih _)
  rw [← hfst 0, (h.map Prod.fst).mem_iff, List.mem_map]
  constructor
  · rintro ⟨⟨y, m⟩, hr, rfl⟩
    exact ⟨m, hr⟩
  · rintro ⟨m, hm⟩
    exact ⟨(x, m), hm, rfl⟩

end AlarmClock

end Lib
