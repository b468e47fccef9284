import Mathlib.Data.List.Basic

/-!
# Delta queues

An alarm queue in which each entry stores its distance from the entry before it, so that a
clock tick touches the first entry only. `due` turns the distances back into times from now
by prefix sums. `insertDelta` inserts an alarm and corrects the distance of its successor:
the times of all other alarms stay the same (`due_insertDelta`). `tickDown` followed by the
removal of the leading zeros is the clock tick: the alarms removed are exactly those due one
tick from now, and all others come one tick nearer (`due_tick`).

Both need the distances to be natural numbers (`Nonneg`) and the first one to be positive;
`Ready` says so of the whole queue in terms of its times.
-/

namespace Lib

variable {α : Type*}

/-- The time of each alarm, counted from `off`. -/
def due (off : Int) : List (α × Int) → List (α × Int)
  | [] => []
  | (x, e) :: l => (x, off + e) :: due (off + e) l

/-- Insert the alarm `x` at distance `d`, in front of the first alarm that is not earlier. -/
def insertDelta (d : Int) (x : α) : List (α × Int) → List (α × Int)
  | [] => [(x, d)]
  | (y, e) :: l => if e < d then (y, e) :: insertDelta (d - e) x l else (x, d) :: (y, e - d) :: l

/-- The clock tick: the first alarm comes one tick nearer. -/
def tickDown : List (α × Int) → List (α × Int)
  | [] => []
  | (x, e) :: l => (x, e - 1) :: l

/-- The alarms that go off: the leading zeros. -/
def ringing (l : List (α × Int)) : List (α × Int) := l.takeWhile fun r => r.2 = 0

/-- The alarms that stay behind the ringing ones. -/
def waiting (l : List (α × Int)) : List (α × Int) := l.dropWhile fun r => r.2 = 0

/-- Every distance is a natural number. -/
def Nonneg (l : List (α × Int)) : Prop := ∀ r ∈ l, 0 ≤ r.2

/-- The state of the queue between ticks: no alarm is due yet. -/
structure Ready (l : List (α × Int)) : Prop where
  nonneg : Nonneg l
  head : ∀ r ∈ l.head?, 1 ≤ r.2

variable {d off : Int} {x : α} {l : List (α × Int)}

theorem insertDelta_perm (d : Int) (x : α) (l : List (α × Int)) :
    ((insertDelta d x l).map Prod.fst).Perm (x :: l.map Prod.fst) := by
  induction l generalizing d with
  | nil => exact List.Perm.refl _
  | cons r l ih =>
    obtain ⟨y, e⟩ := r
    unfold insertDelta
    split
    · exact ((ih (d - e)).cons y).trans (List.Perm.swap x y _)
    · exact List.Perm.refl _

/-- Insertion adds one alarm and moves no other. -/
theorem due_insertDelta (off d : Int) (x : α) (l : List (α × Int)) :
    (due off (insertDelta d x l)).Perm ((x, off + d) :: due off l) := by
  induction l generalizing off d with
  | nil => exact List.Perm.refl _
  | cons r l ih =>
    obtain ⟨y, e⟩ := r
    unfold insertDelta
    split
    · have h := ih (off + e) (d - e)
      have hd : off + e + (d - e) = off + d := by omega
      rw [hd] at h
      exact (h.cons (y, off + e)).trans (List.Perm.swap _ _ _)
    · have he : off + d + (e - d) = off + e := by omega
      simp only [due, he]
      exact List.Perm.refl _

theorem Nonneg.insertDelta (h : Nonneg l) (hd : 0 ≤ d) : Nonneg (insertDelta d x l) := by
  induction l generalizing d with
  | nil =>
    intro r hr
    simp only [Lib.insertDelta, List.mem_singleton] at hr
    subst hr
    exact hd
  | cons r l ih =>
    obtain ⟨y, e⟩ := r
    have hl : Nonneg l := fun r hr => h r (List.mem_cons_of_mem _ hr)
    have he : 0 ≤ e := h (y, e) List.mem_cons_self
    unfold Lib.insertDelta
    split
    · intro r hr
      rcases List.mem_cons.mp hr with rfl | hr
      · exact he
      · exact ih hl (by omega) r hr
    · intro r hr
      simp only [List.mem_cons] at hr
      rcases hr with rfl | rfl | hr
      · exact hd
      · simp only
        omega
      · exact hl r hr

/-- No distance grows. -/
theorem insertDelta_le {b : Int} (h : Nonneg l) (hl : ∀ r ∈ l, r.2 ≤ b) (hd : 0 ≤ d)
    (hd' : d ≤ b) : ∀ r ∈ insertDelta d x l, r.2 ≤ b := by
  induction l generalizing d with
  | nil =>
    intro r hr
    rw [List.mem_singleton.mp hr]
    exact hd'
  | cons r l ih =>
    obtain ⟨y, e⟩ := r
    have he : 0 ≤ e := h (y, e) List.mem_cons_self
    have he' : e ≤ b := hl (y, e) List.mem_cons_self
    unfold insertDelta
    split
    · intro r hr
      rcases List.mem_cons.mp hr with rfl | hr
      · exact he'
      · exact ih (fun r hr => h r (List.mem_cons_of_mem _ hr))
          (fun r hr => hl r (List.mem_cons_of_mem _ hr)) (by omega) (by omega) r hr
    · intro r hr
      rcases List.mem_cons.mp hr with rfl | hr
      · exact hd'
      · rcases List.mem_cons.mp hr with rfl | hr
        · simp only
          omega
        · exact hl r (List.mem_cons_of_mem _ hr)

theorem Ready.insertDelta (h : Ready l) (hd : 1 ≤ d) : Ready (insertDelta d x l) := by
  refine ⟨h.nonneg.insertDelta (by omega), ?_⟩
  cases l with
  | nil => simpa [Lib.insertDelta] using hd
  | cons r l =>
    have hr := h.head r rfl
    unfold Lib.insertDelta
    split
    · simpa using hr
    · simpa using hd

/-- In a queue of natural distances no alarm is earlier than the offset. -/
theorem Nonneg.le_due (h : Nonneg l) : ∀ r ∈ due off l, off ≤ r.2 := by
  induction l generalizing off with
  | nil => simp [due]
  | cons r l ih =>
    obtain ⟨y, e⟩ := r
    have he : 0 ≤ e := h (y, e) List.mem_cons_self
    intro r hr
    rcases List.mem_cons.mp hr with rfl | hr
    · simp only
      omega
    · have := ih (fun r hr => h r (List.mem_cons_of_mem _ hr)) r hr
      omega

theorem Ready.one_le_due (h : Ready l) : ∀ r ∈ due 0 l, 1 ≤ r.2 := by
  cases l with
  | nil => simp [due]
  | cons r l =>
    obtain ⟨y, e⟩ := r
    have he : 1 ≤ e := h.head (y, e) rfl
    intro r hr
    rcases List.mem_cons.mp hr with rfl | hr
    · simp only
      omega
    · have := Nonneg.le_due (fun r hr => h.nonneg r (List.mem_cons_of_mem _ hr)) r hr
      omega

theorem Ready.tickDown_nonneg (h : Ready l) : Nonneg (tickDown l) := by
  cases l with
  | nil => simp [tickDown, Nonneg]
  | cons r l =>
    obtain ⟨y, e⟩ := r
    have he : 1 ≤ e := h.head (y, e) rfl
    intro r hr
    rcases List.mem_cons.mp hr with rfl | hr
    · simp only
      omega
    · exact h.nonneg r (List.mem_cons_of_mem _ hr)

theorem waiting_suffix (l : List (α × Int)) : waiting l <:+ l := List.dropWhile_suffix _

theorem Nonneg.waiting_ready (h : Nonneg l) : Ready (waiting l) := by
  refine ⟨fun r hr => h r ((waiting_suffix l).subset hr), ?_⟩
  intro r hr
  have hr' := hr
  unfold waiting at hr'
  have hne := List.head?_dropWhile_not (fun r : α × Int => decide (r.2 = 0)) l
  rw [hr'] at hne
  simp only [decide_eq_false_iff_not] at hne
  have := h r ((waiting_suffix l).subset (List.mem_of_mem_head? hr))
  omega

/-- Leading zeros are due at the offset itself. -/
theorem due_split (off : Int) (l : List (α × Int)) :
    due off l = (ringing l).map (fun r => (r.1, off)) ++ due off (waiting l) := by
  induction l with
  | nil => rfl
  | cons r l ih =>
    obtain ⟨y, e⟩ := r
    by_cases he : e = 0
    · subst he
      simp only [due, Int.add_zero, ih, ringing, waiting, decide_true, List.takeWhile_cons_of_pos,
        List.dropWhile_cons_of_pos, List.map_cons, List.cons_append]
    · simp [ringing, waiting, he]

theorem due_shift (off k : Int) (l : List (α × Int)) :
    due (off + k) l = (due off l).map fun r => (r.1, r.2 + k) := by
  induction l generalizing off with
  | nil => rfl
  | cons r l ih =>
    obtain ⟨y, e⟩ := r
    have h : off + k + e = off + e + k := by omega
    simp only [due, List.map_cons, h, ih (off + e)]

theorem due_tickDown (l : List (α × Int)) :
    due 0 l = (due 0 (tickDown l)).map fun r => (r.1, r.2 + 1) := by
  cases l with
  | nil => rfl
  | cons r l =>
    obtain ⟨y, e⟩ := r
    have h := due_shift (0 + (e - 1)) 1 l
    have he : (0 : Int) + (e - 1) + 1 = 0 + e := by omega
    rw [he] at h
    simp only [tickDown, due, List.map_cons, h, he]

/-- A clock tick removes the alarms due in one tick and brings the others one tick nearer. -/
theorem due_tick (l : List (α × Int)) :
    due 0 l = (ringing (tickDown l)).map (fun r => (r.1, 1)) ++
      (due 0 (waiting (tickDown l))).map fun r => (r.1, r.2 + 1) := by
  rw [due_tickDown, due_split 0 (tickDown l)]
  simp

theorem Ready.tick (h : Ready l) : Ready (waiting (tickDown l)) :=
  h.tickDown_nonneg.waiting_ready

end Lib
