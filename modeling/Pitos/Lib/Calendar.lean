import Mathlib.Algebra.BigOperators.Intervals
import Mathlib.Logic.Function.Iterate
import Mathlib.Tactic.IntervalCases

/-!
# The Gregorian calendar

A date carries the proof that its month has that day. What counts the days is `Date.next`, the
day after; `Date.rank` is the number of days from the first day of the year 0, and
`next_iterate_iff` says that the two agree: `b` comes `n` days after `a` exactly when their
ranks differ by `n`.
-/

namespace Lib

def IsLeap (y : Nat) : Prop := y % 4 = 0 ∧ (y % 100 ≠ 0 ∨ y % 400 = 0)

instance (y : Nat) : Decidable (IsLeap y) := inferInstanceAs (Decidable (_ ∧ _))

def daysInMonth (y : Nat) : Nat → Nat
  | 2 => if IsLeap y then 29 else 28
  | 4 | 6 | 9 | 11 => 30
  | _ => 31

def yearLength (y : Nat) : Nat := if IsLeap y then 366 else 365

theorem daysInMonth_pos (y m : Nat) : 1 ≤ daysInMonth y m := by
  unfold daysInMonth
  split
  · split <;> decide
  all_goals decide

theorem daysInMonth_le (y m : Nat) : daysInMonth y m ≤ 31 := by
  unfold daysInMonth
  split
  · split <;> decide
  all_goals decide

@[ext] structure Date where
  year : Nat
  month : Nat
  day : Nat
  month_pos : 1 ≤ month
  month_le : month ≤ 12
  day_pos : 1 ≤ day
  day_le : day ≤ daysInMonth year month

namespace Date

/-- The first day of a month. -/
def first (y m : Nat) (h : 1 ≤ m) (h' : m ≤ 12) : Date :=
  { year := y, month := m, day := 1, month_pos := h, month_le := h', day_pos := le_rfl,
    day_le := daysInMonth_pos y m }

/-- The day after. -/
def next (d : Date) : Date :=
  if h : d.day < daysInMonth d.year d.month then
    { d with day := d.day + 1, day_pos := Nat.le_add_left _ _, day_le := h }
  else if h : d.month < 12 then first d.year (d.month + 1) (Nat.le_add_left _ _) h
  else first (d.year + 1) 1 le_rfl (by decide)

/-! ## Days before a year and before a month -/

def daysBeforeYear (y : Nat) : Nat := ∑ i ∈ Finset.range y, yearLength i

def daysBeforeMonth (y m : Nat) : Nat := ∑ k ∈ Finset.Ico 1 m, daysInMonth y k

theorem daysBeforeYear_succ (y : Nat) :
    daysBeforeYear (y + 1) = daysBeforeYear y + yearLength y := Finset.sum_range_succ _ _

theorem daysBeforeMonth_succ {y m : Nat} (h : 1 ≤ m) :
    daysBeforeMonth y (m + 1) = daysBeforeMonth y m + daysInMonth y m :=
  Finset.sum_Ico_succ_top h _

/-- What the months from January on have in common with twelfths of 367 days. -/
theorem daysBeforeMonth_eq {y m : Nat} (h : 1 ≤ m) (h' : m ≤ 13) :
    daysBeforeMonth y m + (if m ≤ 2 then 0 else if IsLeap y then 1 else 2) =
      (367 * m - 362) / 12 := by
  induction m, h using Nat.le_induction with
  | base => rfl
  | succ m h ih =>
    have hm := ih (by omega)
    rw [daysBeforeMonth_succ h]
    have hle : m ≤ 12 := by omega
    by_cases hy : IsLeap y
    · simp only [hy, if_true] at hm ⊢
      interval_cases m <;> simp [daysInMonth, hy] at hm ⊢ <;> omega
    · simp only [hy, if_false] at hm ⊢
      interval_cases m <;> simp [daysInMonth, hy] at hm ⊢ <;> omega

/-- The twelve months make the year. -/
theorem daysBeforeMonth_year (y : Nat) : daysBeforeMonth y 13 = yearLength y := by
  have h := daysBeforeMonth_eq (y := y) (m := 13) (by decide) le_rfl
  unfold yearLength
  rw [if_neg (by decide)] at h
  split at h
  · rename_i hy
    rw [if_pos hy]
    omega
  · rename_i hy
    rw [if_neg hy]
    omega

/-- A leap year every four, but for the centuries that four does not divide. -/
theorem daysBeforeYear_eq (y : Nat) :
    daysBeforeYear y + (y + 99) / 100 = 365 * y + (y + 3) / 4 + (y + 399) / 400 := by
  induction y with
  | zero => rfl
  | succ y ih =>
    rw [daysBeforeYear_succ]
    have h4 : (y + 1 + 3) / 4 = (y + 3) / 4 + if y % 4 = 0 then 1 else 0 := by
      split <;> omega
    have h100 : (y + 1 + 99) / 100 = (y + 99) / 100 + if y % 100 = 0 then 1 else 0 := by
      split <;> omega
    have h400 : (y + 1 + 399) / 400 = (y + 399) / 400 + if y % 400 = 0 then 1 else 0 := by
      split <;> omega
    have hlen : yearLength y + (if y % 100 = 0 then 1 else 0) =
        365 + (if y % 4 = 0 then 1 else 0) + if y % 400 = 0 then 1 else 0 := by
      unfold yearLength IsLeap
      by_cases hy4 : y % 4 = 0 <;> by_cases hy100 : y % 100 = 0 <;>
        by_cases hy400 : y % 400 = 0 <;> simp [hy4, hy100, hy400] <;> omega
    omega

/-! ## The number of a day -/

/-- The days from the first one of the year 0. -/
def rank (d : Date) : Nat :=
  daysBeforeYear d.year + daysBeforeMonth d.year d.month + (d.day - 1)

variable {a b d : Date}

theorem rank_first (y m : Nat) (h : 1 ≤ m) (h' : m ≤ 12) :
    (first y m h h').rank = daysBeforeYear y + daysBeforeMonth y m := rfl

theorem rank_next (d : Date) : d.next.rank = d.rank + 1 := by
  have hpos := d.day_pos
  have hle := d.day_le
  unfold next
  split
  · unfold rank
    dsimp only
    omega
  · split
    · rw [rank_first, daysBeforeMonth_succ d.month_pos]
      unfold rank
      omega
    · rename_i hday hmon
      have hmonth : d.month = 12 := by
        have := d.month_le
        omega
      have hyear := daysBeforeMonth_year d.year
      rw [daysBeforeMonth_succ (by decide)] at hyear
      have hone : daysBeforeMonth (d.year + 1) 1 = 0 := rfl
      rw [rank_first, daysBeforeYear_succ, hone]
      unfold rank
      rw [hmonth] at hle hday ⊢
      omega

theorem rank_iterate_next (d : Date) (n : Nat) : (next^[n] d).rank = d.rank + n := by
  induction n with
  | zero => rfl
  | succ n ih =>
    rw [Function.iterate_succ_apply', rank_next, ih]
    rfl

/-- Every day but the first comes after another. -/
theorem exists_next (h : d.rank ≠ 0) : ∃ c, next c = d := by
  obtain ⟨y, m, k, h1, h2, h3, h4⟩ := d
  by_cases hk : k = 1
  · subst hk
    by_cases hm : m = 1
    · subst hm
      cases y with
      | zero => exact absurd rfl h
      | succ y =>
        refine ⟨⟨y, 12, 31, by decide, le_rfl, by decide, le_rfl⟩, ?_⟩
        rfl
    · obtain ⟨l, rfl⟩ : ∃ l, m = l + 1 := ⟨m - 1, by omega⟩
      refine ⟨⟨y, l, daysInMonth y l, by omega, by omega, daysInMonth_pos y l, le_rfl⟩, ?_⟩
      unfold next
      rw [dif_neg (by simp), dif_pos (by simpa using h2)]
      rfl
  · obtain ⟨j, rfl⟩ : ∃ j, k = j + 1 := ⟨k - 1, by omega⟩
    refine ⟨⟨y, m, j, h1, h2, by omega, by omega⟩, ?_⟩
    unfold next
    rw [dif_pos (by simpa using h4)]

/-- The day with number 0. -/
def origin : Date := first 0 1 le_rfl (by decide)

theorem eq_origin (h : d.rank = 0) : d = origin := by
  have hyear := daysBeforeYear_eq d.year
  have hmonth := daysBeforeMonth_eq (y := d.year) d.month_pos (by have := d.month_le; omega)
  have h1 := d.month_pos
  have h2 := d.month_le
  have h3 := d.day_pos
  unfold rank at h
  have hy : d.year = 0 := by omega
  have hm : d.month = 1 := by
    split_ifs at hmonth <;> omega
  have hd : d.day = 1 := by omega
  exact Date.ext hy hm hd

theorem iterate_rank (d : Date) : next^[d.rank] origin = d := by
  obtain ⟨n, hn⟩ : ∃ n, d.rank = n := ⟨_, rfl⟩
  induction n generalizing d with
  | zero =>
    rw [hn]
    exact (eq_origin hn).symm
  | succ n ih =>
    obtain ⟨c, rfl⟩ := exists_next (by omega : d.rank ≠ 0)
    rw [rank_next] at hn ⊢
    rw [Function.iterate_succ_apply', ih c (by omega)]

theorem rank_inj (h : a.rank = b.rank) : a = b := by
  rw [← iterate_rank a, h, iterate_rank]

/-- The rank counts days. -/
theorem next_iterate_iff {n : Nat} : next^[n] a = b ↔ b.rank = a.rank + n := by
  constructor
  · rintro rfl
    exact rank_iterate_next a n
  · intro h
    exact rank_inj ((rank_iterate_next a n).trans h.symm)

/-! ## Days and seconds from 1970 on -/

def epoch : Date := first 1970 1 le_rfl (by decide)

theorem rank_epoch : epoch.rank = 719528 := by
  have hyear := daysBeforeYear_eq 1970
  have hmonth : daysBeforeMonth 1970 1 = 0 := rfl
  rw [epoch, rank_first, hmonth]
  omega

theorem rank_epoch_le (h : 1970 ≤ d.year) : epoch.rank ≤ d.rank := by
  have hyear := daysBeforeYear_eq d.year
  rw [rank_epoch]
  unfold rank
  rcases Nat.eq_or_lt_of_le h with he | hlt
  · rw [← he] at hyear ⊢
    omega
  · omega

/-- Every day from 1970 on is some number of days after the first of them. -/
theorem exists_iterate_epoch (h : 1970 ≤ d.year) : ∃ n, next^[n] epoch = d := by
  have hle := rank_epoch_le h
  exact ⟨d.rank - epoch.rank, next_iterate_iff.mpr (by omega)⟩

end Date

structure TimeOfDay where
  hour : Nat
  minute : Nat
  second : Nat
  hour_lt : hour < 24
  minute_lt : minute < 60
  second_lt : second < 60

/-- The seconds since midnight. -/
def TimeOfDay.seconds (t : TimeOfDay) : Nat := (t.hour * 60 + t.minute) * 60 + t.second

theorem TimeOfDay.seconds_lt (t : TimeOfDay) : t.seconds < 86400 := by
  have h1 := t.hour_lt
  have h2 := t.minute_lt
  have h3 := t.second_lt
  unfold TimeOfDay.seconds
  omega

/-- The seconds from the first instant of 1970. -/
def unixTime (d : Date) (t : TimeOfDay) : Nat :=
  (d.rank - Date.epoch.rank) * 86400 + t.seconds

/-- A day has 86400 seconds. -/
theorem unixTime_iterate (n : Nat) (t : TimeOfDay) :
    unixTime (Date.next^[n] Date.epoch) t = n * 86400 + t.seconds := by
  unfold unixTime
  rw [Date.rank_iterate_next, Nat.add_sub_cancel_left]

end Lib
