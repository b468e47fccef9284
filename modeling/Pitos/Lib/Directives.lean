import Mathlib.Data.List.Basic

/-!
# The loop over a format

A format is plain text with directives that a `%` begins. The loop looks at one character at a time
and keeps in its state whether it is inside a directive; what it does with a character is a
parameter. A step inside a directive may read on by itself, and tells how many characters are to be
gone past.
-/

namespace Lib

structure Directives (σ ε : Type*) where
  inside : σ → Bool
  /-- A character outside the directives. -/
  plain : Char → σ → σ
  /-- A `%`. -/
  start : σ → σ
  /-- One step inside a directive, at the first character of the rest. -/
  token : List Char → σ → Except ε (σ × Nat)
  /-- The format ends behind a `%`. -/
  beyond : ε

namespace Directives

variable {σ ε : Type*} (D : Directives σ ε)

def run : List Char → Nat → σ → Except ε σ
  | [], _, s => .ok s
  | _ :: fmt, k + 1, s => run fmt k s
  | c :: fmt, 0, s =>
    if c ≠ '%' ∧ D.inside s = false then run fmt 0 (D.plain c s)
    else if c = '%' then
      match fmt with
      | [] => .error D.beyond
      | d :: fmt' =>
        match D.token (d :: fmt') (D.start s) with
        | .error e => .error e
        | .ok (s, k) => run fmt' k s
    else
      match D.token (c :: fmt) s with
      | .error e => .error e
      | .ok (s, k) => run fmt k s

variable {fmt l : List Char} {c : Char} {s : σ}

theorem run_drop : D.run (l ++ fmt) l.length s = D.run fmt 0 s := by
  induction l with
  | nil => rfl
  | cons c l ih => exact ih

theorem run_plain (hc : c ≠ '%') (hs : D.inside s = false) :
    D.run (c :: fmt) 0 s = D.run fmt 0 (D.plain c s) := by
  cases fmt <;> exact if_pos ⟨hc, hs⟩

theorem run_inside (hc : c ≠ '%') (hs : D.inside s = true) : D.run (c :: fmt) 0 s =
    (D.token (c :: fmt) s).bind fun r => D.run fmt r.2 r.1 := by
  have h : ¬ (c ≠ '%' ∧ D.inside s = false) := fun h => absurd (hs.symm.trans h.2) (by decide)
  have hrun : D.run (c :: fmt) 0 s = match D.token (c :: fmt) s with
      | .error e => .error e
      | .ok (s, k) => D.run fmt k s := by
    cases fmt <;> exact (if_neg h).trans (if_neg hc)
  rw [hrun]
  cases D.token (c :: fmt) s <;> rfl

theorem run_start : D.run ('%' :: c :: fmt) 0 s =
    (D.token (c :: fmt) (D.start s)).bind fun r => D.run fmt r.2 r.1 := by
  have h : ¬ ('%' ≠ '%' ∧ D.inside s = false) := fun h => h.1 rfl
  have hrun : D.run ('%' :: c :: fmt) 0 s = match D.token (c :: fmt) (D.start s) with
      | .error e => .error e
      | .ok (s, k) => D.run fmt k s := (if_neg h).trans (if_pos rfl)
  rw [hrun]
  cases D.token (c :: fmt) (D.start s) <;> rfl

/-- Behind a `%` the loop goes on as inside a directive. -/
theorem run_start_inside (hc : c ≠ '%') (hs : D.inside (D.start s) = true) :
    D.run ('%' :: c :: fmt) 0 s = D.run (c :: fmt) 0 (D.start s) := by
  rw [run_inside D hc hs, run_start]

theorem run_ok {s' : σ} {k : Nat} (hc : c ≠ '%') (hs : D.inside s = true)
    (h : D.token (c :: fmt) s = .ok (s', k)) : D.run (c :: fmt) 0 s = D.run fmt k s' := by
  rw [run_inside D hc hs, h]
  rfl

theorem run_error {e : ε} (hc : c ≠ '%') (hs : D.inside s = true)
    (h : D.token (c :: fmt) s = .error e) : D.run (c :: fmt) 0 s = .error e := by
  rw [run_inside D hc hs, h]
  rfl

/-- A text without `%`. -/
theorem run_plains (hl : '%' ∉ l) (hs : D.inside s = false)
    (hplain : ∀ c s, D.inside s = false → D.inside (D.plain c s) = false) :
    D.run (l ++ fmt) 0 s = D.run fmt 0 (l.foldl (fun s c => D.plain c s) s) := by
  induction l generalizing s with
  | nil => rfl
  | cons c l ih =>
    have hc : c ≠ '%' := fun hc => hl (hc ▸ List.mem_cons_self)
    rw [List.cons_append, run_plain D hc hs]
    exact ih (fun h => hl (List.mem_cons_of_mem _ h)) (hplain c s hs)

end Directives

end Lib
