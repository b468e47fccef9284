import Mathlib.Data.Nat.Digits.Lemmas

/-!
# Reading digits in a radix

`evalFrom value r n l` is the number that the digits `l` make of the number `n` read before them.
The numbers of the prefixes never get smaller (`le_evalFrom`), so a reader with a limit may stop at
the first one beyond it; the usual test before the multiplication, by quotient and remainder of the
limit, says the same as the comparison after it (`cutoff_iff`).
-/

namespace Lib

namespace Radix

variable {α : Type*} {value : α → Nat} {r n m limit : Nat} {l l' : List α} {c : α}

def evalFrom (value : α → Nat) (r n : Nat) (l : List α) : Nat :=
  l.foldl (fun n c => r * n + value c) n

@[simp] theorem evalFrom_nil : evalFrom value r n [] = n := rfl

@[simp] theorem evalFrom_cons :
    evalFrom value r n (c :: l) = evalFrom value r (r * n + value c) l := rfl

theorem evalFrom_append :
    evalFrom value r n (l ++ l') = evalFrom value r (evalFrom value r n l) l' :=
  List.foldl_append

theorem le_evalFrom (hr : 1 ≤ r) : n ≤ evalFrom value r n l := by
  induction l generalizing n with
  | nil => exact Nat.le_refl n
  | cons c l ih =>
    have h1 : n ≤ r * n := Nat.le_mul_of_pos_left n hr
    exact (h1.trans (Nat.le_add_right _ _)).trans ih

/-- Digits that are zero in front change nothing. -/
theorem evalFrom_zeros (h : ∀ c ∈ l, value c = 0) : evalFrom value r 0 l = 0 := by
  induction l with
  | nil => rfl
  | cons c l ih =>
    rw [evalFrom_cons, h c List.mem_cons_self, Nat.mul_zero]
    exact ih fun c hc => h c (List.mem_cons_of_mem _ hc)

/-- The digits of a number, the most significant one first. The induction is on the digits, the
least significant one first, which is the last that is read. -/
theorem evalFrom_digits {digit : Nat → α} (hd : ∀ k < r, value (digit k) = k) (hr : 2 ≤ r) (n : Nat) :
    evalFrom value r 0 ((Nat.digits r n).map digit).reverse = n := by
  have h : ∀ L : List Nat, (∀ k ∈ L, k < r) →
      evalFrom value r 0 (L.map digit).reverse = Nat.ofDigits r L := by
    intro L hL
    induction L with
    | nil => rfl
    | cons k L ih =>
      have hk := hd k (hL k List.mem_cons_self)
      have hrest := ih fun j hj => hL j (List.mem_cons_of_mem _ hj)
      rw [List.map_cons, List.reverse_cons, evalFrom_append, hrest, evalFrom_cons, evalFrom_nil, hk,
        Nat.ofDigits_cons, Nat.add_comm]
  rw [h _ fun k hk => Nat.digits_lt_base hr hk, Nat.ofDigits_digits]

/-! ## Reading with a limit -/

/-- The test before the multiplication. -/
theorem cutoff_iff {d : Nat} (hd : d < r) :
    limit / r < n ∨ limit / r = n ∧ limit % r < d ↔ limit < r * n + d := by
  have hdiv := Nat.div_add_mod limit r
  have hmod := Nat.mod_lt limit (Nat.zero_lt_of_lt hd)
  constructor
  · intro h
    rcases h with h | ⟨h, h'⟩
    · have hmul : r * (limit / r + 1) ≤ r * n := Nat.mul_le_mul_left r h
      rw [Nat.mul_add] at hmul
      omega
    · rw [← h]
      omega
  · intro h
    by_cases hlt : limit / r < n
    · exact Or.inl hlt
    · have hmul : r * n ≤ r * (limit / r) := Nat.mul_le_mul_left r (not_lt.mp hlt)
      by_cases heq : limit / r = n
      · refine Or.inr ⟨heq, ?_⟩
        rw [heq] at hdiv
        omega
      · have hmul' : r * (n + 1) ≤ r * (limit / r) := Nat.mul_le_mul_left r (by omega)
        rw [Nat.mul_add] at hmul'
        omega

end Radix

end Lib
