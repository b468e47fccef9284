import Mathlib.Data.Nat.Digits.Lemmas

/-!
# Numerals

Strings of the digits 0-9a-z in a radix up to 36, the most significant one first, after an optional
minus: how they are read, and the one that stands for a number without a leading zero.
-/

namespace Lib

namespace Numeral

abbrev minus : BitVec 8 := 0x2D

def digit (k : Nat) : BitVec 8 :=
  if k < 10 then BitVec.ofNat 8 (0x30 + k) else BitVec.ofNat 8 (0x61 + (k - 10))

def value (c : BitVec 8) : Option Nat :=
  if 0x30 ≤ c.toNat ∧ c.toNat ≤ 0x39 then some (c.toNat - 0x30)
  else if 0x61 ≤ c.toNat ∧ c.toNat ≤ 0x7A then some (c.toNat - 0x61 + 10)
  else none

/-- The digits after those that gave `n`. -/
def readFrom (r : Nat) : Nat → List (BitVec 8) → Option Nat
  | n, [] => some n
  | n, c :: l => (value c).bind fun d => if d < r then readFrom r (r * n + d) l else none

def readNat (r : Nat) (l : List (BitVec 8)) : Option Nat :=
  if l = [] then none else readFrom r 0 l

/-- What is left of a numeral without its sign. -/
def unsigned (l : List (BitVec 8)) : List (BitVec 8) := if l.head? = some minus then l.tail else l

def readInt (r : Nat) (l : List (BitVec 8)) : Option Int :=
  (readNat r (unsigned l)).map fun n : Nat => if l.head? = some minus then -(n : Int) else n

/-- Only zero begins with a zero. -/
def Canonical (l : List (BitVec 8)) : Prop :=
  (unsigned l).head? = some (digit 0) → l = [digit 0]

def numeral (r n : Nat) : List (BitVec 8) :=
  if n = 0 then [digit 0] else ((Nat.digits r n).map digit).reverse

variable {r n k : Nat} {l l' : List (BitVec 8)}

/-! ## Digits -/

theorem value_digit : ∀ k < 36, value (digit k) = some k := by decide

theorem digit_ne_minus : ∀ k < 36, digit k ≠ minus := by decide

theorem digit_ne_nul : ∀ k < 36, digit k ≠ 0 := by decide

theorem digit_eq_zero : ∀ k < 36, digit k = digit 0 → k = 0 := by decide

theorem digits_lt (hr : 2 ≤ r) (hr' : r ≤ 36) : ∀ k ∈ Nat.digits r n, k < 36 :=
  fun _ hk => Nat.lt_of_lt_of_le (Nat.digits_lt_base hr hk) hr'

/-- The characters of a numeral are digits. -/
theorem mem_numeral (hr : 2 ≤ r) (hr' : r ≤ 36) {c : BitVec 8} (hc : c ∈ numeral r n) :
    ∃ k < 36, c = digit k := by
  unfold numeral at hc
  split at hc
  · exact ⟨0, by decide, List.mem_singleton.mp hc⟩
  · obtain ⟨k, hk, rfl⟩ := List.mem_map.mp (List.mem_reverse.mp hc)
    exact ⟨k, digits_lt hr hr' k hk, rfl⟩

theorem numeral_ne_nil : numeral r n ≠ [] := by
  unfold numeral
  split
  · exact List.cons_ne_nil _ _
  · rename_i hn
    simpa [Nat.digits_eq_nil_iff_eq_zero] using hn

/-! ## Reading -/

theorem readFrom_append : readFrom r n (l ++ l') = (readFrom r n l).bind (readFrom r · l') := by
  induction l generalizing n with
  | nil => rfl
  | cons c l ih =>
    rw [List.cons_append, readFrom, readFrom]
    cases value c with
    | none => rfl
    | some d =>
      rw [Option.bind_some, Option.bind_some]
      split
      · exact ih
      · rfl

/-- The induction is on the digits, the least significant one, read last, first. -/
theorem readFrom_digits (hr : r ≤ 36) {L : List Nat} (hL : ∀ k ∈ L, k < r) :
    readFrom r 0 (L.map digit).reverse = some (Nat.ofDigits r L) := by
  induction L with
  | nil => rfl
  | cons k L ih =>
    have hk := hL k List.mem_cons_self
    have hrest := ih fun j hj => hL j (List.mem_cons_of_mem _ hj)
    have hval := value_digit k (by omega)
    rw [List.map_cons, List.reverse_cons, readFrom_append, hrest, Option.bind_some, readFrom, hval,
      Option.bind_some, if_pos hk, readFrom, Nat.ofDigits_cons, Nat.add_comm]

theorem readNat_numeral (hr : 2 ≤ r) (hr' : r ≤ 36) : readNat r (numeral r n) = some n := by
  rw [readNat, if_neg numeral_ne_nil, numeral]
  split
  · rename_i hn
    have hzero := value_digit 0 (by decide)
    rw [readFrom, hzero, Option.bind_some, if_pos (by omega), readFrom, hn]
    rfl
  · have hdigits : ∀ k ∈ Nat.digits r n, k < r := fun _ hk => Nat.digits_lt_base hr hk
    rw [readFrom_digits hr' hdigits, Nat.ofDigits_digits]

theorem unsigned_numeral (hr : 2 ≤ r) (hr' : r ≤ 36) :
    (numeral r n).head? ≠ some minus ∧ unsigned (numeral r n) = numeral r n := by
  have hhead : (numeral r n).head? ≠ some minus := by
    intro h
    obtain ⟨k, hk, hc⟩ := mem_numeral hr hr' (List.mem_of_mem_head? h)
    exact digit_ne_minus k hk hc.symm
  exact ⟨hhead, if_neg hhead⟩

theorem readInt_numeral (hr : 2 ≤ r) (hr' : r ≤ 36) : readInt r (numeral r n) = some (n : Int) := by
  obtain ⟨hhead, hsame⟩ := unsigned_numeral (n := n) hr hr'
  rw [readInt, hsame, readNat_numeral hr hr', Option.map_some, if_neg hhead]

theorem length_unsigned_le (l : List (BitVec 8)) : (unsigned l).length ≤ l.length := by
  unfold unsigned
  split
  · rw [List.length_tail]
    exact Nat.sub_le _ _
  · exact Nat.le_refl _

theorem unsigned_minus : unsigned (minus :: l) = l := if_pos rfl

theorem readInt_minus (hr : 2 ≤ r) (hr' : r ≤ 36) :
    readInt r (minus :: numeral r n) = some (-(n : Int)) := by
  rw [readInt, unsigned_minus, readNat_numeral hr hr', Option.map_some, if_pos List.head?_cons]

/-! ## No leading zero -/

theorem head_numeral (hr : 2 ≤ r) (hr' : r ≤ 36) (hn : n ≠ 0) :
    (numeral r n).head? ≠ some (digit 0) := by
  have hne : Nat.digits r n ≠ [] := Nat.digits_ne_nil_iff_ne_zero.mpr hn
  have hlast := Nat.getLast_digit_ne_zero r hn
  rw [numeral, if_neg hn, List.head?_reverse, List.getLast?_map, List.getLast?_eq_some_getLast hne,
    Option.map_some]
  intro h
  exact hlast (digit_eq_zero _ (digits_lt hr hr' _ (List.getLast_mem hne)) (Option.some.inj h))

theorem canonical_numeral (hr : 2 ≤ r) (hr' : r ≤ 36) : Canonical (numeral r n) := by
  intro h
  rw [(unsigned_numeral hr hr').2] at h
  by_cases hn : n = 0
  · exact if_pos hn
  · exact absurd h (head_numeral hr hr' hn)

theorem canonical_minus (hr : 2 ≤ r) (hr' : r ≤ 36) (hn : n ≠ 0) :
    Canonical (minus :: numeral r n) := by
  intro h
  rw [unsigned_minus] at h
  exact absurd h (head_numeral hr hr' hn)

theorem length_numeral_le (hr : 2 ≤ r) (hn : n < r ^ k) (hk : 1 ≤ k) :
    (numeral r n).length ≤ k := by
  unfold numeral
  split
  · exact hk
  · rw [List.length_reverse, List.length_map]
    exact (Nat.digits_length_le_iff hr n).mpr hn

end Numeral

end Lib
