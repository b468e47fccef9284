import Mathlib.Data.List.Induction
import Mathlib.Logic.Function.Basic

/-!
# Rings of slots

A ring of `n` slots takes its values one after the other and begins again with the first slot
after the last. So the last `n` values are all there, each in its own slot (`slots_putAll`).
-/

namespace Lib

/-- The slot that is written next, and what the slots hold. -/
structure SlotRing (α : Type*) where
  next : Nat
  slots : Nat → α

namespace SlotRing

variable {α : Type*} {n : Nat} {r : SlotRing α}

def put (n : Nat) (r : SlotRing α) (x : α) : SlotRing α :=
  { next := (r.next + 1) % n, slots := Function.update r.slots r.next x }

def putAll (n : Nat) (r : SlotRing α) (xs : List α) : SlotRing α := xs.foldl (put n) r

theorem putAll_append (r : SlotRing α) (xs : List α) (x : α) :
    putAll n r (xs ++ [x]) = put n (putAll n r xs) x := by
  unfold putAll
  rw [List.foldl_append]
  rfl

theorem next_putAll (h : r.next < n) (xs : List α) :
    (putAll n r xs).next = (r.next + xs.length) % n := by
  induction xs using List.reverseRecOn with
  | nil => exact (Nat.mod_eq_of_lt h).symm
  | append_singleton xs x ih =>
    rw [putAll_append, put, ih, List.length_append, Nat.mod_add_mod]
    rfl

/-- Slots that are fewer than `n` places apart are different. -/
theorem slot_ne {a b : Nat} (h : a < b) (h' : b < a + n) : a % n ≠ b % n := by
  intro he
  have hdvd : n ∣ b - a := Nat.dvd_of_mod_eq_zero (Nat.sub_mod_eq_zero_of_mod_eq he.symm)
  have hle := Nat.le_of_dvd (by omega) hdvd
  omega

/-- Each of the last `n` values is in its slot. -/
theorem slots_putAll (h : r.next < n) {xs : List α} {j : Nat} {x : α} (hx : xs[j]? = some x)
    (hj : xs.length ≤ j + n) : (putAll n r xs).slots ((r.next + j) % n) = x := by
  induction xs using List.reverseRecOn with
  | nil => cases hx
  | append_singleton xs y ih =>
    rw [putAll_append, put]
    dsimp only
    rw [next_putAll h]
    rw [List.length_append, List.length_singleton] at hj
    rcases Nat.lt_trichotomy j xs.length with hlt | heq | hgt
    · have hne : (r.next + j) % n ≠ (r.next + xs.length) % n := slot_ne (by omega) (by omega)
      rw [Function.update_of_ne hne]
      apply ih
      · rwa [List.getElem?_append_left hlt] at hx
      · omega
    · subst heq
      rw [Function.update_self]
      simpa using hx
    · rw [List.getElem?_eq_none (by rw [List.length_append, List.length_singleton]; omega)] at hx
      cases hx

end SlotRing

end Lib
