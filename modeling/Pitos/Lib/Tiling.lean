import Mathlib.Algebra.GroupWithZero.Nat
import Mathlib.Algebra.Order.BigOperators.Group.List
import Mathlib.Algebra.Order.Group.Nat
import Mathlib.Data.List.Nodup
import Mathlib.Data.List.Perm.Subperm

/-!
# Tilings of an interval

`Tiles start stop x bs y`: the pieces of `bs`, each from its `start` to its `stop`, fill the
numbers from `x` up to `y` one after the other with no gap and no overlap. A piece is known by
where it starts (`Tiles.unique`), two pieces share nothing (`Tiles.apart`), and a run of pieces
may be replaced by any other that fills the same interval (`Tiles.replace`): splitting one
piece in two and fusing two neighbours are the cases an allocator uses.
-/

namespace Lib

variable {β : Type*}

inductive Tiles (start stop : β → Nat) : Nat → List β → Nat → Prop
  | nil {x : Nat} : Tiles start stop x [] x
  | cons {b : β} {bs : List β} {y : Nat} :
      start b < stop b → Tiles start stop (stop b) bs y → Tiles start stop (start b) (b :: bs) y

namespace Tiles

variable {start stop : β → Nat} {x y : Nat} {a b c : β} {l r bs s : List β}

theorem le (h : Tiles start stop x bs y) : x ≤ y := by
  induction h with
  | nil => exact Nat.le_refl _
  | cons hlt _ ih => omega

theorem single (h : start b < stop b) : Tiles start stop (start b) [b] (stop b) := cons h nil

theorem eq_of_nil (h : Tiles start stop x [] y) : x = y := by
  cases h
  rfl

theorem cons_iff : Tiles start stop x (b :: r) y ↔
    x = start b ∧ start b < stop b ∧ Tiles start stop (stop b) r y := by
  constructor
  · intro h
    cases h with
    | cons hlt h => exact ⟨rfl, hlt, h⟩
  · rintro ⟨rfl, hlt, h⟩
    exact cons hlt h

/-- A tiling of pieces one after the other is cut between any two of them. -/
theorem append_iff : Tiles start stop x (l ++ r) y ↔
    ∃ u, Tiles start stop x l u ∧ Tiles start stop u r y := by
  constructor
  · intro h
    induction l generalizing x with
    | nil => exact ⟨x, nil, h⟩
    | cons b l ih =>
      cases h with
      | cons hlt h =>
        obtain ⟨u, hl, hr⟩ := ih h
        exact ⟨u, cons hlt hl, hr⟩
  · rintro ⟨u, hl, hr⟩
    induction hl with
    | nil => exact hr
    | cons hlt _ ih => exact cons hlt (ih hr)

theorem append {u : Nat} (hl : Tiles start stop x l u) (hr : Tiles start stop u r y) :
    Tiles start stop x (l ++ r) y := append_iff.mpr ⟨u, hl, hr⟩

/-- What lies on the two sides of a piece. -/
theorem middle_iff : Tiles start stop x (l ++ b :: r) y ↔
    Tiles start stop x l (start b) ∧ start b < stop b ∧ Tiles start stop (stop b) r y := by
  rw [append_iff]
  constructor
  · rintro ⟨u, hl, hr⟩
    obtain ⟨rfl, hlt, hr⟩ := cons_iff.mp hr
    exact ⟨hl, hlt, hr⟩
  · rintro ⟨hl, hlt, hr⟩
    exact ⟨start b, hl, cons hlt hr⟩

/-- Where a run of pieces ends is known from the pieces. -/
theorem stop_unique {v : Nat} (h : Tiles start stop x bs y) (h' : Tiles start stop x bs v) :
    y = v := by
  induction h with
  | nil => exact h'.eq_of_nil
  | cons _ _ ih => exact ih (cons_iff.mp h').2.2

/-- What lies on the two sides of a run of pieces. -/
theorem around {u v : Nat} (h : Tiles start stop x (l ++ (s ++ r)) y)
    (hs : Tiles start stop u s v) (hne : s ≠ []) :
    Tiles start stop x l u ∧ Tiles start stop v r y := by
  obtain ⟨u', hl, hsr⟩ := append_iff.mp h
  obtain ⟨v', hs', hr⟩ := append_iff.mp hsr
  cases s with
  | nil => exact absurd rfl hne
  | cons b s =>
    obtain rfl : u = u' := (cons_iff.mp hs).1.trans (cons_iff.mp hs').1.symm
    obtain rfl := hs.stop_unique hs'
    exact ⟨hl, hr⟩

/-- A run of pieces gives way to another one that fills the same interval. -/
theorem replace {u v : Nat} {t : List β} (h : Tiles start stop x (l ++ (s ++ r)) y)
    (hs : Tiles start stop u s v) (hne : s ≠ []) (ht : Tiles start stop u t v) :
    Tiles start stop x (l ++ (t ++ r)) y := by
  obtain ⟨hl, hr⟩ := h.around hs hne
  exact hl.append (ht.append hr)

theorem bounds (h : Tiles start stop x bs y) (hb : b ∈ bs) :
    x ≤ start b ∧ start b < stop b ∧ stop b ≤ y := by
  obtain ⟨l, r, rfl⟩ := List.append_of_mem hb
  obtain ⟨hl, hlt, hr⟩ := middle_iff.mp h
  exact ⟨hl.le, hlt, hr.le⟩

/-- The pieces lie in the order of the list. -/
theorem pairwise (h : Tiles start stop x bs y) : bs.Pairwise fun b c => stop b ≤ start c := by
  induction h with
  | nil => exact List.Pairwise.nil
  | cons _ h ih => exact List.pairwise_cons.mpr ⟨fun c hc => (h.bounds hc).1, ih⟩

theorem nodup (h : Tiles start stop x bs y) : bs.Nodup := by
  refine h.pairwise.imp_of_mem fun hb _ hbc => ?_
  rintro rfl
  have hlt := (h.bounds hb).2.1
  omega

/-- Two pieces have nothing in common. -/
theorem apart (h : Tiles start stop x bs y) (hb : b ∈ bs) (hc : c ∈ bs) (hne : b ≠ c) :
    stop b ≤ start c ∨ stop c ≤ start b := by
  obtain ⟨l, r, rfl⟩ := List.append_of_mem hb
  obtain ⟨hl, _, hr⟩ := middle_iff.mp h
  rcases List.mem_append.mp hc with hc | hc
  · exact Or.inr (hl.bounds hc).2.2
  · rcases List.mem_cons.mp hc with rfl | hc
    · exact absurd rfl hne
    · exact Or.inl (hr.bounds hc).1

/-- Pieces that share a number are one piece. -/
theorem unique {k : Nat} (h : Tiles start stop x bs y) (hb : b ∈ bs) (hc : c ∈ bs)
    (hkb : start b ≤ k ∧ k < stop b) (hkc : start c ≤ k ∧ k < stop c) : b = c := by
  by_contra hne
  have hap := h.apart hb hc hne
  omega

/-- Pieces of at least `n` numbers each: there are not more of them than fit. -/
theorem length_le {n : Nat} (h : Tiles start stop x bs y)
    (hn : ∀ b ∈ bs, start b + n ≤ stop b) : x + n * bs.length ≤ y := by
  induction h with
  | nil => simp
  | @cons b bs y _ _ ih =>
    have hb := hn b List.mem_cons_self
    have hbs := ih fun c hc => hn c (List.mem_cons_of_mem _ hc)
    rw [List.length_cons, Nat.mul_succ]
    omega

/-- The lengths of the pieces add up to that of the interval. -/
theorem sum_eq (h : Tiles start stop x bs y) : x + (bs.map fun b => stop b - start b).sum = y := by
  induction h with
  | nil => rfl
  | @cons b bs y hlt _ ih =>
    rw [List.map_cons, List.sum_cons]
    omega

/-- Pieces taken once each are not longer together than the interval. -/
theorem sum_le (h : Tiles start stop x bs y) (hs : s.Nodup) (hsub : s ⊆ bs) :
    x + (s.map fun b => stop b - start b).sum ≤ y := by
  have hsum := h.sum_eq
  obtain ⟨l, hperm, hsub⟩ := hs.subperm hsub
  have hle := (hsub.map fun b => stop b - start b).sum_le_sum fun _ _ => Nat.zero_le _
  have heq := (hperm.map fun b => stop b - start b).sum_eq
  omega

/-- Behind a piece comes another one or the end. -/
theorem after (h : Tiles start stop x bs y) (hb : b ∈ bs) :
    stop b = y ∨ ∃ c ∈ bs, start c = stop b := by
  obtain ⟨l, r, rfl⟩ := List.append_of_mem hb
  obtain ⟨_, _, hr⟩ := middle_iff.mp h
  generalize hv : stop b = v at hr
  cases hr with
  | nil => exact Or.inl rfl
  | @cons c => exact Or.inr ⟨c, by simp, rfl⟩

/-- Before a piece comes another one or the beginning. -/
theorem before (h : Tiles start stop x bs y) (hb : b ∈ bs) :
    start b = x ∨ ∃ c ∈ bs, stop c = start b := by
  induction h with
  | nil => cases hb
  | @cons c bs y _ h ih =>
    rcases List.mem_cons.mp hb with rfl | hb
    · exact Or.inl rfl
    · rcases ih hb with hstart | ⟨d, hd, hstop⟩
      · exact Or.inr ⟨c, List.mem_cons_self, hstart.symm⟩
      · exact Or.inr ⟨d, List.mem_cons_of_mem _ hd, hstop⟩

/-- Two pieces with nothing between them stand next to each other in the list. -/
theorem adjacent (h : Tiles start stop x bs y) (hb : b ∈ bs) (hc : c ∈ bs)
    (hbc : stop b = start c) : ∃ l r, bs = l ++ b :: c :: r := by
  obtain ⟨l, r, rfl⟩ := List.append_of_mem hb
  obtain ⟨hl, hlt, hr⟩ := middle_iff.mp h
  have hltc := (h.bounds hc).2.1
  have hcr : c ∈ r := by
    rcases List.mem_append.mp hc with hc | hc
    · have hle := (hl.bounds hc).2.2
      omega
    · rcases List.mem_cons.mp hc with rfl | hc
      · omega
      · exact hc
  obtain ⟨m, r, rfl⟩ := List.append_of_mem hcr
  cases m with
  | nil => exact ⟨l, r, rfl⟩
  | cons d m =>
    -- a piece between the two would start where `c` does
    obtain ⟨hm, _, _⟩ := middle_iff.mp hr
    have hd := hm.bounds (b := d) List.mem_cons_self
    omega

end Tiles

end Lib
