import Mathlib.Data.List.Nodup

/-!
# Lists threaded through a link field

A list kept in memory as a head pointer and one link per node is described by the list of
the nodes it visits: `Linked next head l` says that following `next` from `head` meets
exactly the nodes of `l`, in order, and then the null pointer (`none`). Such a list never
repeats a node (`Linked.nodup`) and depends only on the links of its own nodes
(`Linked.congr`), so writes to other nodes leave it alone.

`walk` is the two-pointer search used to insert in the middle of such a list: it carries
an accumulator, remembers the node it came from and stops where its test says so. `cut` is
the same search on the list of nodes (`walk_eq`), and `Linked.splice` says what the two
pointer writes that follow the search produce. With `stopAt` the search looks for a node
(`walk_stopAt`), and `Linked.bypass` says what taking that node out produces.
-/

namespace Lib

variable {α β : Type*}

/-- Following `next` from `head` visits exactly the nodes of the list and then stops. -/
inductive Linked (next : α → Option α) : Option α → List α → Prop
  | nil : Linked next none []
  | cons {x : α} {l : List α} : Linked next (next x) l → Linked next (some x) (x :: l)

namespace Linked

variable {next next' : α → Option α} {head : Option α} {l l' : List α} {x : α}

theorem head_eq (h : Linked next head l) : head = l.head? := by
  cases h <;> rfl

@[simp] theorem none_iff : Linked next none l ↔ l = [] := by
  constructor
  · intro h
    cases h
    rfl
  · rintro rfl
    exact nil

@[simp] theorem nil_iff : Linked next head [] ↔ head = none := by
  constructor
  · intro h
    cases h
    rfl
  · rintro rfl
    exact nil

@[simp] theorem some_cons_iff {y : α} :
    Linked next (some x) (y :: l) ↔ x = y ∧ Linked next (next x) l := by
  constructor
  · intro h
    cases h with
    | cons h => exact ⟨rfl, h⟩
  · rintro ⟨rfl, h⟩
    exact cons h

/-- The nodes visited are determined by the links. -/
theorem unique (h : Linked next head l) (h' : Linked next head l') : l = l' := by
  induction h generalizing l' with
  | nil => exact (none_iff.mp h').symm
  | cons _ ih =>
    cases h' with
    | cons h' => rw [ih h']

/-- The links behind a visited node visit the rest of the list. -/
theorem suffix {a b : List α} (h : Linked next head (a ++ x :: b)) : Linked next (next x) b := by
  induction a generalizing head with
  | nil => cases h with | cons h => exact h
  | cons y a ih => cases h with | cons h => exact ih h

/-- The links of a list thread every end of it. -/
theorem drop {a b : List α} (h : Linked next head (a ++ b)) : Linked next b.head? b := by
  cases b with
  | nil => exact nil
  | cons x b => exact cons h.suffix

/-- A list that ends visits no node twice: the links are a function, so a second visit
would go on like the first. -/
theorem nodup (h : Linked next head l) : l.Nodup := by
  induction h with
  | nil => exact List.nodup_nil
  | @cons x l h ih =>
    refine List.nodup_cons.mpr ⟨fun hx => ?_, ih⟩
    obtain ⟨a, b, rfl⟩ := List.append_of_mem hx
    have hb := congrArg List.length (h.suffix.unique h)
    simp only [List.length_append, List.length_cons] at hb
    omega

/-- Only the links of the visited nodes matter. -/
theorem congr (h : Linked next head l) (hn : ∀ x ∈ l, next' x = next x) :
    Linked next' head l := by
  induction h with
  | nil => exact nil
  | @cons x l h ih =>
    apply cons
    rw [hn x List.mem_cons_self]
    exact ih fun y hy => hn y (List.mem_cons_of_mem _ hy)

end Linked

/-! ## Insertion by two pointer writes -/

/-- The links after `p` is given the successor `succ` and then the node `prev`, when there
is one, the successor `p`. -/
def splice [DecidableEq α] (next : α → Option α) (prev : Option α) (p : α) (succ : Option α) :
    α → Option α :=
  fun x => if some x = prev then some p else if x = p then succ else next x

/-- Linking `p` between the two halves of a list it is not in. -/
theorem Linked.splice [DecidableEq α] {next : α → Option α} {head : Option α} {a b : List α}
    {p : α} (h : Linked next head (a ++ b)) (hp : p ∉ a ++ b) :
    Linked (Lib.splice next a.getLast? p b.head?) (if a = [] then some p else head)
      (a ++ p :: b) := by
  have hnodup := h.nodup
  induction a generalizing head with
  | nil =>
    have hb : Linked next b.head? b := h.head_eq ▸ h
    apply Linked.cons
    have hpp : Lib.splice next (none : Option α) p b.head? p = b.head? := by simp [Lib.splice]
    simp only [List.getLast?_nil, hpp]
    apply hb.congr
    intro x hx
    have hxp : x ≠ p := fun e => hp (by simpa [e] using hx)
    simp [Lib.splice, hxp]
  | cons y a ih =>
    cases h with
    | cons h =>
      simp only [List.cons_append, List.mem_cons, List.nodup_cons, not_or] at hp hnodup
      have hih := ih h hp.2 hnodup.2
      have hyp : y ≠ p := fun e => hp.1 e.symm
      simp only [List.cons_ne_nil, if_false, List.cons_append]
      cases a with
      | nil =>
        apply Linked.cons
        have hb : Linked next b.head? b := h.head_eq ▸ h
        have hy : Lib.splice next ([y].getLast?) p b.head? y = some p := by simp [Lib.splice]
        rw [hy]
        apply Linked.cons
        have hpy : Lib.splice next ([y].getLast?) p b.head? p = b.head? := by
          simp [Lib.splice, hyp.symm]
        rw [hpy]
        apply hb.congr
        intro x hx
        have hxp : x ≠ p := fun e => hp.2 (by simpa [e] using hx)
        have hxy : x ≠ y := fun e => hnodup.1 (by simpa [e] using hx)
        simp [Lib.splice, hxp, hxy]
      | cons z a =>
        have hlast : (y :: z :: a).getLast? = (z :: a).getLast? := by simp [List.getLast?_cons_cons]
        rw [hlast]
        apply Linked.cons
        have hne : some y ≠ (z :: a).getLast? := by
          intro e
          exact hnodup.1 (List.mem_append_left _ (List.mem_of_getLast? e.symm))
        have hy : Lib.splice next (z :: a).getLast? p b.head? y = next y := by
          simp [Lib.splice, hne, hyp]
        rw [hy]
        simpa using hih

/-! ## Removal by one pointer write -/

/-- The links after the node `prev`, when there is one, is given the successor of `x`. -/
def bypass [DecidableEq α] (next : α → Option α) (prev : Option α) (x : α) : α → Option α :=
  fun y => if some y = prev then next x else next y

/-- Taking `x` out of the list. -/
theorem Linked.bypass [DecidableEq α] {next : α → Option α} {head : Option α} {a b : List α}
    {x : α} (h : Linked next head (a ++ x :: b)) :
    Linked (Lib.bypass next a.getLast? x) (if a = [] then next x else head) (a ++ b) := by
  have hnodup := h.nodup
  induction a generalizing head with
  | nil =>
    apply h.suffix.congr
    intro y _
    simp [Lib.bypass]
  | cons y a ih =>
    cases h with
    | cons h =>
      simp only [List.cons_append, List.nodup_cons] at hnodup
      have hih := ih h hnodup.2
      simp only [List.cons_ne_nil, if_false, List.cons_append]
      apply Linked.cons
      cases a with
      | nil =>
        have hy : Lib.bypass next ([y].getLast?) x y = next x := by simp [Lib.bypass]
        rw [hy]
        apply h.suffix.congr
        intro z hz
        have hzy : z ≠ y := fun e => hnodup.1 (by simpa [e] using Or.inr hz)
        simp [Lib.bypass, hzy]
      | cons z a =>
        have hlast : (y :: z :: a).getLast? = (z :: a).getLast? := by simp [List.getLast?_cons_cons]
        have hne : some y ≠ (z :: a).getLast? := by
          intro e
          exact hnodup.1 (List.mem_append_left _ (List.mem_of_getLast? e.symm))
        rw [hlast]
        have hy : Lib.bypass next (z :: a).getLast? x y = next y := by simp [Lib.bypass, hne]
        rw [hy]
        simpa using hih

/-! ## The two-pointer search -/

/-- Walk the list from `head`, carrying `acc` and the node just left, until `go` refuses a
node or the list ends. With no fuel left the answer is `none`: the walk did not end. -/
def walk (go : β → α → Option β) (next : α → Option α) :
    Nat → β → Option α → Option α → Option (β × Option α × Option α)
  | 0, _, _, _ => none
  | _ + 1, acc, prev, none => some (acc, prev, none)
  | n + 1, acc, prev, some r =>
    match go acc r with
    | none => some (acc, prev, some r)
    | some acc' => walk go next n acc' (some r) (next r)

/-- The same search on the list of nodes: the nodes passed, the accumulator and the rest. -/
def cut (go : β → α → Option β) : β → List α → List α × β × List α
  | acc, [] => ([], acc, [])
  | acc, r :: l =>
    match go acc r with
    | none => ([], acc, r :: l)
    | some acc' => (r :: (cut go acc' l).1, (cut go acc' l).2)

theorem cut_append (go : β → α → Option β) (acc : β) (l : List α) :
    (cut go acc l).1 ++ (cut go acc l).2.2 = l := by
  induction l generalizing acc with
  | nil => rfl
  | cons r l ih =>
    unfold cut
    cases go acc r with
    | none => rfl
    | some acc' => simp [ih acc']

/-- On a list shorter than its fuel the walk ends where `cut` says. -/
theorem walk_eq (go : β → α → Option β) {next : α → Option α} {head : Option α} {l : List α}
    (h : Linked next head l) {fuel : Nat} (hfuel : l.length < fuel) (acc : β) (prev : Option α) :
    walk go next fuel acc prev head =
      some ((cut go acc l).2.1, (cut go acc l).1.getLast?.or prev, (cut go acc l).2.2.head?) := by
  induction h generalizing fuel acc prev with
  | nil =>
    cases fuel with
    | zero => simp at hfuel
    | succ n => simp [walk, cut]
  | @cons x l h ih =>
    cases fuel with
    | zero => simp at hfuel
    | succ n =>
      unfold walk cut
      cases go acc x with
      | none => simp
      | some acc' =>
        have hn : l.length < n := by simpa using hfuel
        simp only [ih hn acc' (some x)]
        cases hl : (cut go acc' l).1.getLast? <;> simp [List.getLast?_cons, hl]

/-- The search for a node with a property: nothing is accumulated. -/
def stopAt (p : α → Bool) : Unit → α → Option Unit := fun acc r => if p r then none else some acc

theorem cut_stopAt (p : α → Bool) (l : List α) :
    (∀ y ∈ (cut (stopAt p) () l).1, p y = false) ∧
      ∀ x ∈ (cut (stopAt p) () l).2.2.head?, p x = true := by
  induction l with
  | nil => simp [cut]
  | cons r l ih =>
    cases hr : p r with
    | true => simp [cut, stopAt, hr]
    | false =>
      have hcut : cut (stopAt p) () (r :: l) =
          (r :: (cut (stopAt p) () l).1, (cut (stopAt p) () l).2) := by
        simp [cut, stopAt, hr]
      rw [hcut]
      refine ⟨?_, ih.2⟩
      intro y hy
      rcases List.mem_cons.mp hy with rfl | hy
      · exact hr
      · exact ih.1 y hy

/-- The search ends at the first node with the property, with the node before it, or finds
that there is none. -/
theorem walk_stopAt (p : α → Bool) {next : α → Option α} {head : Option α} {l : List α}
    (h : Linked next head l) {fuel : Nat} (hfuel : l.length < fuel) :
    (∃ a x b, l = a ++ x :: b ∧ p x = true ∧
      walk (stopAt p) next fuel () none head = some ((), a.getLast?, some x)) ∨
    (∀ x ∈ l, p x = false) ∧
      ∃ prev, walk (stopAt p) next fuel () none head = some ((), prev, none) := by
  have hwalk := walk_eq (stopAt p) h hfuel () none
  have happ := cut_append (stopAt p) () l
  obtain ⟨hpassed, hfound⟩ := cut_stopAt p l
  cases hrest : (cut (stopAt p) () l).2.2 with
  | nil =>
    right
    rw [hrest, List.append_nil] at happ
    rw [hrest] at hwalk
    exact ⟨fun x hx => hpassed x (by rw [happ]; exact hx), _, hwalk⟩
  | cons x b =>
    left
    rw [hrest] at happ hwalk hfound
    refine ⟨_, x, b, happ.symm, hfound x (by simp), ?_⟩
    rw [hwalk]
    simp

end Lib
