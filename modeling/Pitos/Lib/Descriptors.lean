import Mathlib.Tactic.IntervalCases

/-!
# Descriptor tables of protected mode

Segments and gates are packed into eight bytes with their fields in pieces. `Segment.decode` and
`Gate.decode` put the pieces together, and `Tables.deliver` is what the processor does with the two
tables and the task state when an interrupt arrives: which checks the gate and the segments have to
pass, where the execution goes on and on which stack. Task gates and gates of 16 bits are refused
like the kinds that are no gates.
-/

namespace Lib

structure Gate where
  offset : BitVec 32
  selector : BitVec 16
  kind : BitVec 5
  dpl : BitVec 2
  present : Bool
  deriving DecidableEq

namespace Gate

def decode (d : BitVec 64) : Gate where
  offset := d.extractLsb' 48 16 ++ d.extractLsb' 0 16
  selector := d.extractLsb' 16 16
  kind := d.extractLsb' 40 5
  dpl := d.extractLsb' 45 2
  present := d.getLsbD 47

abbrev INTERRUPT : BitVec 5 := 0xE

abbrev TRAP : BitVec 5 := 0xF

/-- The four words of a gate. -/
theorem decode_append (oh w sel ol : BitVec 16) : decode ((oh ++ w) ++ (sel ++ ol)) =
    { offset := oh ++ ol
      selector := sel
      kind := w.extractLsb' 8 5
      dpl := w.extractLsb' 13 2
      present := w.getLsbD 15 } := by
  have hoh : (oh ++ w ++ (sel ++ ol)).extractLsb' 48 16 = oh := by
    rw [BitVec.extractLsb'_append_eq_of_le (by decide)]
    exact BitVec.extractLsb'_append_eq_left
  have hol : (oh ++ w ++ (sel ++ ol)).extractLsb' 0 16 = ol := by
    rw [BitVec.extractLsb'_append_eq_of_add_le (by decide)]
    exact BitVec.extractLsb'_append_eq_right
  have hsel : (oh ++ w ++ (sel ++ ol)).extractLsb' 16 16 = sel := by
    rw [BitVec.extractLsb'_append_eq_of_add_le (by decide)]
    exact BitVec.extractLsb'_append_eq_left
  have hw : ∀ k len, k + len ≤ 16 →
      (oh ++ w ++ (sel ++ ol)).extractLsb' (32 + k) len = w.extractLsb' k len := by
    intro k len hk
    rw [BitVec.extractLsb'_append_eq_of_le (by omega),
      BitVec.extractLsb'_append_eq_of_add_le (by omega)]
    congr 1
    omega
  have hp : (oh ++ w ++ (sel ++ ol)).getLsbD 47 = w.getLsbD 15 := by
    rw [BitVec.getLsbD_append, if_neg (by decide), BitVec.getLsbD_append, if_pos (by decide)]
  unfold decode
  rw [hoh, hol, hsel, hp, hw 8 5 (by decide), hw 13 2 (by decide)]

/-- A gate that is present and whose code runs with the interrupts off. -/
def interrupt (selector : BitVec 16) (offset : BitVec 32) (dpl : BitVec 2) : Gate :=
  { offset, selector, kind := INTERRUPT, dpl, present := true }

end Gate

structure Segment where
  base : BitVec 32
  limit : BitVec 20
  kind : BitVec 5
  dpl : BitVec 2
  present : Bool
  granular : Bool
  deriving DecidableEq

namespace Segment

def decode (d : BitVec 64) : Segment where
  base := d.extractLsb' 56 8 ++ d.extractLsb' 16 24
  limit := d.extractLsb' 48 4 ++ d.extractLsb' 0 16
  kind := d.extractLsb' 40 5
  dpl := d.extractLsb' 45 2
  present := d.getLsbD 47
  granular := d.getLsbD 55

variable (s : Segment)

/-- The last offset. -/
def last : Nat := if s.granular then s.limit.toNat * 4096 + 4095 else s.limit.toNat

def isCode : Prop := s.kind &&& 0x18 = 0x18

def isConforming : Prop := s.kind &&& 0x1C = 0x1C

def isWritable : Prop := s.kind &&& 0x1A = 0x12

instance : Decidable s.isCode := inferInstanceAs (Decidable (_ = _))

instance : Decidable s.isConforming := inferInstanceAs (Decidable (_ = _))

instance : Decidable s.isWritable := inferInstanceAs (Decidable (_ = _))

end Segment

/-- The exceptions of a delivery that fails, with their error codes. -/
inductive Fault
  | invalidTss (code : BitVec 16)
  | notPresent (code : BitVec 16)
  | stack (code : BitVec 16)
  | protection (code : BitVec 16)
  deriving DecidableEq

/-- Where the execution goes on; a new stack when the level changes. -/
structure Entry where
  cs : BitVec 16
  eip : BitVec 32
  stack : Option (BitVec 16 × BitVec 32)
  interruptsOff : Bool
  deriving DecidableEq

/-- The flags where the execution goes on: without trap flag, nested task, resume flag and virtual
mode, and without interrupts when they are off. -/
def Entry.flags (e : Entry) (eflags : BitVec 32) : BitVec 32 :=
  eflags &&& if e.interruptsOff then ~~~0x34300 else ~~~0x34100

structure Tables where
  idt : Nat → BitVec 64
  idtLimit : Nat
  gdt : Nat → BitVec 64
  gdtLimit : Nat
  /-- The segment of the task register. -/
  task : Segment

namespace Tables

variable (t : Tables) (cpl : BitVec 2) (n : BitVec 8) (software : Bool)

/-- The level that a selector asks for. -/
def rpl (s : BitVec 16) : BitVec 2 := s.extractLsb' 0 2

/-- The descriptor of a selector; the null selector and the selectors of a local table have none. -/
def segment (s : BitVec 16) : Option Segment :=
  if s &&& 0xFFFC = 0 ∨ s.getLsbD 2 = true ∨ t.gdtLimit < 8 * (s >>> 3).toNat + 7 then none
  else some (Segment.decode (t.gdt (s >>> 3).toNat))

/-- The selector in an error code. -/
def errorCode (s : BitVec 16) (external : Bool) : BitVec 16 :=
  (s &&& 0xFFFC) ||| if external then 1 else 0

/-- The error code that names a vector. -/
def vectorCode : BitVec 16 := (n.setWidth 16 <<< 3) ||| 2 ||| if software then 0 else 1

def gate : Except Fault Gate :=
  if t.idtLimit < 8 * n.toNat + 7 then .error (.protection (vectorCode n software))
  else
    let g := Gate.decode (t.idt n.toNat)
    if g.kind ≠ Gate.INTERRUPT ∧ g.kind ≠ Gate.TRAP then .error (.protection (vectorCode n software))
    else if software ∧ g.dpl < cpl then .error (.protection (vectorCode n software))
    else if g.present = false then .error (.notPresent (vectorCode n software))
    else .ok g

/-- The code segment of a gate. -/
def target (s : BitVec 16) (external : Bool) : Except Fault Segment :=
  match t.segment s with
  | none => .error (.protection (errorCode s external))
  | some c =>
    if ¬ c.isCode ∨ cpl < c.dpl then .error (.protection (errorCode s external))
    else if c.present = false then .error (.notPresent (errorCode s external))
    else .ok c

/-- The stack of a level from the task state, which `read` reads. -/
def innerStack (read : BitVec 32 → BitVec 32) (level : BitVec 2) (external : Bool) :
    Except Fault (BitVec 16 × BitVec 32) :=
  let a := t.task.base + 4 + 8 * level.setWidth 32
  if t.task.last < 8 * level.toNat + 9 then .error (.invalidTss (errorCode 0 external))
  else
    let ss := (read (a + 4)).setWidth 16
    match t.segment ss with
    | none => .error (.invalidTss (errorCode ss external))
    | some d =>
      if rpl ss ≠ level ∨ d.dpl ≠ level ∨ ¬ d.isWritable then
        .error (.invalidTss (errorCode ss external))
      else if d.present = false then .error (.stack (errorCode ss external))
      else .ok (ss, read a)

/-- A selector with another level. -/
def withLevel (s : BitVec 16) (level : BitVec 2) : BitVec 16 :=
  (s &&& 0xFFFC) ||| level.setWidth 16

def deliver (read : BitVec 32 → BitVec 32) : Except Fault Entry := do
  let g ← t.gate cpl n software
  let c ← t.target cpl g.selector (!software)
  let interruptsOff := decide (g.kind = Gate.INTERRUPT)
  if c.isConforming ∨ c.dpl = cpl then
    return { cs := withLevel g.selector cpl, eip := g.offset, stack := none, interruptsOff }
  else
    let stack ← t.innerStack read c.dpl (!software)
    return { cs := withLevel g.selector c.dpl, eip := g.offset, stack := some stack, interruptsOff }

/-- Code can be executed at a level with this selector. -/
def RunsAt (level : BitVec 2) (s : BitVec 16) : Prop :=
  rpl s = level ∧ ∃ d, t.segment s = some d ∧ d.present = true ∧ d.dpl = level ∧ d.isCode

/-- The stack of a level can have this selector. -/
def StackAt (level : BitVec 2) (s : BitVec 16) : Prop :=
  rpl s = level ∧ ∃ d, t.segment s = some d ∧ d.present = true ∧ d.dpl = level ∧ d.isWritable

variable {t cpl n software} {read : BitVec 32 → BitVec 32} {sel : BitVec 16} {off : BitVec 32}
  {dpl : BitVec 2}

/-- A program may not use a gate of an inner level. -/
theorem deliver_refused (hn : 8 * n.toNat + 7 ≤ t.idtLimit)
    (hg : Gate.decode (t.idt n.toNat) = Gate.interrupt sel off dpl) (hlt : dpl < cpl) :
    t.deliver cpl n true read = .error (.protection (vectorCode n true)) := by
  have hgate : t.gate cpl n true = .error (.protection (vectorCode n true)) := by
    unfold gate
    rw [if_neg (not_lt.mpr hn)]
    simp only [hg, Gate.interrupt, ne_eq, not_true_eq_false, false_and, if_false, true_and]
    exact if_pos hlt
  unfold deliver
  rw [hgate]
  rfl

theorem gate_ok (hn : 8 * n.toNat + 7 ≤ t.idtLimit)
    (hg : Gate.decode (t.idt n.toNat) = Gate.interrupt sel off dpl)
    (hle : software = true → cpl ≤ dpl) :
    t.gate cpl n software = .ok (Gate.interrupt sel off dpl) := by
  unfold gate
  rw [if_neg (not_lt.mpr hn)]
  simp only [hg, Gate.interrupt, ne_eq, not_true_eq_false, false_and, if_false, Bool.true_eq_false]
  exact if_neg fun h => absurd h.2 (BitVec.not_lt.mpr (hle h.1))

/-- The code of a gate into level 0, and the segment of the stack that belongs to it. -/
structure Inner (t : Tables) (read : BitVec 32 → BitVec 32) (sel ss : BitVec 16)
    (esp : BitVec 32) : Prop where
  code : ∃ c, t.segment sel = some c ∧ c.isCode ∧ ¬ c.isConforming ∧ c.dpl = 0 ∧ c.present = true
  selector : withLevel sel 0 = sel
  data : ∃ d, t.segment ss = some d ∧ d.isWritable ∧ d.dpl = 0 ∧ d.present = true
  level : rpl ss = 0
  limit : 9 ≤ t.task.last
  stackSegment : (read (t.task.base + 8)).setWidth 16 = ss
  stackPointer : read (t.task.base + 4) = esp

variable {ss : BitVec 16} {esp : BitVec 32}

theorem Inner.innerStack (h : Inner t read sel ss esp) (external : Bool) :
    t.innerStack read 0 external = .ok (ss, esp) := by
  obtain ⟨d, hd, hw, hl, hp⟩ := h.data
  have ha : t.task.base + 4 + 8 * (0 : BitVec 2).setWidth 32 = t.task.base + 4 := by
    rw [show (8 : BitVec 32) * (0 : BitVec 2).setWidth 32 = 0#32 by decide, BitVec.add_zero]
  have ha' : t.task.base + 4 + 4 = t.task.base + 8 := by
    rw [BitVec.add_assoc]
    rfl
  unfold Tables.innerStack
  simp only [ha, ha', h.stackSegment, h.stackPointer, hd, hl, hp, hw, h.level]
  rw [if_neg (by have := h.limit; simpa using this)]
  rfl

/-- Through a gate into level 0: from there on the same stack, and from the other levels on the one
of the task state. -/
theorem Inner.deliver (h : Inner t read sel ss esp) (hn : 8 * n.toNat + 7 ≤ t.idtLimit)
    (hg : Gate.decode (t.idt n.toNat) = Gate.interrupt sel off dpl)
    (hle : software = true → cpl ≤ dpl) :
    t.deliver cpl n software read =
      .ok { cs := sel, eip := off, stack := if cpl = 0 then none else some (ss, esp),
            interruptsOff := true } := by
  obtain ⟨c, hc, hcode, hconf, hl, hp⟩ := h.code
  have htarget : t.target cpl sel (!software) = .ok c := by
    unfold target
    simp only [hc, hcode, hl, hp, not_true_eq_false, false_or, Bool.true_eq_false, if_false]
    exact if_neg BitVec.not_lt_zero
  unfold Tables.deliver
  rw [gate_ok hn hg hle]
  by_cases hcpl : cpl = 0
  · subst hcpl
    simp only [bind, Except.bind, Gate.interrupt, htarget, hl, or_true, if_true, h.selector,
      decide_true]
    rfl
  · have hne : ¬ (c.isConforming ∨ (0 : BitVec 2) = cpl) := by
      intro hor
      rcases hor with hco | h0
      · exact hconf hco
      · exact hcpl h0.symm
    simp only [bind, Except.bind, Gate.interrupt, htarget, hl, hne, hcpl, if_false,
      h.innerStack, h.selector, decide_true]
    rfl

end Tables

end Lib
