import Mathlib.Algebra.Ring.Int.Defs
import Mathlib.Data.Fintype.Basic
import Mathlib.Logic.Function.Basic
import Pitos.Lib.Memory

/-!
# The kernel's data

The types and global variables of `h/klib/sistema.h` and `klib/sistema.cpp`.

A `des_proc *` is null or the address of one of the `MAXPROCS` elements of `desproc`, so it is
a `DesPtr = Option Pid`. The machine has one flat address space without paging: a read or a
write through a null pointer is an access to the memory at address 0, whose content seen as a
descriptor is `des none`. Records of type `richiesta` live on the kernel heap: `ric` is the
content of the heap and `vive` lists the records that `new` has handed out and `delete` has
not yet taken back.

Stacks and the memory of user programs are the byte memory `mem`; the kernel's own variables
are the fields of `Kernel` and are not part of it.
-/

namespace Pitos

open Lib

abbrev MAXPROCS : Nat := 20
abbrev MAXSEMS : Nat := 20
abbrev NUMREG : Nat := 12
abbrev SIGCOUNT : Nat := 32

instance : NeZero MAXPROCS := ⟨by decide⟩
instance : NeZero NUMREG := ⟨by decide⟩
instance neZero_stk : NeZero (3 : Nat) := ⟨by decide⟩

abbrev QUANTUM : Int := 10
abbrev RESCHEDULER : Int := 50

/-- The value an `int` keeps of the result of an operation: 32 bits, two's complement. -/
def int32 (x : Int) : Int := x.bmod (2 ^ 32)

abbrev INT_MAX : Int := 2 ^ 31 - 1

theorem int32_of_range {x : Int} (h : -2 ^ 31 ≤ x) (h' : x ≤ INT_MAX) : int32 x = x := by
  have hx : x ≤ 2 ^ 31 - 1 := h'
  refine Int.bmod_eq_of_le_mul_two ?_ ?_ <;> omega

inductive StatoProcesso
  | PRONTO | BLOCCATO | RUNNING | FREE
  deriving DecidableEq, Repr

/-- The index of a descriptor in `desproc`. -/
abbrev Pid := Fin MAXPROCS

/-- `des_proc *`: null or `&desproc[i]`. -/
abbrev DesPtr := Option Pid

structure DesProc where
  context : Fin NUMREG → Word
  stk : Fin 3 → Word
  sigMask : Word
  prec : Int
  baseprec : Int
  next : DesPtr
  stato : StatoProcesso
  tick : Int
  tickTotal : Int
  sigHandlers : Fin SIGCOUNT → Word

/-- The slots of `context` that the C code names. -/
abbrev iESP : Fin NUMREG := ⟨28 / 4, by decide⟩
abbrev iDS : Fin NUMREG := ⟨44 / 4, by decide⟩
abbrev iES : Fin NUMREG := ⟨32 / 4, by decide⟩
abbrev iFS : Fin NUMREG := ⟨36 / 4, by decide⟩
abbrev iGS : Fin NUMREG := ⟨40 / 4, by decide⟩

abbrev USERDSSEL : Word := 0x20 ||| 3
abbrev USERCODESEL : Word := 0x18 ||| 3
abbrev SYSTEMCODESEL : Word := 0x8

structure DesSem where
  coda : DesPtr
  count : Int
  busy : Bool

/-- The address of a record on the kernel heap. -/
abbrev Addr := Nat

structure Richiesta where
  pric : Option Addr
  proc : DesPtr
  dattesa : Int

/-- The addresses the linker gives to the code and data that the kernel names. -/
structure Link where
  dummyproc : Word
  terminateP : Word
  kiTerminateP : Word
  signalrespin : Word
  osName : Word
  desproc : Word
  sysStack : Word

abbrev DesMem := DesPtr → DesProc

/-- `next` as a function on descriptors. -/
def successore (des : DesMem) (p : Pid) : DesPtr := (des (some p)).next

structure Kernel where
  link : Link
  procCount : Int
  des : DesMem
  dessem : Fin MAXSEMS → DesSem
  esecuzione : DesPtr
  pronti : DesPtr
  desTimer : Option Addr
  ric : Addr → Richiesta
  vive : List Addr
  /-- `static int rescheduler` of `cdriver_t`. -/
  rescheduler : Int
  /-- `_TSS.ESP0`. -/
  tssEsp0 : Word
  mem : Mem
  kbChanged : Int
  kbLast : Int
  currentPage : Int

/-- The ways a kernel path does not come back to a process. -/
inductive Fermo
  /-- The endless loop the kernel enters when it has nothing left to run. -/
  | halt (s : Kernel)
  /-- The kernel leaves through registers or a return address that belong to no process. -/
  | perduto (s : Kernel)
  /-- A loop over a list that never ends. -/
  | diverge

abbrev Esito := Except Fermo

/-- A path that comes back came back from each of its parts. -/
theorem bind_ok {α β : Type} {x : Esito α} {f : α → Esito β} {b : β} (h : x >>= f = .ok b) :
    ∃ a, x = .ok a ∧ f a = .ok b := by
  cases x with
  | error e => cases h
  | ok a => exact ⟨a, rfl, h⟩

namespace Kernel

/-- An assignment to fields of `*p`. -/
def aggiorna (s : Kernel) (p : DesPtr) (f : DesProc → DesProc) : Kernel :=
  { s with des := Function.update s.des p (f (s.des p)) }

theorem des_aggiorna (s : Kernel) (p : DesPtr) (f : DesProc → DesProc) :
    (s.aggiorna p f).des = Function.update s.des p (f (s.des p)) := rfl

/-- `pric` as a function on requests. -/
def pric (s : Kernel) (a : Addr) : Option Addr := (s.ric a).pric

end Kernel

end Pitos
