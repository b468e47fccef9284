import Pitos.Kernel.Semaphores
import Pitos.Kernel.Timer

/-!
# System calls, interrupts and the start of the kernel

A `Chiamata` is a call of one of the `ki_` functions of `syscalls.h` with its C arguments;
values that come from outside the modelled state (the addresses returned by the heap, the time
stamp) are arguments too. `passo` is one entry into the kernel: a system call by the current
process (`syscalle`), a timer interrupt (`acdriver_t`), a keyboard interrupt, an exception of the
current process (`klib/except.cpp`), or the return of `dummyproc`, which calls `ki_terminate_p`
directly.

Kernel code runs with interrupts disabled, so an entry is one step. The register part of the
entry and exit code is the subject of `Pitos.Machine`; here `caricaStato` is only its effect on
`_TSS`. When `esecuzione` is null on the way out, the registers are loaded from address 0 and
control is lost.
-/

namespace Pitos

open Lib

/-- The address of a descriptor. -/
def indirizzo (l : Link) : DesPtr → Word
  | none => 0
  | some p => l.desproc + BitVec.ofNat 32 (216 * p)

/-- The loop of `ki_sysGetOsName`, with the number of turns left. -/
def copiaNome : Nat → Mem → Word → Word → Mem × Word
  | 0, m, p, _ => (m, p)
  | n + 1, m, p, s => copiaNome n (m.write8 p (m s)) (p + 1) (s + 1)

/-- `while(--len)` makes `len - 1` turns, counted modulo `2^32`. -/
def kiSysGetOsName (p : Word) (len : Int) (s : Kernel) : Kernel :=
  if len = 0 ∨ p = 0 then s
  else
    let (m, p) := copiaNome ((len - 1) % 2 ^ 32).toNat s.mem p s.link.osName
    { s with mem := m.write8 p 0 }

def kiGetTick (low hi : Word) (tscLow tscHi : Word) (s : Kernel) : Kernel :=
  { s with mem := (s.mem.write32 low tscLow).write32 hi tscHi }

def kiGetPri (pri : Word) (s : Kernel) : Kernel :=
  { s with mem := s.mem.write32 pri (BitVec.ofInt 32 (s.des s.esecuzione).prec) }

def kiGetBasepri (pri : Word) (s : Kernel) : Kernel :=
  { s with mem := s.mem.write32 pri (BitVec.ofInt 32 (s.des s.esecuzione).baseprec) }

def kiGetPid (p : Word) (s : Kernel) : Kernel :=
  { s with mem := s.mem.write32 p (indirizzo s.link s.esecuzione) }

/-- `ki__malloc`: `r` is the block that `ki_malloc` returned. -/
def kiMalloc (p r : Word) (s : Kernel) : Kernel := { s with mem := s.mem.write32 p r }

inductive Chiamata
  | activateP (f h : Word) (prec : Int) (idx risu : Word) (stk : Fin 3 → Word)
  | terminateP
  | semIni (valore : Int) (idx risu : Word)
  | semWait (hsem : Int)
  | semSignal (hsem : Int)
  | sysGetOsName (p : Word) (len : Int)
  | getTick (low hi : Word) (tscLow tscHi : Word)
  | delay (n : Int) (a : Addr)
  | getPri (pri : Word)
  | getBasepri (pri : Word)
  | getPid (p : Word)
  | signal (sig : Int) (func : Word)
  | raise (sig : Int)
  | signalrespin
  | print (buf : Word) (page : Int)
  | free (ptr : Word)
  | malloc (size : Int) (p r : Word)

/-- The call through `syscall_table`. What `ki_print` and `ki_free` do happens in the video
memory and in the headers of heap blocks, which are not part of this state. -/
def esegui : Chiamata → Kernel → Esito Kernel
  | .activateP f h prec idx risu stk, s => kiActivateP f h prec idx risu stk s
  | .terminateP, s => kiTerminateP s
  | .semIni valore idx risu, s => .ok (kiSemIni valore idx risu s)
  | .semWait hsem, s => kiSemWait hsem s
  | .semSignal hsem, s => kiSemSignal hsem s
  | .sysGetOsName p len, s => .ok (kiSysGetOsName p len s)
  | .getTick low hi tscLow tscHi, s => .ok (kiGetTick low hi tscLow tscHi s)
  | .delay n a, s => kiDelay n a s
  | .getPri pri, s => .ok (kiGetPri pri s)
  | .getBasepri pri, s => .ok (kiGetBasepri pri s)
  | .getPid p, s => .ok (kiGetPid p s)
  | .signal sig func, s => .ok (kiSignal sig func s).2
  | .raise sig, s => .ok (kiRaise sig s).2
  | .signalrespin, s => .ok (kiSignalrespin s)
  | .print _ _, s => .ok s
  | .free _, s => .ok s
  | .malloc _ p r, s => .ok (kiMalloc p r s)

/-- `signals_check`. -/
def signalsCheck (s : Kernel) : Esito Kernel :=
  if s.esecuzione = none then .error (.perduto s)
  else if (s.des s.esecuzione).sigMask ≠ 0 then handlesignals s else .ok s

def caricaStato (s : Kernel) : Esito Kernel :=
  if s.esecuzione = none then .error (.perduto s)
  else .ok { s with tssEsp0 := (s.des s.esecuzione).stk 0 }

/-- `handlerNoCode`. Without a current process it loops for ever. -/
def handlerNoCode (s : Kernel) : Esito Kernel :=
  let s := s.logShow
  if s.esecuzione = none then .error (.halt s)
  else do
    let s ← kiTerminateP s
    caricaStato s

inductive Evento
  | chiamata (c : Chiamata)
  /-- A call number for which the table has no entry: `badSysCall` loops in the caller. -/
  | chiamataErrata
  | tick
  | tasto (code : BitVec 8)
  /-- The current process fails: a division by 0, an invalid opcode, a protection fault. -/
  | eccezione
  /-- `dummyproc` returns. -/
  | ritorno

def passo (s : Kernel) : Evento → Esito Kernel
  | .chiamata c => do
    let s ← esegui c s
    let s ← signalsCheck s
    caricaStato s
  | .chiamataErrata => .ok s.logShow
  | .tick => do
    let s ← cdriverT s
    caricaStato s
  | .tasto code => .ok (loggingKbCallback code s)
  | .eccezione => handlerNoCode s
  | .ritorno => do
    let s ← kiTerminateP s
    .error (.perduto s)

/-! ## The start -/

/-- The variables as the loader leaves them: what `sistema.cpp` does not initialize is zero. -/
structure Caricato (s : Kernel) : Prop where
  procCount : s.procCount = 0
  esecuzione : s.esecuzione = none
  pronti : s.pronti = none
  desTimer : s.desTimer = none
  vive : s.vive = []
  coda : ∀ i, (s.dessem i).coda = none
  count : ∀ i, (s.dessem i).count = 0
  rescheduler : s.rescheduler = 0

/-- `kernel_init`; `dummy` and `risu` are its local variables and `stk` the stacks allocated
for `dummyproc`. -/
def kernelInit (dummy risu : Word) (stk : Fin 3 → Word) (s : Kernel) : Esito Kernel :=
  let s := { s with
    currentPage := 0
    des := fun p => if p = none then s.des none else { s.des p with stato := .FREE }
    dessem := fun i => { s.dessem i with busy := false }
    tssEsp0 := s.link.sysStack + 4095 }
  kiActivatePLevel s.link.dummyproc 0 3000 0 dummy risu stk s

/-- The kernel functions `cmain` calls between `kernel_init` and `kernel_go`. -/
inductive Avvio
  | attiva (f h : Word) (prec level : Int) (idx risu : Word) (stk : Fin 3 → Word)
  | semIni (valore : Int) (idx risu : Word)

def avvia (s : Kernel) : Avvio → Esito Kernel
  | .attiva f h prec level idx risu stk => kiActivatePLevel f h prec level idx risu stk s
  | .semIni valore idx risu => .ok (kiSemIni valore idx risu s)

def kernelGo (s : Kernel) : Esito Kernel :=
  let s := if s.esecuzione = none then schedulatore s else s
  if s.esecuzione = none then .error (.halt s.logShow) else caricaStato s

end Pitos
