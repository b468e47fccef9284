import Pitos.Machine.Dispatch

/-!
# Through the kernel and back

The whole of an entry: `acdriver_t`, and `syscalle` with the return of the `ki_` function,
`signals_check` and `carica_stato`. Then what happens when the function of a process returns:
the two return addresses that `ki_activate_p_level` puts on the stacks are the user stub
`terminate_p` and the kernel function `ki_terminate_p` itself.

A C function called by the kernel has its frames on the system stack below `ESP` and leaves its
registers to chance; `carica_stato` reads none of these. What is to stay is kept apart from the
whole of that stack, and the frames are left there as in the step `residui` of `Altrui`
(`Pitos.Machine.Isolation`).
-/

namespace Pitos

open Lib

namespace Macchina

/-- The same processor over the kernel that a C function leaves. -/
def conKernel (m : Macchina) (k : Kernel) : Macchina := { m with kernel := k }

/-- `ret`. -/
def ret (m : Macchina) : Macchina := { m.scarta with reg := { m.scarta.reg with eip := m.cima } }

/-- `acdriver_t`. -/
def acdriverT (m : Macchina) : Esito Macchina := do
  let m := m.salvaStato
  let k ← cdriverT m.kernel
  return (m.conKernel k).caricaStato

/-- `signals_check`. -/
def signalsCheck (m : Macchina) : Esito Macchina := do
  let k ← Pitos.signalsCheck m.kernel
  return (m.conKernel k).caricaStato

end Macchina

/-- The name under which a call stands in the table. -/
def Chiamata.nome : Chiamata → Primitiva
  | .activateP .. => .activateP
  | .terminateP => .terminateP
  | .semIni .. => .semIni
  | .semWait .. => .semWait
  | .semSignal .. => .semSignal
  | .sysGetOsName .. => .sysGetOsName
  | .getTick .. => .getTick
  | .delay .. => .delay
  | .getPri .. => .getPri
  | .getBasepri .. => .getBasepri
  | .getPid .. => .getPid
  | .signal .. => .signal
  | .raise .. => .raise
  | .signalrespin => .signalrespin
  | .print .. => .print
  | .free .. => .free
  | .malloc .. => .malloc

/-- `int 0x30` with the number of the call `c`: `syscalle` calls its function, and after
`signals_check` the processor is in the state `m'`. -/
structure Macchina.Chiama (img : Immagine) (c : Chiamata) (m m' : Macchina) : Prop where
  arrivo : (syscalle img m.interruzione).1 = .funzione (img.ki c.nome)
  uscita : (esegui c (syscalle img m.interruzione).2.kernel >>= fun k =>
    ((syscalle img m.interruzione).2.conKernel k).signalsCheck) = .ok m'

/-! ## The end of a user stub -/

/-- A flag at its place in `EFLAGS`. -/
def flag (b : Bool) (i : Nat) : Word := if b then (1 : Word) <<< i else 0

/-- The even number of ones that the parity flag is about. -/
def pari (r : Word) : Bool := (List.range 8).countP (fun i => r.getLsbD i) % 2 = 0

/-- `EFLAGS` after `add`: carry, parity, auxiliary carry, zero, sign and overflow. -/
def addEflags (eflags a b : Word) : Word :=
  let r := a + b
  (eflags &&& ~~~0x8D5) ||| flag (2 ^ 32 ≤ a.toNat + b.toNat) 0 ||| flag (pari r) 2 |||
    flag (16 ≤ a.toNat % 16 + b.toNat % 16) 4 ||| flag (r = 0) 6 ||| flag r.msb 7 |||
    flag (a.msb = b.msb ∧ r.msb ≠ a.msb) 11

/-- `add esp, 4`. -/
def Macchina.addEsp4 (m : Macchina) : Macchina :=
  { m with reg := { m.reg with
    esp := m.reg.esp + 4, eflags := addEflags m.reg.eflags m.reg.esp 4 } }

/-! ## The return of the function of a process -/

/-- Where control goes once `ki_terminate_p` has been executed. -/
inductive Destino
  /-- The kernel halts. -/
  | fermo
  /-- `carica_stato` has loaded the registers of the current process. -/
  | carica (m : Macchina)
  /-- At `eip`, with the stack pointer `esp` on the stack of the process that has ended. -/
  | prosegue (eip esp : Word)

/-- The end of `ki_terminate_p` when `syscalle` has called it. -/
def Destino.daSyscalle (m : Macchina) : Option Destino :=
  match kiTerminateP m.kernel >>= fun k => (m.conKernel k).signalsCheck with
  | .ok m => some (.carica m)
  | .error (.halt _) => some .fermo
  | .error _ => none

/-- The end of `ki_terminate_p` when `ret` has led to it: it returns itself. -/
def Destino.daRet (m : Macchina) : Option Destino :=
  match kiTerminateP m.kernel with
  | .ok k => some (.prosegue (m.conKernel k).ret.reg.eip (m.conKernel k).ret.reg.esp)
  | .error (.halt _) => some .fermo
  | .error _ => none

/-- `ret` at the end of the function of a process. The stub `terminate_p` is the user code
`push dword 1; int 0x30`, the interrupt returns to `dopoInt`. Other return addresses, and other
functions in the table, are not followed. -/
def Macchina.ritorno (img : Immagine) (dopoInt : Word) (m : Macchina) : Option Destino :=
  let link := m.kernel.link
  let m := m.ret
  if m.reg.eip = link.terminateP then
    match syscalle img (m.stub 1 dopoInt).interruzione with
    | (.funzione f, m) => if f = link.kiTerminateP then Destino.daSyscalle m else none
    | (.badSysCall, _) => none
  else if m.reg.eip = link.kiTerminateP then Destino.daRet m
  else none

/-- The system stack and the user stack, of 4096 bytes each, have no byte in common. -/
def PileSeparate (stk : Fin 3 → Word) : Prop :=
  ∀ b, Mem.Within (stk 0 - 4096) 4096 b → ¬ Mem.Within (stk 2 - 4096) 4096 b

/-- The function of the process is about to return: the stack pointer is where it was at the
entry `i`, and the return address has not been touched. -/
structure Macchina.Ritorna (i r : Macchina) : Prop where
  esp : r.reg.esp = i.reg.esp
  cs : r.reg.cs = i.reg.cs
  cima : r.cima = i.cima
  link : r.kernel.link = i.kernel.link

end Pitos
