import Pitos.Kernel.Queues

/-!
# Activation and termination of processes

`ki_activate_p_level` and `ki_terminate_p` (`klib/sistema.cpp`). The three stacks come from
`alloca_stack`, which returns the top of a block of the kernel heap; the addresses it returned
are the argument `stk`. The reference parameters `idx` and `risu` are addresses of variables
of the caller.
-/

namespace Pitos

open Lib

/-- `clamp(r, low, hi)` of `util.h`. -/
def clamp (r low hi : Int) : Int :=
  let r := if r < low then low else r
  if r > hi then hi else r

namespace Kernel

/-- The search for a free process: the first `FREE` element of `desproc`. -/
def cercaLibero (s : Kernel) : DesPtr :=
  (List.finRange MAXPROCS).find? fun i => (s.des (some i)).stato = .FREE

/-- The words `ki_activate_p_level` puts on the new stacks: on the system stack a frame for
`iret`, on the user stack of a process of level 3 the return address and the parameter. -/
def pilaIniziale (s : Kernel) (f h : Word) (level : Int) (stk : Fin 3 → Word) : Mem :=
  let esp := stk 0 - 20
  if level = 3 then
    let userstack := stk 2 - 8
    let m := s.mem.write32 userstack s.link.terminateP
    let m := m.write32 (userstack + 4) h
    let m := m.write32 esp f
    let m := m.write32 (esp + 4) USERCODESEL
    let m := m.write32 (esp + 8) (1 <<< 9)
    let m := m.write32 (esp + 12) userstack
    m.write32 (esp + 16) USERDSSEL
  else
    let m := s.mem.write32 esp f
    let m := m.write32 (esp + 4) SYSTEMCODESEL
    let m := m.write32 (esp + 8) (1 <<< 9)
    let m := m.write32 (esp + 12) s.link.kiTerminateP
    m.write32 (esp + 16) h

/-- `log_show()`. -/
def logShow (s : Kernel) : Kernel := { s with currentPage := 2 }

end Kernel

/-- The registers of a new process. Only the slots named here are written. -/
def registriIniziali (esp : Word) (context : Fin NUMREG → Word) : Fin NUMREG → Word :=
  let c := Function.update context iESP esp
  let c := Function.update c iDS USERDSSEL
  let c := Function.update c iES USERDSSEL
  let c := Function.update c iGS USERDSSEL
  let c := Function.update c iFS USERDSSEL
  Function.update c 0 0x100

/-- The stacks and the descriptor of the new process `p`. -/
def Kernel.prepara (s : Kernel) (p : DesPtr) (f h : Word) (prec level : Int)
    (stk : Fin 3 → Word) : Kernel :=
  let s := s.aggiorna p fun d => { d with stk, next := none, stato := .PRONTO }
  let s := { s with mem := s.pilaIniziale f h level stk }
  s.aggiorna p fun d =>
    { d with
      context := registriIniziali (stk 0 - 20) d.context
      prec, baseprec := prec
      tick := 0
      tickTotal := 0
      sigMask := 0
      sigHandlers := fun _ => 0 }

def kiActivatePLevel (f h : Word) (prec level : Int) (idx risu : Word) (stk : Fin 3 → Word)
    (s : Kernel) : Esito Kernel := do
  let level := clamp level 0 3
  if s.procCount = MAXPROCS then
    return { s with mem := s.mem.write8 risu 0 }
  let s := { s with procCount := int32 (s.procCount + 1) }
  let p := s.cercaLibero
  let s := match p with
    | some i => { s with mem := s.mem.write32 idx (BitVec.ofNat 32 i) }
    | none => s
  let s ← (s.prepara p f h prec level stk).inserisciPronti p
  return { s with mem := s.mem.write8 risu 1 }

def kiActivateP (f h : Word) (prec : Int) (idx risu : Word) (stk : Fin 3 → Word) :
    Kernel → Esito Kernel :=
  kiActivatePLevel f h prec 3 idx risu stk

/-- The stacks are not given back: the call of `dealloca_stack` is commented out. -/
def kiTerminateP (s : Kernel) : Esito Kernel :=
  let s := s.aggiorna s.esecuzione fun d => { d with stato := .FREE }
  let s := { s with procCount := int32 (s.procCount - 1) }
  if s.pronti = none then .error (.halt s.logShow) else .ok (schedulatore s)

end Pitos
