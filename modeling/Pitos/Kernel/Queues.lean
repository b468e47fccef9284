import Pitos.Kernel.State
import Pitos.Lib.PriorityInsert

/-!
# Process queues and the scheduler

`inserimento_coda` and `rimozione_coda` (`klib/sistema.cpp`), `schedulatore` and `reschedule`
(`klib/schedule.cpp`). A queue is a head pointer passed by reference, so the queue operations
take the descriptors and the head and return both. A walk visits at most `MAXPROCS`
descriptors unless the links form a cycle; on a cycle it never ends and the answer is `none`.
-/

namespace Pitos

open Lib

/-- `p->next = n`. -/
def setNext (des : DesMem) (p n : DesPtr) : DesMem :=
  Function.update des p { des p with next := n }

def inserimentoCoda (des : DesMem) (coda p : DesPtr) : Option (DesMem × DesPtr) :=
  if p = none then some (des, coda)
  else
    match walk (passes (fun r : Pid => (des (some r)).prec) (des p).prec)
        (fun r => (des (some r)).next) (MAXPROCS + 1) () none coda with
    | none => none
    | some (_, none, r) => some (setNext des p r, p)
    | some (_, some prec, r) => some (setNext (setNext des p r) (some prec) p, coda)

/-- The descriptors, the new head and the element removed. -/
def rimozioneCoda (des : DesMem) (coda : DesPtr) : DesMem × DesPtr × DesPtr :=
  match coda with
  | none => (des, none, none)
  | some p => (setNext des (some p) none, (des (some p)).next, some p)

namespace Kernel

/-- `inserimento_coda(pronti, p)`. -/
def inserisciPronti (s : Kernel) (p : DesPtr) : Esito Kernel :=
  match inserimentoCoda s.des s.pronti p with
  | none => .error .diverge
  | some (des, coda) => .ok { s with des, pronti := coda }

/-- `inserimento_coda(dessem[i].coda, p)`. -/
def inserisciSem (s : Kernel) (i : Fin MAXSEMS) (p : DesPtr) : Esito Kernel :=
  match inserimentoCoda s.des (s.dessem i).coda p with
  | none => .error .diverge
  | some (des, coda) =>
    .ok { s with des, dessem := Function.update s.dessem i { s.dessem i with coda } }

end Kernel

def schedulatore (s : Kernel) : Kernel :=
  match s.pronti with
  | none => s
  | some p =>
    let s := if s.esecuzione ≠ none then
        s.aggiorna s.esecuzione fun d => { d with tickTotal := int32 (d.tickTotal + d.tick) }
      else s
    let s := { s with esecuzione := some p }
    let s := s.aggiorna (some p) fun d => { d with stato := .RUNNING, tick := 0 }
    let s := { s with pronti := (s.des (some p)).next }
    s.aggiorna (some p) fun d => { d with next := none }

/-- The first loop of `reschedule`: new priorities in the order of the list, which is kept in
the array `pp`. -/
def ricalcola : Nat → DesMem → DesPtr → Option (DesMem × List Pid)
  | 0, _, _ => none
  | _ + 1, des, none => some (des, [])
  | n + 1, des, some p =>
    let d := des (some p)
    let des := Function.update des (some p)
      { d with
        prec := int32 (d.baseprec + d.tickTotal.tdiv 10)
        tickTotal := 0
        stato := .PRONTO }
    match ricalcola n des d.next with
    | none => none
    | some (des, pp) => some (des, p :: pp)

/-- The second loop of `reschedule`: insert the elements of `pp` in their order. -/
def reinserisci : Kernel → List Pid → Esito Kernel
  | s, [] => .ok s
  | s, p :: pp => do
    let s ← s.inserisciPronti (some p)
    reinserisci s pp

def reschedule (s : Kernel) : Esito Kernel :=
  match ricalcola (MAXPROCS + 1) s.des s.pronti with
  | none => .error .diverge
  | some (des, pp) => reinserisci { s with des, pronti := none } pp

end Pitos
