import Mathlib.Algebra.BigOperators.Fin
import Pitos.Kernel.Events
import Pitos.Lib.DeltaQueue
import Pitos.Lib.PriorityInsert
import Pitos.Lib.Run

/-!
# The abstract kernel: processes and their places

What the kernel is for, without pointers: every live process has a place, the CPU, the ready
list, the queue of a semaphore or the timer queue, and each move of the kernel takes processes
from place to place. `Astratto` holds the places as lists; `Mossa a t b` is one move, labelled
by what it does. The entries of `Pitos.Kernel.Events` are sequences of moves
(`Pitos.Refinement`), so an invariant of the kernel is an invariant of the moves.
-/

namespace Pitos

open Lib

/-- A descriptor without its link. -/
def DesProc.slegato (d : DesProc) : DesProc := { d with next := none }

/-- `p->stato = PRONTO`. -/
def DesProc.pronto (d : DesProc) : DesProc := { d with stato := .PRONTO }

/-- `p->stato = RUNNING` with a new quantum. -/
def DesProc.avviato (d : DesProc) : DesProc := { d with stato := .RUNNING, tick := 0 }

/-- `p->tickTotal += p->tick`. -/
def DesProc.addebitato (d : DesProc) : DesProc :=
  { d with tickTotal := int32 (d.tickTotal + d.tick) }

/-- `p->tick++`. -/
def DesProc.contato (d : DesProc) : DesProc := { d with tick := int32 (d.tick + 1) }

/-- `p->stato = FREE`. -/
def DesProc.libero (d : DesProc) : DesProc := { d with stato := .FREE }

/-- `p->sig_mask |= 1 << SIGQUIT`. -/
def DesProc.chiuso (d : DesProc) : DesProc :=
  { d with sigMask := d.sigMask ||| (1 : Word) <<< SIGQUIT }

/-- The new priority given by `reschedule`. -/
def DesProc.ricalcolato (d : DesProc) : DesProc :=
  { d with
    prec := int32 (d.baseprec + d.tickTotal.tdiv 10)
    tickTotal := 0
    stato := .PRONTO }

@[simp] theorem DesProc.stato_pronto (d : DesProc) : d.pronto.stato = .PRONTO := rfl

@[simp] theorem DesProc.prec_pronto (d : DesProc) : d.pronto.prec = d.prec := rfl

@[simp] theorem DesProc.stato_avviato (d : DesProc) : d.avviato.stato = .RUNNING := rfl

@[simp] theorem DesProc.prec_avviato (d : DesProc) : d.avviato.prec = d.prec := rfl

@[simp] theorem DesProc.tick_avviato (d : DesProc) : d.avviato.tick = 0 := rfl

@[simp] theorem DesProc.stato_addebitato (d : DesProc) : d.addebitato.stato = d.stato := rfl

@[simp] theorem DesProc.prec_addebitato (d : DesProc) : d.addebitato.prec = d.prec := rfl

@[simp] theorem DesProc.tick_addebitato (d : DesProc) : d.addebitato.tick = d.tick := rfl

@[simp] theorem DesProc.stato_contato (d : DesProc) : d.contato.stato = d.stato := rfl

@[simp] theorem DesProc.prec_contato (d : DesProc) : d.contato.prec = d.prec := rfl

@[simp] theorem DesProc.stato_libero (d : DesProc) : d.libero.stato = .FREE := rfl

@[simp] theorem DesProc.prec_libero (d : DesProc) : d.libero.prec = d.prec := rfl

@[simp] theorem DesProc.stato_chiuso (d : DesProc) : d.chiuso.stato = d.stato := rfl

@[simp] theorem DesProc.stato_ricalcolato (d : DesProc) : d.ricalcolato.stato = .PRONTO := rfl

structure Semaforo where
  coda : List Pid
  count : Int
  busy : Bool

structure Astratto where
  dati : Pid → DesProc
  esecuzione : Option Pid
  pronti : List Pid
  sem : Fin MAXSEMS → Semaforo
  /-- The sleeping processes with their requests and the waits as stored. -/
  sonno : List ((Addr × Pid) × Int)
  vive : List Addr
  procCount : Int
  rescheduler : Int

/-- Insertion in the timer queue, with the arithmetic of `int`. -/
def inserisciAttesa (d : Int) (x : Addr × Pid) :
    List ((Addr × Pid) × Int) → List ((Addr × Pid) × Int)
  | [] => [(x, d)]
  | (y, e) :: l =>
    if d > e then (y, e) :: inserisciAttesa (int32 (d - e)) x l
    else (x, d) :: (y, int32 (e - d)) :: l

/-- The decrement of the first wait. -/
def scalaAttesa : List ((Addr × Pid) × Int) → List ((Addr × Pid) × Int)
  | [] => []
  | (x, e) :: l => (x, int32 (e - 1)) :: l

namespace Astratto

def prec (a : Astratto) (p : Pid) : Int := (a.dati p).prec

/-- An assignment to fields of the descriptor of `p`. -/
def aggiorna (a : Astratto) (p : Pid) (f : DesProc → DesProc) : Astratto :=
  { a with dati := Function.update a.dati p (f (a.dati p)) }

def accoda (a : Astratto) (p : Pid) : Astratto :=
  { a with pronti := insertByKey a.prec p a.pronti }

def setSem (a : Astratto) (i : Fin MAXSEMS) (x : Semaforo) : Astratto :=
  { a with sem := Function.update a.sem i x }

def setCount (a : Astratto) (i : Fin MAXSEMS) (c : Int) : Astratto :=
  a.setSem i { a.sem i with count := c }

def setProcCount (a : Astratto) (n : Int) : Astratto := { a with procCount := n }

def setRescheduler (a : Astratto) (n : Int) : Astratto := { a with rescheduler := n }

def setEsecuzione (a : Astratto) (e : Option Pid) : Astratto := { a with esecuzione := e }

def setDati (a : Astratto) (d : Pid → DesProc) : Astratto := { a with dati := d }

def setPronti (a : Astratto) (l : List Pid) : Astratto := { a with pronti := l }

def setSonno (a : Astratto) (l : List ((Addr × Pid) × Int)) (v : List Addr) : Astratto :=
  { a with sonno := l, vive := v }

def setCoda (a : Astratto) (i : Fin MAXSEMS) (l : List Pid) : Astratto :=
  a.setSem i { a.sem i with coda := l }

/-- The charge of `schedulatore` to the process that leaves the CPU. -/
def saldo (a : Astratto) : Astratto :=
  match a.esecuzione with
  | none => a
  | some e => a.aggiorna e DesProc.addebitato

/-- The CPU goes to the first ready process, when there is one. -/
def schedulatore (a : Astratto) : Astratto :=
  match a.pronti with
  | [] => a
  | p :: l =>
    ((a.saldo.aggiorna p DesProc.avviato).setEsecuzione (some p)).setPronti l

def addormenta (a : Astratto) (d : Int) (x : Addr × Pid) : Astratto :=
  a.setSonno (inserisciAttesa d x a.sonno) (x.1 :: a.vive)

/-- One request is over: its process becomes ready. -/
def sveglia (a : Astratto) (x : Addr × Pid) : Astratto :=
  ((a.aggiorna x.2 DesProc.pronto).accoda x.2).setSonno a.sonno (a.vive.erase x.1)

def svegliaTutti (a : Astratto) (l : List ((Addr × Pid) × Int)) : Astratto :=
  l.foldl (fun a r => a.sveglia r.1) a

/-- The timer part of a clock tick: the first wait is counted down and all requests whose time
has come are over, in the order of the queue. -/
def orologio (a : Astratto) : Astratto :=
  (a.setSonno (waiting (scalaAttesa a.sonno)) a.vive).svegliaTutti (ringing (scalaAttesa a.sonno))

/-- The new priorities of `reschedule`. -/
def ricalcola (a : Astratto) (p : Pid) : Astratto :=
  a.aggiorna p DesProc.ricalcolato

/-- `reschedule`: new priorities for the ready processes, which are then queued again. -/
def reschedule (a : Astratto) : Astratto :=
  let b := a.pronti.foldl ricalcola a
  b.setPronti (sortByKey b.prec a.pronti)

end Astratto

/-- The fields of a descriptor that decide about its place and its turn are the same. -/
structure StessoTurno (d d' : DesProc) : Prop where
  prec : d'.prec = d.prec
  baseprec : d'.baseprec = d.baseprec
  stato : d'.stato = d.stato
  tick : d'.tick = d.tick
  tickTotal : d'.tickTotal = d.tickTotal

theorem StessoTurno.refl (d : DesProc) : StessoTurno d d := ⟨rfl, rfl, rfl, rfl, rfl⟩

/-- The part of a descriptor that belongs to the program of the process. -/
structure StessiRegistri (d d' : DesProc) : Prop where
  context : d'.context = d.context
  stk : d'.stk = d.stk
  sigMask : d'.sigMask = d.sigMask
  sigHandlers : d'.sigHandlers = d.sigHandlers
  baseprec : d'.baseprec = d.baseprec

theorem StessiRegistri.refl (d : DesProc) : StessiRegistri d d := ⟨rfl, rfl, rfl, rfl, rfl⟩

theorem StessiRegistri.trans {d d' d'' : DesProc} (h : StessiRegistri d d')
    (h' : StessiRegistri d' d'') : StessiRegistri d d'' :=
  ⟨h'.context.trans h.context, h'.stk.trans h.stk, h'.sigMask.trans h.sigMask,
    h'.sigHandlers.trans h.sigHandlers, h'.baseprec.trans h.baseprec⟩

/-- The slot of `dummyproc`, which `kernel_init` activates first. -/
abbrev idle : Pid := 0

/-- What a move does. -/
inductive Atto
  /-- `kernel_go` gives the CPU to the first process. -/
  | parte
  /-- Registers, signal mask and handlers of the current process change. -/
  | dati
  /-- The keyboard raises `SIGQUIT` on the idle process. -/
  | chiude
  | attiva (p : Pid) (prec : Int)
  | termina (p : Pid)
  | semIni (i : Fin MAXSEMS) (valore : Int)
  /-- `ki_sem_wait` goes on. -/
  | passa (i : Fin MAXSEMS)
  /-- `ki_sem_wait` blocks its caller. -/
  | blocca (i : Fin MAXSEMS) (p : Pid)
  /-- `ki_sem_signal` wakes nobody. -/
  | libera (i : Fin MAXSEMS)
  /-- `ki_sem_signal` makes a waiter ready. -/
  | sveglia (i : Fin MAXSEMS) (q : Pid)
  /-- `ki_sem_signal` gives the CPU to a waiter. -/
  | cede (i : Fin MAXSEMS) (p q : Pid)
  | dorme (d : Int) (x : Addr × Pid)
  | orologio
  /-- One tick is charged to the current process. -/
  | conta
  | prosegue
  | prelazione
  | rischedula
  deriving DecidableEq

/-- What the end of a tick decides. -/
def Turno (t : Atto) : Prop := t = .prosegue ∨ t = .prelazione ∨ t = .rischedula

/-- One move of the kernel. The idle process makes no calls: it is not asked to block, to sleep
or to activate another. Its end is not a move: it ends the kernel, or the order of the places
that the moves keep. -/
inductive Mossa : Astratto → Atto → Astratto → Prop
  | parte {a : Astratto} (he : a.esecuzione = none) : Mossa a .parte a.schedulatore
  | dati {a : Astratto} (p : Pid) (d : DesProc) (he : a.esecuzione = some p) (hp : p ≠ idle)
      (h : StessoTurno (a.dati p) d) : Mossa a .dati (a.aggiorna p fun _ => d)
  | chiude {a : Astratto} (he : a.esecuzione = some idle) :
      Mossa a .chiude (a.aggiorna idle DesProc.chiuso)
  | attiva {a : Astratto} (p : Pid) (d : DesProc) (he : a.esecuzione ≠ some idle)
      (hfree : (a.dati p).stato = .FREE) (hstato : d.stato = .PRONTO) (htick : d.tick = 0)
      (htotal : d.tickTotal = 0)
      (hbase : d.baseprec = d.prec) (hmask : d.sigMask = 0)
      (hgestori : d.sigHandlers = fun _ => SIG_DFL) :
      Mossa a (.attiva p d.prec)
        (((a.aggiorna p fun _ => d).setProcCount (int32 (a.procCount + 1))).accoda p)
  | termina {a : Astratto} (p : Pid) (he : a.esecuzione = some p) (hp : p ≠ idle) :
      Mossa a (.termina p)
        ((a.aggiorna p DesProc.libero).setProcCount (int32 (a.procCount - 1))).schedulatore
  | semIni {a : Astratto} (i : Fin MAXSEMS) (valore : Int) (hbusy : (a.sem i).busy = false) :
      Mossa a (.semIni i valore) (a.setSem i { coda := [], count := valore, busy := true })
  | passa {a : Astratto} (i : Fin MAXSEMS) (hc : 0 ≤ int32 ((a.sem i).count - 1)) :
      Mossa a (.passa i) (a.setCount i (int32 ((a.sem i).count - 1)))
  | blocca {a : Astratto} (i : Fin MAXSEMS) (p : Pid) (he : a.esecuzione = some p)
      (hp : p ≠ idle) (hc : int32 ((a.sem i).count - 1) < 0) :
      Mossa a (.blocca i p)
        ((a.setCount i (int32 ((a.sem i).count - 1))).setCoda i
          (insertByKey a.prec p (a.sem i).coda)).schedulatore
  | libera {a : Astratto} (i : Fin MAXSEMS)
      (hc : 0 < int32 ((a.sem i).count + 1) ∨ (a.sem i).coda = []) :
      Mossa a (.libera i) (a.setCount i (int32 ((a.sem i).count + 1)))
  | sveglia {a : Astratto} (i : Fin MAXSEMS) (p q : Pid) (l : List Pid)
      (he : a.esecuzione = some p) (hc : int32 ((a.sem i).count + 1) ≤ 0)
      (hq : (a.sem i).coda = q :: l) (hprec : a.prec p < a.prec q) :
      Mossa a (.sveglia i q)
        (((a.setCount i (int32 ((a.sem i).count + 1))).setCoda i l).accoda q)
  | cede {a : Astratto} (i : Fin MAXSEMS) (p q : Pid) (l : List Pid)
      (he : a.esecuzione = some p) (hc : int32 ((a.sem i).count + 1) ≤ 0)
      (hq : (a.sem i).coda = q :: l) (hprec : a.prec q ≤ a.prec p) :
      Mossa a (.cede i p q)
        (((((a.setCount i (int32 ((a.sem i).count + 1))).setCoda i l).accoda p).setEsecuzione
          (some q)).aggiorna q DesProc.pronto)
  | dorme {a : Astratto} (d : Int) (x : Addr × Pid) (he : a.esecuzione = some x.2)
      (hp : x.2 ≠ idle) (hx : x.1 ∉ a.vive) :
      Mossa a (.dorme d x) (a.addormenta d x).schedulatore
  | orologio {a : Astratto} : Mossa a .orologio a.orologio
  | conta {a : Astratto} (p : Pid) (he : a.esecuzione = some p) :
      Mossa a .conta (a.aggiorna p DesProc.contato)
  | prosegue {a : Astratto} (p : Pid) (he : a.esecuzione = some p)
      (hr : int32 (a.rescheduler + 1) ≤ RESCHEDULER) (ht : (a.dati p).tick ≤ QUANTUM) :
      Mossa a .prosegue (a.setRescheduler (int32 (a.rescheduler + 1)))
  | prelazione {a : Astratto} (p : Pid) (he : a.esecuzione = some p)
      (hr : int32 (a.rescheduler + 1) ≤ RESCHEDULER) (ht : QUANTUM < (a.dati p).tick) :
      Mossa a .prelazione
        ((a.setRescheduler (int32 (a.rescheduler + 1))).accoda p).schedulatore
  | rischedula {a : Astratto} (p : Pid) (he : a.esecuzione = some p)
      (hr : RESCHEDULER < int32 (a.rescheduler + 1)) :
      Mossa a .rischedula
        (((a.setRescheduler 0).aggiorna p DesProc.addebitato).accoda p).reschedule.schedulatore

end Pitos
