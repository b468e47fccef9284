import Pitos.Kernel.Signals

/-!
# The timer queue and the timer interrupt

`ki_delay`, `inserimento_coda_timer` and `cdriver_t` (`klib/sistema.cpp`). A walk along the
timer queue visits each live request at most once, which bounds its length; past that bound
it never ends.
-/

namespace Pitos

open Lib

namespace Kernel

/-- An assignment to fields of the request `*a`. -/
def aggiornaRic (s : Kernel) (a : Addr) (f : Richiesta → Richiesta) : Kernel :=
  { s with ric := Function.update s.ric a (f (s.ric a)) }

/-- The test of the walk: pass a request that is due earlier and count its wait off. -/
def oltre (s : Kernel) : Int → Addr → Option Int :=
  fun d r => if d > (s.ric r).dattesa then some (int32 (d - (s.ric r).dattesa)) else none

end Kernel

def inserimentoCodaTimer (p : Addr) (s : Kernel) : Esito Kernel :=
  match walk s.oltre s.pric (s.vive.length + 1) (s.ric p).dattesa none s.desTimer with
  | none => .error .diverge
  | some (dattesa, prec, r) =>
    let s := s.aggiornaRic p fun q => { q with dattesa, pric := r }
    let s := s.aggiorna (s.ric p).proc fun d => { d with next := none }
    let s := match prec with
      | none => { s with desTimer := some p }
      | some prec => s.aggiornaRic prec fun q => { q with pric := some p }
    match r with
    | none => .ok s
    | some r =>
      .ok (s.aggiornaRic r fun q => { q with dattesa := int32 (q.dattesa - (s.ric p).dattesa) })

/-- A new request with the wait `dattesa` for the current process, which then leaves the CPU:
the body of `ki_delay` after the division. `a` is the address that `new` returns. -/
def attendi (dattesa : Int) (a : Addr) (s : Kernel) : Esito Kernel := do
  let s := { s with vive := a :: s.vive }
  let s := s.aggiornaRic a fun q => { q with dattesa, proc := s.esecuzione }
  let s ← inserimentoCodaTimer a s
  return schedulatore s

def kiDelay (n : Int) (a : Addr) : Kernel → Esito Kernel := attendi (n.tdiv 50) a

/-- The loop of `cdriver_t`: take the first request off, put its process in `pronti` and
delete the request, as long as the first wait is 0. -/
def svuotaTimer : Nat → Kernel → Esito Kernel
  | 0, _ => .error .diverge
  | n + 1, s =>
    match s.desTimer with
    | none => .ok s
    | some p =>
      if (s.ric p).dattesa = 0 then do
        let s := { s with desTimer := (s.ric p).pric }
        let s := s.aggiorna (s.ric p).proc fun d => { d with stato := .PRONTO }
        let s ← s.inserisciPronti (s.ric p).proc
        svuotaTimer n { s with vive := s.vive.erase p }
      else .ok s

/-- The part of `cdriver_t` that serves the timer queue. -/
def scadenze (s : Kernel) : Esito Kernel :=
  let s := match s.desTimer with
    | none => s
    | some p => s.aggiornaRic p fun q => { q with dattesa := int32 (q.dattesa - 1) }
  svuotaTimer (s.vive.length + 1) s

/-- The part of `cdriver_t` that charges the tick to the current process and handles a signal
pending on it. -/
def addebita (s : Kernel) : Esito Kernel :=
  let s := s.aggiorna s.esecuzione fun d => { d with tick := int32 (d.tick + 1) }
  if (s.des s.esecuzione).sigMask ≠ 0 then handlesignals s else .ok s

/-- The end of `cdriver_t`: every `RESCHEDULER` ticks new priorities for all, otherwise the
CPU is taken from a process at the end of its quantum. -/
def turno (s : Kernel) : Esito Kernel := do
  let s := { s with rescheduler := int32 (s.rescheduler + 1) }
  if s.rescheduler > RESCHEDULER then
    let s := { s with rescheduler := 0 }
    let s := s.aggiorna s.esecuzione fun d =>
      { d with tickTotal := int32 (d.tickTotal + d.tick) }
    let s ← s.inserisciPronti s.esecuzione
    let s ← reschedule s
    return schedulatore s
  else if (s.des s.esecuzione).tick > QUANTUM then
    let s ← s.inserisciPronti s.esecuzione
    return schedulatore s
  else return s

def cdriverT (s : Kernel) : Esito Kernel := do
  let s ← scadenze s
  let s ← addebita s
  turno s

end Pitos
