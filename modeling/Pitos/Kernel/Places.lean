import Mathlib.Algebra.BigOperators.Fin
import Pitos.Kernel.Events
import Pitos.Lib.Linked

/-!
# Where a process is

What can be seen by following the pointers of a kernel state: which processes stand in
`pronti`, in the queue of a semaphore and in the timer queue. `Luoghi s` holds all the lists at
once; that it exists says that every chain of `next` and `pric` ends. `caricato` is a loaded
image with all variables zero, the start of the runs that are evaluated.
-/

namespace Pitos

open Lib

namespace Kernel

/-- The descriptor is in use. -/
def Vivo (s : Kernel) (p : Pid) : Prop := (s.des (some p)).stato ≠ .FREE

instance (s : Kernel) (p : Pid) : Decidable (s.Vivo p) := inferInstanceAs (Decidable (_ ≠ _))

/-- `p` stands in the list `pronti`. -/
def InPronti (s : Kernel) (p : Pid) : Prop := ∃ l, Linked (successore s.des) s.pronti l ∧ p ∈ l

/-- The lists of a kernel state. -/
structure Luoghi (s : Kernel) where
  pronti : List Pid
  code : Fin MAXSEMS → List Pid
  timer : List Addr
  pronti_linked : Linked (successore s.des) s.pronti pronti
  code_linked : ∀ i, Linked (successore s.des) (s.dessem i).coda (code i)
  timer_linked : Linked s.pric s.desTimer timer

/-- How often `p` is found: on the CPU, in `pronti`, in the queue of a semaphore, or as the
`proc` of a request of the timer queue. -/
def Luoghi.volte {s : Kernel} (L : s.Luoghi) (p : Pid) : Nat :=
  s.esecuzione.toList.count p + L.pronti.count p + ∑ i, (L.code i).count p +
    L.timer.countP fun z => (s.ric z).proc = some p

end Kernel

/-- Addresses the linker may give. -/
def collegato : Link where
  dummyproc := 0x30100
  terminateP := 0x30200
  kiTerminateP := 0x30300
  signalrespin := 0x30400
  osName := 0x30500
  desproc := 0x34000
  sysStack := 0x33000

/-- A loaded image. -/
def caricato : Kernel where
  link := collegato
  procCount := 0
  des := fun _ => ⟨fun _ => 0, fun _ => 0, 0, 0, 0, none, .PRONTO, 0, 0, fun _ => 0⟩
  dessem := fun _ => ⟨none, 0, false⟩
  esecuzione := none
  pronti := none
  desTimer := none
  ric := fun _ => ⟨none, none, 0⟩
  vive := []
  rescheduler := 0
  tssEsp0 := 0
  mem := fun _ => 0
  kbChanged := 0
  kbLast := 0
  currentPage := 0

theorem caricato_caricato : Caricato caricato :=
  ⟨rfl, rfl, rfl, rfl, rfl, fun _ => rfl, fun _ => rfl, rfl⟩

/-- The state a path leaves. -/
def dopo (x : Esito Kernel) : Kernel :=
  match x with
  | .ok s => s
  | .error _ => caricato

def riesce (x : Esito Kernel) : Bool :=
  match x with
  | .ok _ => true
  | .error _ => false

theorem dopo_eq {x : Esito Kernel} (h : riesce x = true) : x = .ok (dopo x) := by
  cases x with
  | ok s => rfl
  | error e => cases h

/-- Three stacks, `4096` bytes apart. -/
def pila (a : Word) : Fin 3 → Word := fun i => a + BitVec.ofNat 32 (4096 * i)

end Pitos
