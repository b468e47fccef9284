import Pitos.Kernel.Queues

/-!
# Semaphores

`ki_sem_ini`, `ki_sem_wait` and `ki_sem_signal` (`klib/sistema.cpp`).
-/

namespace Pitos

open Lib

/-- `inRange(hsem, 0, MAXSEMS-1)` and the element of `dessem` it selects. -/
def maniglia (hsem : Int) : Option (Fin MAXSEMS) :=
  if h : 0 ≤ hsem ∧ hsem ≤ MAXSEMS - 1 then some ⟨hsem.toNat, by omega⟩ else none

namespace Kernel

/-- An assignment to `dessem[i].count`. -/
def setCount (s : Kernel) (i : Fin MAXSEMS) (c : Int) : Kernel :=
  { s with dessem := Function.update s.dessem i { s.dessem i with count := c } }

/-- What the search of `ki_sem_ini` leaves in `p`: it goes on after a hit, so the last
semaphore that is not busy. -/
def cercaSem (s : Kernel) : Option (Fin MAXSEMS) :=
  (List.finRange MAXSEMS).foldl (fun p i => if (s.dessem i).busy then p else some i) none

end Kernel

def kiSemWait (hsem : Int) (s : Kernel) : Esito Kernel := do
  match maniglia hsem with
  | none => return s
  | some i =>
    let s := s.setCount i (int32 ((s.dessem i).count - 1))
    if (s.dessem i).count < 0 then
      let s ← s.inserisciSem i s.esecuzione
      return schedulatore s
    return s

def kiSemSignal (hsem : Int) (s : Kernel) : Esito Kernel := do
  match maniglia hsem with
  | none => return s
  | some i =>
    let s := s.setCount i (int32 ((s.dessem i).count + 1))
    if (s.dessem i).count ≤ 0 then
      let (des, coda, lavoro) := rimozioneCoda s.des (s.dessem i).coda
      let s := { s with des, dessem := Function.update s.dessem i { s.dessem i with coda } }
      if (s.des lavoro).prec ≤ (s.des s.esecuzione).prec then
        let s ← s.inserisciPronti s.esecuzione
        let s := { s with esecuzione := lavoro }
        return s.aggiorna s.esecuzione fun d => { d with stato := .PRONTO }
      s.inserisciPronti lavoro
    else return s

/-- On success `risu` is not assigned. -/
def kiSemIni (valore : Int) (idx risu : Word) (s : Kernel) : Kernel :=
  match s.cercaSem with
  | none => { s with mem := s.mem.write8 risu 0 }
  | some i =>
    { s with
      mem := s.mem.write32 idx (BitVec.ofNat 32 i)
      dessem := Function.update s.dessem i { coda := none, count := valore, busy := true } }

end Pitos
