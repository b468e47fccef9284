import Pitos.Kernel.Signals

/-!
# Waiting for a key

`kb_waitkey` of `mylib.c` in callback mode, one read or write of `kb_changed` and `kb_last` at a
time. The handler runs with interrupts off, so the whole of `loggingKbCallback` comes between two
steps of the loop. Beside the kernel are the scan codes that arrived and what the calls returned.
-/

namespace Pitos

open Lib

namespace Tastiera

/-- What the program does next: nothing to do with the keyboard, the test of `kb_changed`, the
write that clears it, the test of `kb_last`, the read of `kb_last` that is returned. -/
inductive Punto
  | fuori | prova | azzera | controlla | restituisce
  deriving DecidableEq, Repr

/-- `resi` has for every return the number of scan codes that had arrived at its last read of
`kb_last`, and the value. -/
structure Attesa where
  kernel : Kernel
  punto : Punto
  arrivati : List (BitVec 8)
  resi : List (Nat × Word)

/-- `kb_last`, an `int`. -/
def Attesa.ultimo (s : Attesa) : Word := BitVec.ofInt 32 s.kernel.kbLast

inductive Evento
  | tasto (code : BitVec 8)
  /-- The program calls `kb_waitkey`. -/
  | chiama
  /-- One step of the call. -/
  | avanza
  deriving DecidableEq

def tasto (s : Attesa) (code : BitVec 8) : Attesa :=
  { s with kernel := loggingKbCallback code s.kernel, arrivati := s.arrivati ++ [code] }

def avanza (s : Attesa) : Option Attesa :=
  match s.punto with
  | .fuori => none
  | .prova => some (if s.kernel.kbChanged = 1 then { s with punto := .azzera } else s)
  | .azzera => some { s with kernel := { s.kernel with kbChanged := 0 }, punto := .controlla }
  | .controlla =>
    some { s with punto := if s.ultimo &&& 0x80 = 0x80 then .restituisce else .prova }
  | .restituisce =>
    some { s with punto := .fuori, resi := s.resi ++ [(s.arrivati.length, s.ultimo &&& 0x7F)] }

def esegui (s : Attesa) : Evento → Option Attesa
  | .tasto code => some (tasto s code)
  | .chiama => if s.punto = .fuori then some { s with punto := .prova } else none
  | .avanza => avanza s

end Tastiera

end Pitos
