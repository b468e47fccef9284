import Pitos.Kernel.Events
import Pitos.Lib.Strings

/-!
# Strings for the caller

`itoa` of `mylib.c` over the caller's memory, and the loop of `ki_sysGetOsName` with the addresses
that it reads and writes. The text that the latter sends to the log first has a buffer of 200 bytes
and is left out.
-/

namespace Pitos

open Lib

/-! ## `itoa` -/

namespace Itoa

/-- The size of `tmp`. -/
abbrev TMP : Nat := 33

/-- The digits so far are at the indices below `tp`. -/
structure Temporaneo where
  tmp : Nat → BitVec 8
  tp : Nat

def cifra (i : Word) : BitVec 8 :=
  if i.slt 10 then (i + 0x30).setWidth 8 else (i + 0x61 - 10).setWidth 8

/-- The loop that takes the digits off `v`, with the characters left in `tmp`; `none` is a digit
beyond its end. -/
def estrai (radix : Word) : Nat → Word → Temporaneo → Option Temporaneo
  | spazio, v, t =>
    if v ≠ 0 ∨ t.tp = 0 then
      match spazio with
      | 0 => none
      | n + 1 =>
        estrai radix n (v / radix)
          { tmp := Function.update t.tmp t.tp (cifra (v % radix)), tp := t.tp + 1 }
    else some t

/-- `while (tp > tmp) *sp++ = *--tp;` -/
def rovescia (tmp : Nat → BitVec 8) : Nat → Mem → Word → Mem × Word
  | 0, m, sp => (m, sp)
  | tp + 1, m, sp => rovescia tmp tp (m.write8 sp (tmp tp)) (sp + 1)

end Itoa

open Itoa in
/-- What is returned and the memory; `none` if `tmp` is overrun. `iniziale` is what `tmp` holds
before. -/
def itoa (iniziale : Nat → BitVec 8) (value string radix : Word) (m : Mem) : Option (Word × Mem) :=
  if (36 : Word).slt radix ∨ radix.sle 1 then some (0, m)
  else
    let sign := radix = 10 ∧ value.slt 0
    let v := if sign then -value else value
    (estrai radix TMP v { tmp := iniziale, tp := 0 }).map fun t =>
      if string = 0 then (0, m)
      else
        let (m, sp) := if sign then (m.write8 string 0x2D, string + 1) else (m, string)
        let (m, sp) := rovescia t.tmp t.tp m sp
        (string, m.write8 sp 0)

/-! ## `ki_sysGetOsName` -/

namespace OsName

/-- The characters of the literal before its `NUL`. -/
def nome : List (BitVec 8) :=
  [0x4D, 0x4F, 0x50, 0x50, 0x45, 0x20, 0x4F, 0x50, 0x53, 0x20, 0x53, 0x59, 0x53]

/-- The memory, and the addresses read and written so far. -/
structure Accessi where
  mem : Mem
  letti : List Word
  scritti : List Word

/-- `while(--len) *p++ = *s++;` and where it leaves `p`; `none` if it has not ended after so many
tests. -/
def ciclo : Nat → Accessi → Word → Word → Word → Option (Accessi × Word)
  | 0, _, _, _, _ => none
  | n + 1, a, p, s, len =>
    let len := len - 1
    if len = 0 then some (a, p)
    else
      ciclo n
        { mem := a.mem.write8 p (a.mem s), letti := a.letti ++ [s], scritti := a.scritti ++ [p] }
        (p + 1) (s + 1) len

/-- The call, with the literal at `s`. -/
def accessi (m : Mem) (p s : Word) (len : Int) : Option Accessi :=
  if len = 0 ∨ p = 0 then some { mem := m, letti := [], scritti := [] }
  else
    (ciclo (2 ^ 32) { mem := m, letti := [], scritti := [] } p s (BitVec.ofInt 32 len)).map
      fun (a, p) => { a with mem := a.mem.write8 p 0, scritti := a.scritti ++ [p] }

end OsName

end Pitos
