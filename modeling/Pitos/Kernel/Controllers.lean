import Pitos.Lib.Memory

/-!
# The interrupt controllers

`8259.c` over two controllers as their ports show them: a byte at the first port with bit 4 set
starts the initialization, and the words that it announces are taken from the second port before
that port is the mask register again.
-/

namespace Pitos

open Lib

namespace I8259

abbrev IRQ0M : BitVec 8 := 0x20
abbrev IRQ0S : BitVec 8 := 0x28
abbrev MASTER : BitVec 16 := 0x20
abbrev SLAVE : BitVec 16 := 0xA0

/-- `attese` is the number of initialization words still to come. -/
structure Controllore where
  imr : BitVec 8
  attese : Nat
  deriving DecidableEq

/-- The first word says with bit 1 that there is no third one and with bit 0 that there is a
fourth one. -/
def Controllore.comando (c : Controllore) (v : BitVec 8) : Controllore :=
  if v &&& 0x10 ≠ 0 then
    { imr := 0, attese := 1 + (if v &&& 2 = 0 then 1 else 0) + if v &&& 1 = 0 then 0 else 1 }
  else c

def Controllore.dato (c : Controllore) (v : BitVec 8) : Controllore :=
  if c.attese = 0 then { c with imr := v } else { c with attese := c.attese - 1 }

structure Controllori where
  master : Controllore
  slave : Controllore
  deriving DecidableEq

namespace Controllori

variable (s : Controllori)

def outb (port : BitVec 16) (v : BitVec 8) : Controllori :=
  if port = MASTER then { s with master := s.master.comando v }
  else if port = MASTER + 1 then { s with master := s.master.dato v }
  else if port = SLAVE then { s with slave := s.slave.comando v }
  else if port = SLAVE + 1 then { s with slave := s.slave.dato v }
  else s

/-- Only the mask registers are read. -/
def inb (port : BitVec 16) : BitVec 8 :=
  if port = SLAVE + 1 then s.slave.imr else s.master.imr

def i8259Init : Controllori :=
  let s := s.outb 0x21 0xFF
  let s := s.outb 0xA1 0xFF
  let s := s.outb 0x20 0x11
  let s := s.outb 0x21 IRQ0M
  let s := s.outb 0x21 4
  let s := s.outb 0x21 1
  let s := s.outb 0xA0 0x11
  let s := s.outb 0xA1 IRQ0S
  let s := s.outb 0xA1 2
  let s := s.outb 0xA1 1
  let s := s.outb 0xA1 0xFF
  s.outb 0x21 0xFF

/-- `irq > 8 ? SLAVE+1 : MASTER+1` -/
def porta (irq : Word) : BitVec 16 := if (8 : Word).slt irq then SLAVE + 1 else MASTER + 1

def i8259Mask (irq : Word) : Controllori :=
  s.outb (porta irq)
    (((s.inb (porta irq)).setWidth 32 ||| (1 : Word) <<< (irq &&& 7)).setWidth 8)

def i8259Unmask (irq : Word) : Controllori :=
  s.outb (porta irq)
    (((s.inb (porta irq)).setWidth 32 &&& ~~~((1 : Word) <<< (irq &&& 7))).setWidth 8)

end Controllori

end I8259

end Pitos
