import Pitos.Kernel.Messages
import Pitos.Machine.Entry

/-!
# Exceptions

`idtSetEntry` of `klib/mylib.c` copies a piece of machine code for each vector and writes two
words into it. The bytes are decoded and executed up to the `call` of the C function; what is
behind the `call` is not reached, since `handlerNoCode` (`klib/except.cpp`) does not return. Of
this function here is what it prints: it also ends the process (`Pitos.handlerNoCode`).
-/

namespace Pitos

open Lib

abbrev Byte := BitVec 8

/-! ## The trampoline -/

abbrev TRAMPFIX : Nat := 0x19 + 5 + 1
abbrev TRAMPFIXPARAM : Nat := 0x19 + 1

def trampoline : List Byte :=
  [0x1E, 0x6, 0xF, 0xA0, 0xF, 0xA8,
    0x60,
    0x66, 0xb8, 0x10, 0x00,
    0x66, 0x8e, 0xd8,
    0x66, 0x8e, 0xc0,
    0x66, 0x8e, 0xe0,
    0x66, 0x8e, 0xe8,
    0xfc,
    0x54,
    0x68, 0x0, 0x0, 0x0, 0x0,
    0xb8, 0x0, 0x0, 0x0, 0x0,
    0xff, 0xd0,
    0x58, 0x58,
    0x61,
    0x0f, 0xa9, 0xf, 0xa1, 0x7, 0x1f,
    0xcf]

/-- `*((long*) &buf[off]) = w`. -/
def scriviLong (buf : List Byte) (off : Nat) (w : Word) : List Byte :=
  (((buf.set off (w.extractLsb' 0 8)).set (off + 1) (w.extractLsb' 8 8)).set (off + 2)
    (w.extractLsb' 16 8)).set (off + 3) (w.extractLsb' 24 8)

/-- The code to which the entries of `idt` lead. -/
abbrev Idt := Nat → Option (List Byte)

def idtSetEntry (idx : Int) (fx : Word) (idt : Idt) : Idt :=
  if idx < 0 ∨ idx ≥ 256 then idt
  else
    let buf := scriviLong trampoline TRAMPFIX fx
    let buf := scriviLong buf TRAMPFIXPARAM (BitVec.ofInt 32 idx)
    Function.update idt idx.toNat (some buf)

/-- `fx` is the address of `handlerNoCode`. -/
def exceptionsInstall (fx : Word) (idt : Idt) : Idt :=
  (List.range 20).foldl
    (fun (idt : Idt) (i : Nat) => if i ≠ 15 then idtSetEntry i fx idt else idt) idt

/-! ## Its instructions -/

inductive Istruzione
  | pushDs | pushEs | pushFs | pushGs | pusha
  | movAx (v : BitVec 16)
  | movDsAx | movEsAx | movFsAx | movGsAx
  | cld | pushEsp
  | push (v : Word)
  | movEax (v : Word)
  | callEax

/-- The instructions up to the `call`. -/
def decodifica : List Byte → Option (List Istruzione)
  | 0x1E :: bs => (decodifica bs).map (.pushDs :: ·)
  | 0x06 :: bs => (decodifica bs).map (.pushEs :: ·)
  | 0x0F :: 0xA0 :: bs => (decodifica bs).map (.pushFs :: ·)
  | 0x0F :: 0xA8 :: bs => (decodifica bs).map (.pushGs :: ·)
  | 0x60 :: bs => (decodifica bs).map (.pusha :: ·)
  | 0x66 :: 0xB8 :: a :: b :: bs => (decodifica bs).map (.movAx (b ++ a) :: ·)
  | 0x66 :: 0x8E :: 0xD8 :: bs => (decodifica bs).map (.movDsAx :: ·)
  | 0x66 :: 0x8E :: 0xC0 :: bs => (decodifica bs).map (.movEsAx :: ·)
  | 0x66 :: 0x8E :: 0xE0 :: bs => (decodifica bs).map (.movFsAx :: ·)
  | 0x66 :: 0x8E :: 0xE8 :: bs => (decodifica bs).map (.movGsAx :: ·)
  | 0xFC :: bs => (decodifica bs).map (.cld :: ·)
  | 0x54 :: bs => (decodifica bs).map (.pushEsp :: ·)
  | 0x68 :: a :: b :: c :: d :: bs => (decodifica bs).map (.push (d ++ c ++ b ++ a) :: ·)
  | 0xB8 :: a :: b :: c :: d :: bs => (decodifica bs).map (.movEax (d ++ c ++ b ++ a) :: ·)
  | 0xFF :: 0xD0 :: _ => some [.callEax]
  | _ => none

namespace Macchina

/-- The frame of an exception, with an error code or without. -/
def eccezione (m : Macchina) (codice : Option Word) : Macchina :=
  match codice with
  | some c => m.interruzione.push c
  | none => m.interruzione

/-- `pusha`: `ESP` is pushed as it was before. -/
def pusha (m : Macchina) : Macchina :=
  let r := m.reg
  (((((((m.push r.eax).push r.ecx).push r.edx).push r.ebx).push r.esp).push r.ebp).push r.esi).push
    r.edi

/-- The direction flag is cleared. -/
def cld (m : Macchina) : Macchina :=
  { m with reg := { m.reg with eflags := m.reg.eflags &&& ~~~(1 <<< 10 : Word) } }

/-- One instruction; `ritorno` is the address behind the `call`. -/
def esegue (ritorno : Word) (m : Macchina) : Istruzione → Macchina
  | .pushDs => m.push (estesa m.reg.ds)
  | .pushEs => m.push (estesa m.reg.es)
  | .pushFs => m.push (estesa m.reg.fs)
  | .pushGs => m.push (estesa m.reg.gs)
  | .pusha => m.pusha
  | .movAx v => { m with reg := { m.reg with eax := alta m.reg.eax ++ v } }
  | .movDsAx => { m with reg := { m.reg with ds := bassa m.reg.eax } }
  | .movEsAx => { m with reg := { m.reg with es := bassa m.reg.eax } }
  | .movFsAx => { m with reg := { m.reg with fs := bassa m.reg.eax } }
  | .movGsAx => { m with reg := { m.reg with gs := bassa m.reg.eax } }
  | .cld => m.cld
  | .pushEsp => m.push m.reg.esp
  | .push v => m.push v
  | .movEax v => { m with reg := { m.reg with eax := v } }
  | .callEax =>
    let c := m.push ritorno
    { c with reg := { c.reg with eip := m.reg.eax } }

/-- From the code of the vector to the first instruction of the C function. -/
def trampolino (m : Macchina) (ritorno : Word) (buf : List Byte) : Option Macchina :=
  (decodifica buf).map fun is => is.foldl (esegue ritorno) m

end Macchina

/-! ## The report -/

structure CpuException where
  desc : String
  errorCode : Int

def handlerText : Fin 20 → CpuException :=
  ![⟨"Division By 0", 0⟩, ⟨"Debug Exception", 0⟩, ⟨"NMI", 0⟩, ⟨"BreakPoint", 0⟩, ⟨"Overflow", 0⟩,
    ⟨"BOUND", 0⟩, ⟨"Invalid OPCODE", 0⟩, ⟨"Device Not Available", 0⟩,
    ⟨"Double Fault Exception", 0⟩, ⟨"Coprocessor Segment Overrun", 0⟩, ⟨"Invalid TSS", 1⟩,
    ⟨"Segment Not Present", 1⟩, ⟨"Stack Fault Exception", 1⟩,
    ⟨"General Protection Exception", 1⟩, ⟨"Page Fault", 1⟩, ⟨"??", 0⟩, ⟨"FPU Exception", 0⟩,
    ⟨"Alignment Check Exception", 1⟩, ⟨"Machine Check Exception", 0⟩, ⟨"SIMD FP Exception", 0⟩]

structure Opcode where
  code : Byte
  mask : Byte
  desc : String

def opcodes : List Opcode :=
  [⟨0xFA, 0xFF, "cli"⟩, ⟨0xE4, 0xF6, "in"⟩, ⟨0xE6, 0xF6, "out"⟩, ⟨0xFB, 0xFF, "sti"⟩,
    ⟨0xCF, 0xFF, "iret"⟩, ⟨0xC2, 0xF6, "ret"⟩]

def findopcode (c : Byte) : String :=
  ((opcodes.find? fun o => c &&& o.mask = o.code).map Opcode.desc).getD "?"

/-- What `handlerNoCode` prints, and the address at which it has looked for an opcode. -/
structure Rapporto where
  testo : List Char
  letto : Option Word
  opcode : Option (List Char)

def testoEccezione (h : Fin 20) (cs eip : Word) : List Char :=
  sprintf "EXC %d: %s: %04x:%08x"
    [.intero (BitVec.ofNat 32 h), .stringa (handlerText h).desc.toList, .intero cs, .intero eip]

/-- `handlerNoCode` with the arguments `h` and `esp`, in the memory `x`. -/
def rapporto (h : Fin 20) (esp : Word) (x : Mem) : Rapporto :=
  let parola (i : Nat) := x.read32 (esp + BitVec.ofNat 32 (4 * i))
  let p := parola 13
  let guarda : Bool := h = 6 ∨ h = 13
  { testo := testoEccezione h (parola 14) (parola 13)
    letto := if guarda then some p else none
    opcode :=
      if guarda then
        some (sprintf "OPCODE %02x %s"
          [.intero ((x p).setWidth 32), .stringa (findopcode (x p)).toList])
      else none }

end Pitos
