import Pitos.Lib.Descriptors
import Pitos.Machine.Exceptions

/-!
# The descriptor tables

`amain` of `pmode/pmsetup2.s` and the functions of `klib/mylib.c` that write entries of `idt`, up to
the end of `kernel_init`. The addresses of the code and of `_TSS` are those of the linker.
-/

namespace Pitos

open Lib

structure Indirizzi where
  ignoreInt : Word
  syscalle : Word
  acdriverT : Word
  handlerNoCode : Word
  loggingKbCallback : Word
  idtTramps : Word
  tss : Word

structure IdtEntry where
  l : Word
  h : Word
  deriving DecidableEq

/-- `idt`, `gdt`, and the code in `idtTramps`. -/
structure Tabelle where
  idt : Nat → IdtEntry
  gdt : Nat → BitVec 64
  tramps : Idt

/-! ## `pmsetup2.s` -/

/-- The loop of `idtSetup`; `edi` counts entries. -/
def idtSetupT (e : IdtEntry) : Nat → Nat → (Nat → IdtEntry) → Nat → IdtEntry
  | 0, _, idt => idt
  | ecx + 1, edi, idt => idtSetupT e ecx (edi + 1) (Function.update idt edi e)

/-- `eax` is what the register holds at the call. -/
def idtSetup (ind : Indirizzi) (eax : Word) (idt : Nat → IdtEntry) : Nat → IdtEntry :=
  let edx := ind.ignoreInt
  let eax := alta eax ++ (8 : BitVec 16)
  let eax := eax <<< 16
  let eax := alta eax ++ bassa edx
  let edx := alta edx ++ (0x8E00 : BitVec 16)
  idtSetupT { l := eax, h := edx } 256 0 idt

/-- A table in memory is written byte by byte, the lowest first. -/
def scriviByte (d : BitVec 64) (off : Nat) (b : BitVec 8) : BitVec 64 :=
  (d &&& ~~~((0xFF : BitVec 64) <<< (8 * off))) ||| (b.setWidth 64 <<< (8 * off))

def scriviWord (d : BitVec 64) (off : Nat) (w : BitVec 16) : BitVec 64 :=
  scriviByte (scriviByte d off (w.extractLsb' 0 8)) (off + 1) (w.extractLsb' 8 8)

/-- `gdt` as it is assembled, with `dtss` as its sixth entry. -/
def gdtIniziale : Nat → BitVec 64
  | 1 => 0x00cf9a000000FFFF
  | 2 => 0x00cf92000000FFFF
  | 3 => 0x00cfFa000000FFFF
  | 4 => 0x00cfF2000000FFFF
  | 5 => 0x0000E90000000069
  | _ => 0

def dtssIndirizzo (d : BitVec 64) (tss : Word) : BitVec 64 :=
  let eax := tss
  let d := scriviWord d 2 (bassa eax)
  let eax := eax >>> 16
  let d := scriviByte d 4 (eax.extractLsb' 0 8)
  scriviByte d 7 (eax.extractLsb' 8 8)

/-- What `ltr` takes: only `al` is set before, and `ah` still has the highest byte of `_TSS`. -/
def selettoreTr (tss : Word) : Selettore := bassa (((tss >>> 16) &&& ~~~(0xFF : Word)) ||| 0x28)

/-- `ltr` sets the busy bit of the descriptor. -/
def ltr (sel : Selettore) (gdt : Nat → BitVec 64) : Nat → BitVec 64 :=
  Function.update gdt (sel >>> 3).toNat (gdt (sel >>> 3).toNat ||| (2 : BitVec 64) <<< 40)

/-- Up to the jump to `cmain`. -/
def amain (ind : Indirizzi) (eax : Word) : Tabelle where
  idt := idtSetup ind eax fun _ => { l := 0, h := 0 }
  gdt := ltr (selettoreTr ind.tss)
    (Function.update gdtIniziale 5 (dtssIndirizzo (gdtIniziale 5) ind.tss))
  tramps := fun _ => none

/-! ## `mylib.c` -/

namespace Tabelle

variable (ind : Indirizzi) (t : Tabelle)

/-- `idx` is not checked. -/
def idtSetEntryAsm (idx : Nat) (fx level : Word) : Tabelle :=
  { t with
    idt := Function.update t.idt idx
      { l := 0x80000 ||| (fx &&& 0xFFFF)
        h := (fx &&& 0xFFFF0000) ||| 0x8E00 ||| (level <<< 13) } }

/-- `&idtTramps[idx].buf[0]`. -/
def trampolino (idx : Int) : Word :=
  ind.idtTramps + BitVec.ofInt 32 idx * BitVec.ofNat 32 trampoline.length

def idtSetEntry (idx : Int) (fx : Word) : Tabelle :=
  if idx < 0 ∨ idx ≥ 256 then t
  else
    let l := trampolino ind idx
    { t with
      tramps := Pitos.idtSetEntry idx fx t.tramps
      idt := Function.update t.idt idx.toNat
        { l := 0x80000 ||| (l &&& 0xFFFF), h := (l &&& 0xFFFF0000) ||| 0x8E00 } }

def kbSetcallback (f : Word) : Tabelle := t.idtSetEntry ind (0x20 + 1) f

def exceptionsInstall : Tabelle :=
  (List.range 20).foldl
    (fun (t : Tabelle) (i : Nat) =>
      if i ≠ 15 then t.idtSetEntry ind i ind.handlerNoCode else t) t

/-- What `kernel_init` writes, with `log_init`. -/
def kernelInit : Tabelle :=
  let t := t.kbSetcallback ind ind.loggingKbCallback
  let t := t.exceptionsInstall ind
  let t := t.idtSetEntryAsm 0x30 ind.syscalle 3
  t.idtSetEntryAsm 0x20 ind.acdriverT 0

/-- Calls of `idtSetEntry` one after the other. -/
def installa (l : List (Int × Word)) : Tabelle :=
  l.foldl (fun t x => t.idtSetEntry ind x.1 x.2) t

/-- `gdt_descr` and `idt_descr`, and the register that `ltr` loads. -/
def registri : Tables where
  idt := fun i => (t.idt i).h ++ (t.idt i).l
  idtLimit := 256 * 8 - 1
  gdt := t.gdt
  gdtLimit := 256 * 8 - 1
  task := Segment.decode (t.gdt (selettoreTr ind.tss >>> 3).toNat)

end Tabelle

/-! ## An interrupt -/

namespace Macchina

/-- `ESP0` and `SS0` are fields of the kernel; around them `_TSS` is memory. -/
def leggiTss (ind : Indirizzi) (m : Macchina) (a : Word) : Word :=
  if a = ind.tss + 4 then m.kernel.tssEsp0
  else if a = ind.tss + 8 then alta (m.kernel.mem.read32 a) ++ SS0
  else m.kernel.mem.read32 a

/-- An interrupt by the tables: the checks, the change of the stack, and the three words that are
pushed in any case. -/
def consegna (ind : Indirizzi) (t : Tabelle) (m : Macchina) (n : BitVec 8) (software : Bool) :
    Except Fault Macchina := do
  let e ← (t.registri ind).deliver (Tables.rpl m.reg.cs) n software (m.leggiTss ind)
  let r := m.reg
  let m :=
    match e.stack with
    | none => m
    | some (ss, esp) =>
      let m : Macchina := { m with reg := { m.reg with esp, ss } }
      let m := m.push (estesa r.ss)
      m.push r.esp
  let m := m.push r.eflags
  let m := m.push (estesa r.cs)
  let m := m.push r.eip
  return { m with reg := { m.reg with cs := e.cs, eip := e.eip, eflags := e.flags r.eflags } }

end Macchina

end Pitos
