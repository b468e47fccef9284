import Pitos.Kernel.Events

/-!
# The processor as the assembler files use it

The registers, the instructions of `klib/syscall2.asm` that move data, and what the processor
itself does at an interrupt and at `iret`. All segments start at address 0, so an address is
an offset.

The C functions find a descriptor by its fields, the assembler code by hand-computed offsets
from `esecuzione`. `DesProc.parola` says which field stands at an offset, in the order of
`struct des_proc`.
-/

namespace Pitos

open Lib

abbrev Selettore := BitVec 16

structure Registri where
  eax : Word
  ebx : Word
  ecx : Word
  edx : Word
  esi : Word
  edi : Word
  ebp : Word
  esp : Word
  eip : Word
  eflags : Word
  cs : Selettore
  ss : Selettore
  ds : Selettore
  es : Selettore
  fs : Selettore
  gs : Selettore
  deriving DecidableEq

/-- The processor and what the kernel knows; memory and `_TSS` are part of `Kernel`. -/
structure Macchina where
  reg : Registri
  kernel : Kernel

/-- The low half of a register or of a word in memory. -/
def bassa (w : Word) : Selettore := w.extractLsb' 0 16

def alta (w : Word) : BitVec 16 := w.extractLsb' 16 16

/-- A segment register as it is pushed. -/
def estesa (s : Selettore) : Word := (0 : BitVec 16) ++ s

@[simp] theorem bassa_append (h s : BitVec 16) : bassa (h ++ s) = s := by
  unfold bassa
  apply BitVec.eq_of_getLsbD_eq
  intro i hi
  simp only [BitVec.getLsbD_extractLsb', BitVec.getLsbD_append, Nat.zero_add, hi, decide_true,
    Bool.true_and, if_true]

@[simp] theorem bassa_estesa (s : Selettore) : bassa (estesa s) = s := bassa_append 0 s

/-! ## A descriptor by offsets -/

/-- The word at an offset of `struct des_proc`: `context`, `stk`, `sig_mask`. -/
def DesProc.parola (d : DesProc) (off : Nat) : Word :=
  if h : off / 4 < NUMREG then d.context ⟨off / 4, h⟩
  else if h : off / 4 - NUMREG < 3 then d.stk ⟨off / 4 - NUMREG, h⟩
  else d.sigMask

/-- A write of a double word into `context`. -/
def DesProc.scrivi (d : DesProc) (off : Nat) (v : Word) : DesProc :=
  if h : off / 4 < NUMREG then { d with context := Function.update d.context ⟨off / 4, h⟩ v } else d

/-- A write of a word into `context`: the upper half stays. -/
def DesProc.scrivi16 (d : DesProc) (off : Nat) (v : Selettore) : DesProc :=
  d.scrivi off (alta (d.parola off) ++ v)

namespace Macchina

/-! ## Instructions -/

def push (m : Macchina) (v : Word) : Macchina :=
  let esp := m.reg.esp - 4
  { reg := { m.reg with esp }, kernel := { m.kernel with mem := m.kernel.mem.write32 esp v } }

/-- The word that `pop` takes. -/
def cima (m : Macchina) : Word := m.kernel.mem.read32 m.reg.esp

/-- The rest of `pop`. -/
def scarta (m : Macchina) : Macchina := { m with reg := { m.reg with esp := m.reg.esp + 4 } }

def popEax (m : Macchina) : Macchina := { m.scarta with reg := { m.scarta.reg with eax := m.cima } }

def popEbx (m : Macchina) : Macchina := { m.scarta with reg := { m.scarta.reg with ebx := m.cima } }

def popEdx (m : Macchina) : Macchina := { m.scarta with reg := { m.scarta.reg with edx := m.cima } }

def popDs (m : Macchina) : Macchina :=
  { m.scarta with reg := { m.scarta.reg with ds := bassa m.cima } }

/-- `mov [eax+off], v` while `eax` points to the context of `*p`. -/
def scriviDes (m : Macchina) (p : DesPtr) (off : Nat) (v : Word) : Macchina :=
  { m with kernel := m.kernel.aggiorna p fun d => d.scrivi off v }

def scriviDes16 (m : Macchina) (p : DesPtr) (off : Nat) (v : Selettore) : Macchina :=
  { m with kernel := m.kernel.aggiorna p fun d => d.scrivi16 off v }

/-- `[eax+off]`. -/
def leggiDes (m : Macchina) (p : DesPtr) (off : Nat) : Word := (m.kernel.des p).parola off

/-- The current privilege level. -/
def cpl (m : Macchina) : Selettore := m.reg.cs &&& 3

/-- `SS0` of `_TSS`. -/
abbrev SS0 : Selettore := 0x10

/-- `EFLAGS` behind an interrupt gate: `IF` is cleared, and so are `TF`, `NT`, `RF` and `VM`. -/
def spenti (eflags : Word) : Word := eflags &&& ~~~0x34300

/-- Entry through an interrupt gate of level 0. From level 3 the stack is that of `_TSS`, and the
old `SS` and `ESP` are pushed on it. -/
def interruzione (m : Macchina) : Macchina :=
  let r := m.reg
  let m :=
    if m.cpl = 0 then m
    else
      let m := { m with reg := { m.reg with esp := m.kernel.tssEsp0, ss := SS0 } }
      let m := m.push (estesa r.ss)
      m.push r.esp
  let m := m.push r.eflags
  let m := m.push (estesa r.cs)
  let m := m.push r.eip
  { m with reg := { m.reg with cs := bassa SYSTEMCODESEL, eflags := spenti r.eflags } }

/-- `iret` at level 0. -/
def iret (m : Macchina) : Macchina :=
  let esp := m.reg.esp
  let eip := m.kernel.mem.read32 esp
  let cs := bassa (m.kernel.mem.read32 (esp + 4))
  let eflags := m.kernel.mem.read32 (esp + 8)
  let r := { m.reg with eip, cs, eflags }
  if cs &&& 3 = 0 then { m with reg := { r with esp := esp + 12 } }
  else
    { m with reg := { r with
        esp := m.kernel.mem.read32 (esp + 12)
        ss := bassa (m.kernel.mem.read32 (esp + 16)) } }

end Macchina

end Pitos
