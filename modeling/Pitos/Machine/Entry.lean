import Pitos.Machine.Cpu

/-!
# Entry and exit of the kernel

The assembler code of `klib/syscall2.asm`, line by line: the macros `__salva_stato`,
`__carica_stato` and `copy_params`, the entry `syscalle` up to the call through
`syscall_table`, and the two tables made from `syscalls.h`. The user stubs are those of
`klib/utente.asm`.

`traceSyscall` returns at once, so its call is what the assembler code does around it.
-/

namespace Pitos

open Lib

/-! ## Saving and loading -/

abbrev P_OFFCONTESTO : Nat := 0
abbrev P_OFFSYSSTACK : Nat := 12 * 4

abbrev SYSDATASEL : Selettore := 0x10

abbrev offEAX : Nat := 0
abbrev offEBX : Nat := 4
abbrev offECX : Nat := 8
abbrev offEDX : Nat := 12
abbrev offESI : Nat := 16
abbrev offEDI : Nat := 20
abbrev offEBP : Nat := 24
abbrev offESP : Nat := 28
abbrev offES : Nat := 32
abbrev offFS : Nat := 36
abbrev offGS : Nat := 40
abbrev offDS : Nat := 44

namespace Macchina

/-- `mov ax, SYSDATASEL; mov ds, ax`. -/
def caricaDs (m : Macchina) : Macchina :=
  { m with reg := { m.reg with eax := alta m.reg.eax ++ SYSDATASEL, ds := SYSDATASEL } }

/-- `mov eax, [esecuzione]; add eax, P_OFFCONTESTO`. -/
def puntaContesto (m : Macchina) : Macchina :=
  { m with reg := { m.reg with
      eax := indirizzo m.kernel.link m.kernel.esecuzione + BitVec.ofNat 32 P_OFFCONTESTO } }

/-- `__salva_stato`. -/
def salvaStato (m : Macchina) : Macchina :=
  let m := m.push m.reg.eax
  let m := m.push (estesa m.reg.ds)
  let m := m.caricaDs
  let p := m.kernel.esecuzione
  let m := m.puntaContesto
  let m := m.scriviDes p (P_OFFCONTESTO + offEBX) m.reg.ebx
  let m := m.scriviDes p (P_OFFCONTESTO + offECX) m.reg.ecx
  let m := m.scriviDes p (P_OFFCONTESTO + offEDX) m.reg.edx
  let m := m.scriviDes p (P_OFFCONTESTO + offESI) m.reg.esi
  let m := m.scriviDes p (P_OFFCONTESTO + offEDI) m.reg.edi
  let m := m.scriviDes p (P_OFFCONTESTO + offEBP) m.reg.ebp
  let m := m.scriviDes16 p (P_OFFCONTESTO + offES) m.reg.es
  let m := m.scriviDes16 p (P_OFFCONTESTO + offFS) m.reg.fs
  let m := m.scriviDes16 p (P_OFFCONTESTO + offGS) m.reg.gs
  let m := m.popEbx
  let m := m.scriviDes16 p (P_OFFCONTESTO + offDS) (bassa m.reg.ebx)
  let m := m.popEbx
  let m := m.scriviDes p (P_OFFCONTESTO + offEAX) m.reg.ebx
  m.scriviDes p (P_OFFCONTESTO + offESP) m.reg.esp

/-- `mov ebx, [eax+P_OFFSYSSTACK]; mov [_TSS+4], ebx`. -/
def caricaEsp0 (m : Macchina) (p : DesPtr) : Macchina :=
  let ebx := m.leggiDes p P_OFFSYSSTACK
  { reg := { m.reg with ebx }, kernel := { m.kernel with tssEsp0 := ebx } }

/-- `__carica_stato` up to `iret`. -/
def caricaRegistri (m : Macchina) : Macchina :=
  let m := m.caricaDs
  let p := m.kernel.esecuzione
  let m := m.caricaEsp0 p
  let m := m.puntaContesto
  let m := { m with reg := { m.reg with
    ecx := m.leggiDes p (P_OFFCONTESTO + offECX)
    edx := m.leggiDes p (P_OFFCONTESTO + offEDX)
    esi := m.leggiDes p (P_OFFCONTESTO + offESI)
    edi := m.leggiDes p (P_OFFCONTESTO + offEDI)
    ebp := m.leggiDes p (P_OFFCONTESTO + offEBP)
    es := bassa (m.leggiDes p (P_OFFCONTESTO + offES))
    fs := bassa (m.leggiDes p (P_OFFCONTESTO + offFS))
    gs := bassa (m.leggiDes p (P_OFFCONTESTO + offGS))
    esp := m.leggiDes p (P_OFFCONTESTO + offESP) } }
  let m := m.push (m.leggiDes p (P_OFFCONTESTO + offDS))
  let m := { m with reg := { m.reg with
    ebx := m.leggiDes p (P_OFFCONTESTO + offEBX)
    eax := m.leggiDes p (P_OFFCONTESTO + offEAX) } }
  m.popDs

/-- `__carica_stato`. -/
def caricaStato (m : Macchina) : Macchina := m.caricaRegistri.iret

end Macchina

/-! ## The tables of system calls -/

/-- The names of `syscalls.h`. -/
inductive Primitiva
  | activateP | terminateP | semIni | semWait | semSignal | sysGetOsName | getTick | delay
  | getPri | getBasepri | getPid | signal | raise | signalrespin | print | free | malloc
  deriving DecidableEq, Repr

/-- `SYSCALL name, number of parameter words, index`. -/
structure Dichiarazione where
  nome : Primitiva
  parametri : Nat
  indice : Nat
  deriving DecidableEq

/-- `syscalls.h`. -/
def syscalls : List Dichiarazione :=
  [⟨.activateP, 5, 0⟩, ⟨.terminateP, 0, 1⟩, ⟨.semIni, 3, 2⟩, ⟨.semWait, 1, 3⟩,
    ⟨.semSignal, 1, 4⟩, ⟨.sysGetOsName, 2, 5⟩, ⟨.getTick, 2, 6⟩, ⟨.delay, 1, 7⟩,
    ⟨.getPri, 1, 8⟩, ⟨.getBasepri, 1, 9⟩, ⟨.getPid, 1, 10⟩, ⟨.signal, 2, 11⟩, ⟨.raise, 1, 12⟩,
    ⟨.signalrespin, 0, 13⟩, ⟨.print, 2, 14⟩, ⟨.free, 1, 15⟩, ⟨.malloc, 1, 16⟩]

/-- Addresses in the linked image: the functions `ki_*`, the table, and the instructions after
the calls of `traceSyscall`, of a function of the table and of `badSysCall`. -/
structure Immagine where
  ki : Primitiva → Word
  syscallTable : Word
  dopoTrace : Word
  dopoKi : Word
  dopoBad : Word

namespace Immagine

/-- The words assembled at `syscall_table`: it is padded with 100 zeros and followed by
`syscall_params`. -/
def tabelle (img : Immagine) : List Word :=
  syscalls.map (fun d => img.ki d.nome) ++ List.replicate 100 0 ++
    (syscalls.map (fun d => BitVec.ofNat 32 d.parametri) ++ List.replicate 100 0)

/-- The label `syscall_params`. -/
def syscallParams (img : Immagine) : Word :=
  img.syscallTable + BitVec.ofNat 32 (4 * (syscalls.length + 100))

/-- The tables are in memory. -/
def Caricata (img : Immagine) (m : Mem) : Prop :=
  ∀ i w, img.tabelle[i]? = some w →
    m.read32 (img.syscallTable + BitVec.ofNat 32 (4 * i)) = w

end Immagine

/-! ## System calls -/

namespace Macchina

/-- The user stub up to `int 0x30`, which returns to `eip`: `push dword n`. -/
def stub (m : Macchina) (n : Nat) (eip : Word) : Macchina :=
  let m := m.push (BitVec.ofNat 32 n)
  { m with reg := { m.reg with eip } }

/-- `syscalle` after `__salva_stato`: `EAX` is the call number and `EDX` points to it. -/
def trovaNumero (m : Macchina) : Macchina :=
  let m := { m with reg := { m.reg with edx := m.kernel.mem.read32 (m.reg.esp + 3 * 4) } }
  let m := { m with reg := { m.reg with eax := m.kernel.mem.read32 (m.reg.esp + 4) } }
  let m := { m with reg := { m.reg with eax := m.reg.eax &&& 3 } }
  let m :=
    if m.reg.eax = 0 then { m with reg := { m.reg with edx := m.reg.esp + 3 * 4 } } else m
  { m with reg := { m.reg with eax := m.kernel.mem.read32 m.reg.edx } }

/-- The call of `traceSyscall`. -/
def traccia (img : Immagine) (m : Macchina) : Macchina :=
  let m := m.push m.reg.eax
  let m := m.push m.reg.edx
  let m := m.push m.reg.esp
  let m := (m.push img.dopoTrace).scarta
  let m := m.popEdx
  let m := m.popEdx
  m.popEax

/-- `.topcopy: push dword [edx+ecx*4+4]; loop .topcopy`, with the number of turns left. -/
def topcopy : Nat → Macchina → Macchina
  | 0, m => m
  | n + 1, m =>
    let m := m.push (m.kernel.mem.read32 (m.reg.edx + m.reg.ecx * 4 + 4))
    topcopy n { m with reg := { m.reg with ecx := m.reg.ecx - 1 } }

/-- `copy_params`. -/
def copyParams (img : Immagine) (m : Macchina) : Macchina :=
  let m := { m with reg := { m.reg with
    ecx := m.kernel.mem.read32 (img.syscallParams + m.reg.eax * 4) } }
  if m.reg.ecx = 0 then m else topcopy m.reg.ecx.toNat m

/-- The state in which the table word is compared with 0. -/
def controlla (img : Immagine) (m : Macchina) : Macchina := (m.salvaStato.trovaNumero).traccia img

/-- `[ds:syscall_table+eax*4]`. -/
def parolaTabella (img : Immagine) (m : Macchina) : Word :=
  m.kernel.mem.read32 (img.syscallTable + m.reg.eax * 4)

end Macchina

/-- Where `syscalle` transfers control to. -/
inductive Arrivo
  | badSysCall
  | funzione (f : Word)
  deriving DecidableEq

/-- `syscalle`: the function it calls and the state at its entry. -/
def syscalle (img : Immagine) (m : Macchina) : Arrivo × Macchina :=
  let m := m.controlla img
  if m.parolaTabella img = 0 then
    let m := m.push m.reg.eax
    (.badSysCall, m.push img.dopoBad)
  else
    let m := m.copyParams img
    let m := { m with reg := { m.reg with ebx := alta m.reg.ebx ++ m.reg.ds, es := m.reg.ds } }
    (.funzione (m.parolaTabella img), m.push img.dopoKi)

/-- The `i`-th argument of a C function at its entry. -/
def Macchina.argomento (m : Macchina) (i : Nat) : Word :=
  m.kernel.mem.read32 (m.reg.esp + 4 + BitVec.ofNat 32 (4 * i))

end Pitos
