import Pitos.Lib.Memory

/-!
# The boot sector loads the program

`load_program` of `boot/pmload3.asm` and `bios_read_sectors` of `boot/MYLOAD.INC`, in real
mode. The BIOS is a parameter: what `int 13h` makes of the registers and the memory. The
variables of the loader and its stack are in the moved boot sector, below 0x10400, away from
where the program goes.
-/

namespace Pitos

open Lib

namespace Boot

abbrev LOADSEG : BitVec 16 := 0x3000
abbrev FIRSTSEC : BitVec 16 := 1
abbrev SECTRACK : BitVec 16 := 18
abbrev DRIVE : BitVec 8 := 0

/-- The registers the loader uses, and the carry flag. -/
structure Reg16 where
  ax : BitVec 16
  bx : BitVec 16
  cx : BitVec 16
  dx : BitVec 16
  es : BitVec 16
  cf : Bool

/-- `AL`, `CL`, `DL`. -/
def bassa8 (w : BitVec 16) : BitVec 8 := w.extractLsb' 0 8

/-- `AH`, `CH`, `DH`. -/
def alta8 (w : BitVec 16) : BitVec 8 := w.extractLsb' 8 8

@[simp] theorem bassa8_append (h l : BitVec 8) : bassa8 (h ++ l) = l := by
  unfold bassa8
  apply BitVec.eq_of_toNat_eq
  rw [BitVec.extractLsb'_toNat, BitVec.toNat_append, ← Nat.shiftLeft_add_eq_or_of_lt l.isLt,
    Nat.shiftLeft_eq, Nat.shiftRight_zero]
  omega

@[simp] theorem alta8_append (h l : BitVec 8) : alta8 (h ++ l) = h := by
  unfold alta8
  apply BitVec.eq_of_toNat_eq
  rw [BitVec.extractLsb'_toNat, BitVec.toNat_append, ← Nat.shiftLeft_add_eq_or_of_lt l.isLt,
    Nat.shiftLeft_eq, Nat.shiftRight_eq_div_pow]
  omega

theorem bassa8_toNat (w : BitVec 16) : (bassa8 w).toNat = w.toNat % 256 := by
  rw [bassa8, BitVec.extractLsb'_toNat, Nat.shiftRight_zero]

/-- The linear address of `seg:off`. -/
def lineare (seg off : BitVec 16) : Word := seg.setWidth 32 * 16 + off.setWidth 32

/-! ## The disk service -/

/-- What `int 13h` does to the registers and the memory. -/
abbrev Int13 := Reg16 → Mem → Reg16 × Mem

namespace Reg16

/-! What a request with `AH=2` asks for: bits 6 and 7 of `CL` are the top of the track. -/

def traccia (r : Reg16) : Nat := (alta8 r.cx).toNat + 256 * ((bassa8 r.cx).toNat / 64)

def testina (r : Reg16) : Nat := (alta8 r.dx).toNat

/-- Sectors count from 1. -/
def settore (r : Reg16) : Nat := (bassa8 r.cx).toNat % 64

def quanti (r : Reg16) : Nat := (bassa8 r.ax).toNat

/-- Linear number of the first sector: 18 sectors a surface, 2 heads. -/
def primo (r : Reg16) : Nat := (r.traccia * 2 + r.testina) * 18 + (r.settore - 1)

def settori (r : Reg16) : List Nat := List.range' r.primo r.quanti

def destinazione (r : Reg16) : Word := lineare r.es r.bx

/-- A read of sectors of the floppy that stays on one surface. -/
structure Valida (r : Reg16) : Prop where
  ah : alta8 r.ax = 2
  dl : bassa8 r.dx = DRIVE
  traccia : r.traccia < 80
  testina : r.testina < 2
  settore : 1 ≤ r.settore
  quanti : 1 ≤ r.quanti
  superficie : r.settore - 1 + r.quanti ≤ 18

end Reg16

/-- Where programs are loaded, up to the end of the first megabyte. -/
def AreaProgramma (a : Word) : Prop := Mem.Within 0x30000 0xD0000 a

/-- A BIOS that reads without errors the floppy with the given bytes in its sectors. It has
variables of its own, outside the area of the program. -/
structure Legge (disco : Nat → Nat → BitVec 8) (int13 : Int13) : Prop where
  legge : ∀ r m, r.Valida → ∀ i j, i < r.quanti → j < 512 →
    (int13 r m).2 (r.destinazione + BitVec.ofNat 32 (512 * i + j)) = disco (r.primo + i) j
  altrove : ∀ r m, r.Valida → ∀ a, AreaProgramma a →
    ¬ Mem.Within r.destinazione (512 * r.quanti) a → (int13 r m).2 a = m a
  bx : ∀ r m, r.Valida → (int13 r m).1.bx = r.bx
  es : ∀ r m, r.Valida → (int13 r m).1.es = r.es
  cf : ∀ r m, r.Valida → (int13 r m).1.cf = false

/-! ## The loader -/

/-- `letture` are the registers at each `int 13h`, `porte` what was sent to the ports. -/
structure Caricatore where
  reg : Reg16
  rdSec : BitVec 16
  rdHead : BitVec 16
  rdTrack : BitVec 16
  rdTotal : BitVec 16
  mem : Mem
  letture : List Reg16
  porte : List (BitVec 16 × BitVec 8)

namespace Caricatore

/-- The registers `bios_read_sectors` calls the BIOS with. -/
def richiesta (c : Caricatore) : Reg16 :=
  let cx := c.rdSec + 1
  let cl := bassa8 cx &&& 0x3f
  let ch := bassa8 c.rdTrack
  let dh := bassa8 c.rdHead &&& 1
  { c.reg with
    ax := (2 : BitVec 8) ++ bassa8 c.reg.ax
    cx := ch ++ cl
    dx := dh ++ DRIVE }

def biosReadSectors (int13 : Int13) (c : Caricatore) : Caricatore :=
  let (r, mem) := int13 c.richiesta c.mem
  let al : BitVec 8 := if r.cf then 1 else 0
  { c with
    reg := { r with ax := alta8 r.ax ++ al, cx := c.reg.cx, dx := c.reg.dx }
    mem
    letture := c.letture ++ [c.richiesta] }

def killFloppyMotor (c : Caricatore) : Caricatore :=
  { c with reg := { c.reg with ax := alta8 c.reg.ax ++ (0 : BitVec 8) }
           porte := c.porte ++ [(0x3f2, 0)] }

/-- `.continue`: past the last sector of a surface. -/
def limiti (c : Caricatore) : Caricatore :=
  if c.rdSec = SECTRACK then
    if c.rdHead = 1 then
      { c with rdSec := c.reg.bx, rdHead := c.reg.bx, rdTrack := c.rdTrack + 1 }
    else
      { c with rdSec := c.reg.bx, rdHead := c.rdHead + 1 }
  else c

/-- `.goread`: the sectors to be read, with signed comparisons. -/
def daLeggere (c : Caricatore) : BitVec 16 :=
  let ax := SECTRACK - c.rdSec
  let ax := if ax.sle c.rdTotal then ax else c.rdTotal
  if ax.sle 8 then ax else 8

/-- `mov dx, ax`. -/
def prepara (c : Caricatore) : Caricatore :=
  { c with reg := { c.reg with ax := c.daLeggere, dx := c.daLeggere } }

/-- The read, and what follows it up to `jmp .top`. -/
def leggi (int13 : Int13) (c : Caricatore) : Caricatore :=
  let c := c.biosReadSectors int13
  let dx : BitVec 16 := c.reg.dx
  let es : BitVec 16 := c.reg.es + dx <<< 5
  { c with
    rdTotal := c.rdTotal - dx
    rdSec := c.rdSec + dx
    reg := { c.reg with dx := dx <<< 5, cx := es, es } }

/-- `.top`, for a number of turns. -/
def ciclo (int13 : Int13) : Nat → Caricatore → Option Caricatore
  | 0, _ => none
  | giri + 1, c =>
    if c.rdTotal = c.reg.bx then some c else ciclo int13 giri (c.limiti.prepara.leggi int13)

def inizio (c : Caricatore) : Caricatore :=
  { c with
    reg := { c.reg with es := LOADSEG, bx := 0, ax := 1 }
    rdSec := FIRSTSEC
    rdHead := 0
    rdTrack := 0 }

/-- The first sector says how many they are. -/
def conta (c : Caricatore) : Caricatore :=
  let eax : Word := c.mem.read32 (lineare c.reg.es 0)
  { c with
    rdTotal := (eax >>> 9).extractLsb' 0 16 - 1
    rdSec := c.rdSec + 1
    reg := { c.reg with ax := LOADSEG + 32, es := LOADSEG + 32 } }

def loadProgram (int13 : Int13) (giri : Nat) (c : Caricatore) : Option Caricatore :=
  (ciclo int13 giri (c.inizio.biosReadSectors int13).conta).map killFloppyMotor

end Caricatore

end Boot

end Pitos
