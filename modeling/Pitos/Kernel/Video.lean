import Mathlib.Logic.Function.Basic
import Pitos.Kernel.State

/-!
# The screen

`video.cpp`, the log of `mylib.c` and `ki_print` of `sistema.cpp`. The memory of the screen is read
and written a cell at a time, at the even addresses; a string is the list of its characters and
ends at its first `NUL`, if not before.
-/

namespace Pitos

namespace Video

abbrev VIDEOMEM : Int := 0xB8000
abbrev VIDEOROWS : Int := 25

/-- `logPage` of `mylib.c`. -/
abbrev paginaLog : Int := 2

/-- The index register of the display controller and its registers 12 and 13: where what is shown
begins. -/
structure Crtc where
  indice : BitVec 8
  alto : BitVec 8
  basso : BitVec 8
  deriving DecidableEq

/-- `mem` has a cell at each address; `chiamate` are the arguments of the calls of `video_char`. -/
structure Schermo where
  mem : Int → BitVec 16
  crtc : Crtc
  start : Int
  currentPage : Int
  logRow : Int
  lastRow : Int
  lastCol : Int
  chiamate : List (Int × Int × BitVec 8)

/-- A character, white on black. -/
def cella (c : BitVec 8) : BitVec 16 := (c.setWidth 16 &&& 0xFF) ||| 0x700

/-- The cell that erases. -/
def vuota : BitVec 16 := 0x700

namespace Schermo

variable (s : Schermo)

/-! ## `video.cpp` -/

def outportb (port : BitVec 16) (v : BitVec 8) : Schermo :=
  if port = 0x3d4 then { s with crtc := { s.crtc with indice := v } }
  else if port = 0x3d5 then
    if s.crtc.indice = 12 then { s with crtc := { s.crtc with alto := v } }
    else if s.crtc.indice = 13 then { s with crtc := { s.crtc with basso := v } }
    else s
  else s

/-- The page that was selected, and the screen. -/
def videoSetpage (page : Int) : Int × Schermo :=
  let old := s.currentPage
  let offset := page * 2 ^ 11
  if page < 0 ∨ page > 7 then (s.currentPage, s)
  else
    let s := s.outportb 0x3d4 12
    let s := s.outportb 0x3d5 (BitVec.ofInt 8 (offset / 2 ^ 8))
    let s := s.outportb 0x3d4 13
    let s := s.outportb 0x3d5 (BitVec.ofInt 8 offset)
    (old, { s with start := VIDEOMEM + page * 4096, currentPage := page })

def videoChar (c r : Int) (cc : BitVec 8) : Schermo :=
  { s with
    mem := Function.update s.mem (s.start + 160 * r + 2 * c) (cella cc)
    chiamate := s.chiamate ++ [(c, r, cc)] }

/-- The loop of `videocpy`, from the cell `p` on. -/
def copia (m : Int → BitVec 16) (p : Int) : List (BitVec 8) → Int → BitVec 16
  | [] => m
  | c :: sz =>
    if c = 0 then m
    else if c = 10 then m
    else copia (Function.update m p (cella c)) (p + 2) sz

def videocpy (c r : Int) (sz : List (BitVec 8)) : Schermo :=
  { s with mem := copia s.mem (s.start + 160 * r + 2 * c) sz }

/-- `for (i = 0; i < 80; i++) *p++ = 0x700;`: the turns left. -/
def cancella (m : Int → BitVec 16) (p : Int) : Nat → Int → BitVec 16
  | 0 => m
  | n + 1 => cancella (Function.update m p vuota) (p + 2) n

def videoEraseline (r : Int) : Schermo :=
  { s with mem := cancella s.mem (s.start + 160 * r) 80 }

/-! ## The log -/

def logMessage (sz : List (BitVec 8)) : Schermo :=
  let (op, s) := s.videoSetpage paginaLog
  let s := s.videoEraseline s.logRow
  let s := s.videocpy 1 s.logRow sz
  let s := { s with logRow := int32 (s.logRow + 1) }
  let s := if s.logRow ≥ VIDEOROWS then { s with logRow := 0 } else s
  (s.videoSetpage op).2

/-- `log_init`, the keyboard apart. -/
def logInit : Schermo := { (s.videoSetpage 0).2 with logRow := 0 }

/-! ## `ki_print` -/

/-- One turn of the loop of `ki_print`. -/
def stampa (c : BitVec 8) : Schermo :=
  if c = 10 then { s with lastRow := int32 (s.lastRow + 1), lastCol := 0 }
  else if c = 13 then { s with lastCol := 0 }
  else if c = 8 then
    if s.lastCol ≠ 0 then { s with lastCol := int32 (s.lastCol - 1) }
    else if s.lastRow ≠ 0 then { s with lastRow := int32 (s.lastRow - 1) }
    else s
  else if c = 9 then
    let s := { s with lastCol := int32 (s.lastCol + 8) }
    if s.lastCol ≥ 80 then { s with lastCol := int32 (s.lastCol - 80) } else s
  else
    let s := if s.lastCol ≥ 80 then { s with lastRow := int32 (s.lastRow + 1), lastCol := 0 } else s
    let s := if s.lastRow ≥ VIDEOROWS then { s with lastRow := 0 } else s
    let s := s.videoChar s.lastCol s.lastRow c
    { s with lastCol := int32 (s.lastCol + 1) }

def stampaTesto (s : Schermo) : List (BitVec 8) → Schermo
  | [] => s
  | c :: buf => if c = 0 then s else stampaTesto (s.stampa c) buf

def kiPrint (buf : List (BitVec 8)) (page : Int) : Schermo :=
  if page = 2 then s.logMessage buf
  else
    let (op, s) := s.videoSetpage page
    let s := s.stampaTesto buf
    (s.videoSetpage op).2

end Schermo

end Video

end Pitos
