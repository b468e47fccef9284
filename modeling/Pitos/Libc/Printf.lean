import Pitos.Lib.Directives
import Pitos.Libc.Numbers

/-!
# `vsprintf`

`libc/ioformat/sprintf.c`. The loop looks at one character of the format at a time and keeps in
`parsing` whether it is inside a conversion; the number that begins at a digit is read at once. The
texts of floating point numbers are left to `fcvt`, `ecvt` and `gcvt`.
-/

namespace Pitos

open Lib

namespace Stdio

abbrev STD_SIZE : Nat := 0
abbrev SHORT_SIZE : Nat := 1
abbrev LONG_SIZE : Nat := 2
abbrev RESPECT_WIDTH : Nat := 1

/-! ## The conversions -/

/-- An argument; of a `char` or a `short` the whole word is pushed. -/
inductive Argomento
  | intero (v : Word)
  | stringa (sp : List Char)
  | reale (v : BitVec 64)
  deriving DecidableEq

/-- The conversions of floating point numbers to a text. -/
structure Reali where
  fcvt : BitVec 64 → Word → Word → Nat → List Char
  ecvt : BitVec 64 → Word → Word → Nat → List Char
  gcvt : BitVec 64 → Word → Word → Nat → List Char

inductive Guasto
  /-- The format ends in the middle of a conversion, and the loop goes on behind it. -/
  | oltre
  /-- The next argument is missing or not of this kind. -/
  | argomento
  deriving DecidableEq

/-- The variables of `vsprintf`, with the text written so far. The counts `scanned` and `l` are of
type `int`, and a long text makes them wrap. -/
structure Stampa where
  buf : List Char
  scanned : Word
  w : Word
  prec : Word
  l : Word
  size : Nat
  parsing : Nat
  flag : Nat
  parms : List Argomento

namespace Stampa

/-- `scanned += l; buf += l; parsing = 0;` -/
def esce (s : Stampa) (testo : List Char) : Stampa :=
  { s with
    buf := s.buf ++ testo, scanned := s.scanned + BitVec.ofNat 32 testo.length
    l := BitVec.ofNat 32 testo.length, parsing := 0 }

/-- One character, of which `l` is not told. -/
def carattere (s : Stampa) (c : Char) : Stampa :=
  { s with buf := s.buf ++ [c], scanned := s.scanned + 1, parsing := 0 }

/-- `l` counts on from what the conversion before left. -/
def stringa (s : Stampa) (sp : List Char) : Stampa :=
  { s with
    buf := s.buf ++ sp, scanned := s.scanned + (s.l + BitVec.ofNat 32 sp.length)
    l := s.l + BitVec.ofNat 32 sp.length, parsing := 0 }

def intero (s : Stampa) : Except Guasto (Word × Stampa) :=
  match s.parms with
  | .intero v :: parms => .ok (v, { s with parms })
  | _ => .error .argomento

def reale (s : Stampa) : Except Guasto (BitVec 64 × Stampa) :=
  match s.parms with
  | .reale v :: parms => .ok (v, { s with parms })
  | _ => .error .argomento

/-- `n1` and `n2`: of a `short` the lower half counts. -/
def conSegno (size : Nat) (v : Word) : Word :=
  if size = SHORT_SIZE then (v.setWidth 16).signExtend 32 else v

def senzaSegno (size : Nat) (v : Word) : Word :=
  if size = SHORT_SIZE then (v.setWidth 16).setWidth 32 else v

/-- A negative `width` pads nothing. -/
def larghezza (w : Word) : Nat := w.toInt.toNat

end Stampa

open Stampa

/-- The cases `'0'` to `'9'`: a width, or a precision behind a point. -/
def numero (fmt : List Char) (s : Stampa) : Stampa × Nat :=
  let (n, base) := strtou fmt 10 []
  let oltre := fmt.length - base.length - 1
  if s.parsing = 1 then
    let pad := if fmt.head? ≠ some '0' ∨ s.flag &&& LEFT_PAD ≠ 0 then SPACE_PAD else ZERO_PAD
    ({ s with w := n, flag := s.flag ||| pad }, oltre)
  else if s.parsing = 2 then ({ s with prec := n, parsing := 1 }, oltre)
  else (s, 0)

/-- The other cases. -/
def lettera (R : Reali) (c : Char) (s : Stampa) : Except Guasto Stampa :=
  match c with
  | '%' => .ok (s.carattere '%')
  | 'c' => s.intero.map fun (v, s) => s.carattere (Char.ofNat (v.setWidth 8).toNat)
  | 'i' => s.intero.map fun (v, s) =>
    s.esce (dcvt (conSegno s.size v) 10 (larghezza s.w) s.flag)
  | 'd' => s.intero.map fun (v, s) =>
    s.esce (dcvt (conSegno s.size v) 10 (larghezza s.w) s.flag)
  | 'u' => s.intero.map fun (v, s) =>
    s.esce (ucvt (senzaSegno s.size v) 10 (larghezza s.w) s.flag)
  | 'x' => s.intero.map fun (v, s) =>
    s.esce (ucvt (senzaSegno s.size v) 16 (larghezza s.w) s.flag)
  | 'p' => s.intero.map fun (v, s) => s.esce (ucvt v 16 (larghezza s.w) 0)
  | 's' =>
    match s.parms with
    | .stringa sp :: parms => .ok ({ s with parms }.stringa sp)
    | _ => .error .argomento
  | 'f' => s.reale.map fun (v, s) => s.esce (R.fcvt v s.w s.prec s.flag)
  | 'e' => s.reale.map fun (v, s) => s.esce (R.ecvt v s.w s.prec s.flag)
  | 'g' => s.reale.map fun (v, s) => s.esce (R.gcvt v s.w s.prec s.flag)
  | 'l' => .ok { s with size := LONG_SIZE }
  | 'n' => .ok { s with size := SHORT_SIZE }
  | 'h' => .ok { s with size := SHORT_SIZE }
  | '+' => .ok { s with flag := s.flag ||| ADD_PLUS }
  | '-' => .ok { s with flag := s.flag ||| LEFT_PAD }
  | '.' => .ok { s with parsing := 2, flag := s.flag ||| RESPECT_WIDTH }
  | _ => .ok { s with parsing := 0 }

/-- The `switch` on the character with which `fmt` begins, and how many characters behind it are to
be passed over. -/
def token (R : Reali) (fmt : List Char) (s : Stampa) : Except Guasto (Stampa × Nat) :=
  match fmt with
  | [] => .ok ({ s with parsing := 0 }, 0)
  | c :: _ =>
    if '0' ≤ c ∧ c ≤ '9' then .ok (numero fmt s) else (lettera R c s).map fun s => (s, 0)

/-- The state behind a `%`. -/
def Stampa.aperta (s : Stampa) : Stampa :=
  { s with parsing := 1, w := 10, prec := 4, size := STD_SIZE, flag := 0 }

/-- The `while` loop. -/
def direttive (R : Reali) : Directives Stampa Guasto where
  inside s := s.parsing ≠ 0
  plain c s := s.carattere c
  start := Stampa.aperta
  token := token R
  beyond := .oltre

def ciclo (R : Reali) : List Char → Nat → Stampa → Except Guasto Stampa := (direttive R).run

/-- The text and what is returned. -/
def vsprintf (R : Reali) (fmt : List Char) (parms : List Argomento) :
    Except Guasto (List Char × Int) :=
  (ciclo R fmt 0
    { buf := [], scanned := 0, w := 0, prec := 0, l := 0, size := STD_SIZE, parsing := 0, flag := 0,
      parms }).map fun s => (s.buf, s.scanned.toInt)

end Stdio

end Pitos
