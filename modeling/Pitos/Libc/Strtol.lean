import Pitos.Libc.Scanf

/-!
# `strtol` and `strtoul`

`libc/stdlib/strtol.c` and `strtoul.c`, with the classes of characters of `libc/string/strbase.c`.
The two functions are the same up to the largest number, and to what they return for a greater one.
-/

namespace Pitos

open Lib

namespace Stdio

/-! ## The characters -/

def isdigit (c : Char) : Bool := '0' ≤ c ∧ c ≤ '9'

def isupper (c : Char) : Bool := 'A' ≤ c ∧ c ≤ 'Z'

/-- The six characters between `Z` and `a` pass for letters. -/
def isalpha (c : Char) : Bool := 'A' ≤ c ∧ c ≤ 'z'

def isalnum (c : Char) : Bool := isalpha c || isdigit c

/-- What the loop makes of `c` before it looks at the base; `none` is a `break`. -/
def cifraDi (c : Char) : Option Nat :=
  if isalnum c then
    if isdigit c then some (c.toNat - '0'.toNat)
    else if isalpha c then
      some (c.toNat - if isupper c then 'A'.toNat - 10 else 'a'.toNat - 10)
    else none
  else none

/-! ## The functions -/

/-- The `for` loop: `acc`, `any` and the text from the character at which it ends. -/
def cicloStrto (base : Nat) (cutoff : Word) (cutlim : Nat) (acc : Word) (any : Int) :
    List Char → Word × Int × List Char
  | [] => (acc, any, [])
  | c :: s =>
    match cifraDi c with
    | none => (acc, any, c :: s)
    | some d =>
      if d ≥ base then (acc, any, c :: s)
      else if any < 0 ∨ cutoff < acc ∨ acc = cutoff ∧ cutlim < d then
        cicloStrto base cutoff cutlim acc (-1) s
      else
        cicloStrto base cutoff cutlim (acc * BitVec.ofNat 32 base + BitVec.ofNat 32 d) 1 s

/-- White space, sign and prefix: `neg`, the base and the text from the first digit on. -/
def prepara (nptr : List Char) (base : Nat) : Bool × Nat × List Char :=
  let s := nptr.dropWhile isspace
  let neg : Bool := s.head? = some '-'
  let s := if s.head? = some '-' ∨ s.head? = some '+' then s.tail else s
  if (base = 0 ∨ base = 16) ∧ s.head? = some '0' ∧
      (s.tail.head? = some 'x' ∨ s.tail.head? = some 'X') then (neg, 16, s.tail.tail)
  else if base = 0 then (neg, if s.head? = some '0' then 8 else 10, s)
  else (neg, base, s)

/-- The number, `*endptr` and whether `errno` is set to `ERANGE`. -/
@[ext] structure Esito where
  acc : Word
  endptr : List Char
  erange : Bool
  deriving DecidableEq

/-- `limite neg` is the largest number and `satura neg` the result for a greater one. -/
def strto (limite satura : Bool → Word) (nptr : List Char) (base : Nat) : Esito :=
  let (neg, base, s) := prepara nptr base
  let cutlim := (limite neg).toNat % base
  let cutoff := limite neg / BitVec.ofNat 32 base
  let (acc, any, s) := cicloStrto base cutoff cutlim 0 0 s
  { acc := if any < 0 then satura neg else if neg then -acc else acc
    endptr := if any ≠ 0 then s else nptr
    erange := any < 0 }

abbrev LONG_MAX : Word := 0x7FFFFFFF
abbrev LONG_MIN : Word := 0x80000000
abbrev ULONG_MAX : Word := 0xFFFFFFFF

def strtol (nptr : List Char) (base : Nat) : Esito :=
  strto (fun neg => if neg then -LONG_MIN else LONG_MAX)
    (fun neg => if neg then LONG_MIN else LONG_MAX) nptr base

def strtoul (nptr : List Char) (base : Nat) : Esito :=
  strto (fun _ => ULONG_MAX) (fun _ => ULONG_MAX) nptr base

end Stdio

end Pitos
