import Pitos.Libc.Printf

/-!
# `vsscanf`

`libc/ioformat/sscanf.c`, with `strscn` of `libc/string/string.c`. The text of the format outside
the conversions is not compared with the buffer, and a conversion goes first to the next character
that it can begin with. `base` is one pointer for the numbers in the buffer and for the width in the
format, and `strtou` does not always set it. The numbers with a point are left to `strtod`.
-/

namespace Pitos

open Lib

namespace Stdio

/-- What is stored where the next pointer points to. -/
inductive Letto
  | carattere (c : Char)
  | stringa (l : List Char)
  | intero (v : Word)
  | corto (v : BitVec 16)
  | doppio (v : BitVec 64)
  | reale (v : BitVec 32)
  deriving DecidableEq

structure LeggeReali where
  strtod : List Char → BitVec 64 × List Char
  /-- The conversion of a `double` to a `float`. -/
  stretto : BitVec 64 → BitVec 32

inductive Inciampo
  /-- The format ends behind a `%`, or the buffer before a `%c`, and the loop goes on behind it. -/
  | oltre
  /-- `strscn` returned `NULL`, from where the number would be read. -/
  | nullo
  deriving DecidableEq

/-- The variables of `vsscanf`, with what has been stored. -/
structure Lettura where
  buf : List Char
  base : List Char
  scanned : Nat
  w : Word
  size : Nat
  suppress : Bool
  flag : Nat
  parsing : Nat
  letti : List Letto

/-- `libc/string/strbase.c`. -/
def isspace (c : Char) : Bool := 0x09 ≤ c.toNat ∧ c.toNat ≤ 0x0d ∨ c.toNat = 0x20

/-- The text from the first character of the pattern on; `none` is `NULL`. -/
def strscn (s pattern : List Char) : Option (List Char) :=
  match s.dropWhile (· ∉ pattern) with
  | [] => none
  | s => some s

namespace Lettura

/-- `scanned++; parsing = 0;` -/
def salva (s : Lettura) (v : Letto) : Lettura :=
  { s with scanned := s.scanned + 1, letti := s.letti ++ [v], parsing := 0 }

/-- A number is stored in the size that was asked for. -/
def numeroLetto (size : Nat) (n : Word) : Letto :=
  if size = SHORT_SIZE then .corto (n.setWidth 16) else .intero n

def realeLetto (L : LeggeReali) (size : Nat) (v : BitVec 64) : Letto :=
  if size = SHORT_SIZE then .reale (L.stretto v) else .doppio v

/-- The part that the numbers share: `leggi` is given the text and `base`. -/
def legge {α : Type} (s : Lettura) (pattern : String)
    (leggi : List Char → List Char → α × List Char) (letto : Nat → α → Letto) : Except Inciampo Lettura :=
  match strscn s.buf pattern.toList with
  | none => .error .nullo
  | some buf =>
    let (n, base) := leggi buf s.base
    let s := { s with buf := base, base }
    .ok (if s.suppress then { s with parsing := 0 } else s.salva (letto s.size n))

/-- A width bounds what is stored, not what is read. -/
def stringa (s : Lettura) : Lettura :=
  let buf := s.buf.dropWhile isspace
  let parola := buf.takeWhile fun c => !isspace c
  let l := if s.flag &&& SPACE_PAD = 0 then parola else parola.take (Stampa.larghezza s.w)
  { s with buf := buf.dropWhile fun c => !isspace c }.salva (.stringa l)

end Lettura

namespace Scan

open Lettura

/-- The cases other than the digits. -/
def lettera (L : LeggeReali) (c : Char) (s : Lettura) : Except Inciampo Lettura :=
  match c with
  | 'c' =>
    match s.buf with
    | [] => .error .oltre
    | c :: buf => .ok ({ s with buf }.salva (.carattere c))
  | 's' => .ok s.stringa
  | 'i' => s.legge "1234567890-+" (strtoi · 10 ·) numeroLetto
  | 'd' => s.legge "1234567890-+" (strtoi · 10 ·) numeroLetto
  | 'u' => s.legge "1234567890" (strtou · 10 ·) numeroLetto
  | 'x' => s.legge "1234567890xabcdefABCDEF" (strtou · 16 ·) numeroLetto
  | 'f' => s.legge "1234567890.e+-" (fun buf _ => L.strtod buf) (realeLetto L)
  | 'g' => s.legge "1234567890.e+-" (fun buf _ => L.strtod buf) (realeLetto L)
  | 'e' => s.legge "1234567890.e+-" (fun buf _ => L.strtod buf) (realeLetto L)
  | 'l' => .ok { s with size := LONG_SIZE }
  | 'h' => .ok { s with size := SHORT_SIZE }
  | 'n' => .ok { s with size := SHORT_SIZE }
  | '*' => .ok { s with suppress := true }
  | _ => .ok { s with parsing := 0 }

/-- The cases `'0'` to `'9'`. -/
def numero (fmt : List Char) (s : Lettura) : Lettura × Nat :=
  let (n, base) := strtou fmt 10 s.base
  if s.parsing = 1 then
    ({ s with w := n, base, flag := s.flag ||| SPACE_PAD }, fmt.length - base.length - 1)
  else (s, 0)

/-- The `switch`, and how many characters behind the first one are to be passed over. -/
def token (L : LeggeReali) (fmt : List Char) (s : Lettura) : Except Inciampo (Lettura × Nat) :=
  match fmt with
  | [] => .ok ({ s with parsing := 0 }, 0)
  | c :: _ =>
    if '0' ≤ c ∧ c ≤ '9' then .ok (numero fmt s) else (lettera L c s).map fun s => (s, 0)

/-- The state behind a `%`; the `l` of the source is set again where it is used. -/
def aperta (s : Lettura) : Lettura :=
  { s with parsing := 1, size := STD_SIZE, suppress := false, w := 0, flag := 0 }

/-- The `while` loop, which passes over the text outside the conversions. -/
def direttive (L : LeggeReali) : Directives Lettura Inciampo where
  inside s := s.parsing ≠ 0
  plain _ s := s
  start := aperta
  token := token L
  beyond := .oltre

def ciclo (L : LeggeReali) : List Char → Nat → Lettura → Except Inciampo Lettura :=
  (direttive L).run

end Scan

/-- What is stored, in the order of the pointers, and what is returned. -/
def vsscanf (L : LeggeReali) (buf fmt : List Char) : Except Inciampo (List Letto × Nat) :=
  (Scan.ciclo L fmt 0
    { buf, base := buf, scanned := 0, w := 0, size := STD_SIZE, suppress := false, flag := 0,
      parsing := 0, letti := [] }).map fun s => (s.letti, s.scanned)

end Stdio

end Pitos
