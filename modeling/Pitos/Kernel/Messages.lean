import Mathlib.Data.Fin.VecNotation
import Mathlib.Data.Nat.Digits.Lemmas
import Pitos.Kernel.Events

/-!
# The texts of the signals

The part of `vsprintf` and `ucvt` (`libc/ioformat`) that the texts of `handlesignals` use, what
this routine formats into `buf` (`klib/ssignal.cpp`), and the routine with its texts. A string
is the list of the characters before its `NUL`.
-/

namespace Pitos

open Lib

abbrev ADD_PLUS : Nat := 2
abbrev SPACE_PAD : Nat := 4
abbrev ZERO_PAD : Nat := 8
abbrev LEFT_PAD : Nat := 16

/-- `libc/string/strbase.c`. -/
def todigit (c : Nat) : Char :=
  if c ≤ 9 then Char.ofNat (c + 0x30)
  else if c ≤ 15 then Char.ofNat (c + 0x41 - 10)
  else Char.ofNat c

/-- A negative `base` asks for a signed number. `tmp` has the least significant digit first. -/
def ucvt (v : Word) (base : Int) (width flag : Nat) : List Char :=
  let flag := flag ^^^ LEFT_PAD
  let meno := base < 0 ∧ v.msb = true
  let absV := if meno then -v else v
  let tmp := if v = 0 then ['0'] else (Nat.digits base.natAbs absV.toNat).map todigit
  let segno := if meno then ['-'] else if flag &&& ADD_PLUS ≠ 0 then ['+'] else []
  let ret := tmp.length + if flag &&& ADD_PLUS ≠ 0 ∨ meno then 1 else 0
  let spazi := if flag &&& LEFT_PAD ≠ 0 ∧ flag &&& SPACE_PAD ≠ 0 then width - ret else 0
  let ret := ret + spazi
  let zeri := if flag &&& LEFT_PAD ≠ 0 ∧ flag &&& ZERO_PAD ≠ 0 then width - ret else 0
  let ret := ret + zeri
  let coda := if flag &&& SPACE_PAD ≠ 0 ∧ flag &&& LEFT_PAD = 0 then width - ret else 0
  List.replicate spazi ' ' ++ segno ++ List.replicate zeri '0' ++ tmp.reverse ++
    List.replicate coda ' '

def dcvt (v : Word) (base : Int) (width flag : Nat) : List Char := ucvt v (-base) width flag

/-- An argument of `vsprintf`. -/
inductive Parametro
  | intero (v : Word)
  | stringa (sp : List Char)

/-- The conversions that the kernel's texts use: without flags, width and size `w` is 10 and `flag`
is 0, and in `%0wx` the width is one digit. -/
def vsprintf : List Char → List Parametro → List Char
  | [], _ => []
  | '%' :: 'd' :: fmt, .intero n :: parms => dcvt n 10 10 0 ++ vsprintf fmt parms
  | '%' :: 'x' :: fmt, .intero n :: parms => ucvt n 16 10 0 ++ vsprintf fmt parms
  | '%' :: '0' :: w :: 'x' :: fmt, .intero n :: parms =>
    ucvt n 16 (w.toNat - 0x30) ZERO_PAD ++ vsprintf fmt parms
  | '%' :: 's' :: fmt, .stringa sp :: parms => sp ++ vsprintf fmt parms
  | c :: fmt, parms => c :: vsprintf fmt parms

def sprintf (fmt : String) (parms : List Parametro) : List Char := vsprintf fmt.toList parms

/-- The column `nome`. -/
def signaltable : Fin SIGCOUNT → String :=
  !["", "SIGHUP", "SIGINT", "SIGQUIT", "SIGILL", "SIGTRAP", "SIGABRT", "SIGEMT", "SIGFPE",
    "SIGKILL", "SIGBUS", "SIGSEGV", "SIGSYS", "SIGPIPE", "SIGALRM", "SIGTERM", "SIGURG",
    "SIGSTOP", "SIGTSTP", "SIGCONT", "SIGCHLD", "SIGTTIN", "SIGTTOU", "SIGPOLL", "SIGXCPU",
    "SIGXFSZ", "SIGVTALRM6", "SIGPROF", "SIGWINCH", "SIGINFO", "SIGUSR1", "SIGUSR2"]

/-- The size of `buf`. -/
abbrev BUF : Nat := 100

/-- The first 16 entries of the table, one after the other. -/
def testoTabella (sigHandlers : Fin SIGCOUNT → Word) : List Char :=
  (List.finRange 16).foldl
    (fun buf i => buf ++ sprintf " %x" [.intero (sigHandlers (i.castLE (by decide)))]) []

/-- What `handlesignals` formats into `buf`, in this order, for the process at address
`esecuzione` with descriptor `d` when `sig` is the signal it has selected. -/
def testiSegnale (esecuzione : Word) (d : DesProc) (sig : Fin SIGCOUNT) : List (List Char) :=
  let numero := Parametro.intero (BitVec.ofNat 32 sig)
  let fx := d.sigHandlers sig
  let scelta := sprintf "Process %x Signal Mask %x, Selected %d %s = %x"
    [.intero esecuzione, .intero d.sigMask, numero, .stringa (signaltable sig).toList, .intero fx]
  let tabella := testoTabella (Function.update d.sigHandlers sig SIG_DFL)
  let azione :=
    if fx = SIG_IGN then [sprintf "Signal - %d - Ignored" [numero]]
    else if fx = SIG_DFL then [sprintf "Signal - %d - Default" [numero]]
    else if fx = SIG_ERR then [sprintf "Signal - %d - Error" [numero]]
    else []
  scelta :: tabella :: azione

/-- `handlesignals` with its texts. Behind `buf` are the saved registers and the return address
of the call: a text without room for its `NUL` runs over them. -/
def handlesignalsBuf (s : Kernel) : Esito Kernel :=
  match getlsb (s.des s.esecuzione).sigMask with
  | none => .error .diverge
  | some sig =>
    if h : sig < SIGCOUNT then
      if ∀ t ∈ testiSegnale (indirizzo s.link s.esecuzione) (s.des s.esecuzione) ⟨sig, h⟩,
          t.length < BUF then
        handlesignals s
      else .error (.perduto s)
    else handlesignals s

/-! ## Hexadecimal digits -/

/-- The hexadecimal digits of `w`, the least significant one last. -/
def esadecimale (w : Word) : List Char :=
  (if w = 0 then ['0'] else (Nat.digits 16 w.toNat).map todigit).reverse

/-- Their number. -/
def cifre (w : Word) : Nat := Nat.log 16 w.toNat + 1

theorem cifre_le (w : Word) : cifre w ≤ 8 := by
  have hlt : w.toNat < 16 ^ 8 := w.isLt
  have hlog := Nat.log_lt_of_lt_pow' (by decide) hlt
  unfold cifre
  omega

theorem esadecimale_length (w : Word) : (esadecimale w).length = cifre w := by
  rw [esadecimale, List.length_reverse, cifre]
  split
  · rename_i hw
    rw [hw]
    rfl
  · rename_i hw
    have hne : w.toNat ≠ 0 := fun h => hw (BitVec.eq_of_toNat_eq h)
    rw [List.length_map, Nat.length_digits 16 _ (by decide) hne]

/-- `%x`: without flags there is no sign and nothing is padded. -/
theorem ucvt_esa (w : Word) : ucvt w 16 10 0 = esadecimale w := by
  have hplus : LEFT_PAD &&& ADD_PLUS = 0 := rfl
  have hspace : LEFT_PAD &&& SPACE_PAD = 0 := rfl
  have hzero : LEFT_PAD &&& ZERO_PAD = 0 := rfl
  simp [ucvt, esadecimale, hplus, hspace, hzero]

/-- `%0wx` pads with zeros. -/
theorem ucvt_zero (w : Word) (width : Nat) : ucvt w 16 width ZERO_PAD =
    List.replicate (width - cifre w) '0' ++ esadecimale w := by
  have hflag : ZERO_PAD ^^^ LEFT_PAD = 24 := rfl
  have hplus : 24 &&& ADD_PLUS = 0 := rfl
  have hspace : 24 &&& SPACE_PAD = 0 := rfl
  rw [← esadecimale_length]
  simp [ucvt, esadecimale, hflag, hplus, hspace]

/-- `libc/string/strbase.c`, for the characters that `todigit` makes of the digits. -/
def tonumber (c : Char) : Nat :=
  if '0' ≤ c ∧ c ≤ '9' then c.toNat - 0x30 else c.toNat - 0x41 + 10

theorem tonumber_todigit : ∀ k < 16, tonumber (todigit k) = k := by decide

/-- The number that a string of digits stands for. -/
def letto (l : List Char) : Nat := l.foldl (fun n c => 16 * n + tonumber c) 0

theorem letto_replicate (k : Nat) (l : List Char) : letto (List.replicate k '0' ++ l) = letto l := by
  induction k with
  | zero => rfl
  | succ k ih => exact ih

/-- The digits of a number read back. -/
theorem foldr_digits (l : List Nat) (h : ∀ k ∈ l, k < 16) :
    (l.map todigit).foldr (fun c n => 16 * n + tonumber c) 0 = Nat.ofDigits 16 l := by
  induction l with
  | nil => rfl
  | cons k l ih =>
    have hk := tonumber_todigit k (h k List.mem_cons_self)
    have hl := ih fun j hj => h j (List.mem_cons_of_mem _ hj)
    rw [List.map_cons, List.foldr_cons, hl, hk, Nat.ofDigits_cons]
    omega

theorem letto_esadecimale (w : Word) : letto (esadecimale w) = w.toNat := by
  rw [letto, esadecimale, List.foldl_reverse]
  split
  · rename_i hw
    rw [hw]
    rfl
  · rw [foldr_digits _ fun k hk => Nat.digits_lt_base (by decide) hk, Nat.ofDigits_digits]

/-- A word is known by its digits, padded or not. -/
theorem ucvt_inj {a b : Word} {width : Nat}
    (h : ucvt a 16 width ZERO_PAD = ucvt b 16 width ZERO_PAD) : a = b := by
  have hletto := congrArg letto h
  rw [ucvt_zero, ucvt_zero, letto_replicate, letto_replicate, letto_esadecimale,
    letto_esadecimale] at hletto
  exact BitVec.eq_of_toNat_eq hletto

end Pitos
