import Pitos.Kernel.Messages
import Pitos.Lib.Radix

/-!
# Numbers in a text

`strtou` and `strtoi` of `libc/stdlib`, with `tonumber` and `isnumber` of `libc/string/strbase.c`.
A text is the list of the characters before its `NUL`, and what `*scan_end` points to is the text
from there. Both functions read the same digits in the same loop; they differ in the comparison that
tells an overflow.
-/

namespace Pitos

open Lib

namespace Stdio

def tonumber (c : Char) : Nat :=
  if '0' ≤ c ∧ c ≤ '9' then c.toNat - '0'.toNat
  else if 'A' ≤ c ∧ c ≤ 'F' then c.toNat - 'A'.toNat + 10
  else if 'a' ≤ c ∧ c ≤ 'f' then c.toNat - 'a'.toNat + 10
  else c.toNat

/-- `digits[base-1]`. -/
def ultima (base : Nat) : Char := "0123456789ABCDEF".toList.getD (base - 1) '\x00'

/-- In radix 16 also the seven characters between the digits and the letters pass. -/
def isnumber (c : Char) (base : Nat) : Bool := '0' ≤ c ∧ c ≤ ultima base

/-- The loop, where `cala new oldresult` is the test for an overflow; `none` is the `return(0)` in
its middle. -/
def cicloCifre (cala : Word → Word → Bool) (base : Nat) (result : Word) (overflow : Bool) :
    List Char → Option (Word × Bool × List Char)
  | [] => some (result, overflow, [])
  | c :: s =>
    if isnumber c base then
      if tonumber c > base then none
      else
        let new := result * BitVec.ofNat 32 base + BitVec.ofNat 32 (tonumber c)
        cicloCifre cala base new (overflow || cala new result) s
    else some (result, overflow, c :: s)

abbrev INT_MAX_WORD : Word := 2147483647

def saltaZeri (s : List Char) : List Char := s.dropWhile (· = '0')

/-- The number and what `*scan_end` is afterwards; `scanEnd` is what it was before. -/
def strtou (s : List Char) (base : Nat) (scanEnd : List Char) : Word × List Char :=
  let s := saltaZeri s
  let s := if s.head? = some 'x' ∧ base = 16 then saltaZeri s.tail else s
  match cicloCifre BitVec.ult base 0 false s with
  | none => (0, scanEnd)
  | some (result, overflow, s) => (if overflow then INT_MAX_WORD else result, s)

/-- An overflow is cut before the sign is put. -/
def strtoi (s : List Char) (base : Nat) (scanEnd : List Char) : Word × List Char :=
  let sign : Word := if s.head? = some '-' then -1 else 1
  let s := if s.head? = some '-' ∨ s.head? = some '+' then s.tail else s
  match cicloCifre BitVec.slt base 0 false (saltaZeri s) with
  | none => (0, scanEnd)
  | some (result, overflow, s) => ((if overflow then INT_MAX_WORD else result) * sign, s)

/-! ## The digits that are read -/

/-- The characters that both functions take for digits of a radix. -/
def Cifre (base : Nat) (l : List Char) : Prop := ∀ c ∈ l, isnumber c base = true ∧ tonumber c ≤ base

/-- The text goes on with a character that is no digit, or ends. -/
def Ferma (base : Nat) (l : List Char) : Prop := ∀ c ∈ l.head?, isnumber c base = false

variable {cala : Word → Word → Bool} {base n limit : Nat} {l l' rest e : List Char} {c : Char}
  {result : Word} {overflow : Bool}

theorem Cifre.tail (h : Cifre base (c :: l)) : Cifre base l :=
  fun c hc => h c (List.mem_cons_of_mem _ hc)

theorem Cifre.saltaZeri (h : Cifre base l) : Cifre base (saltaZeri l) :=
  fun c hc => h c (List.dropWhile_subset _ hc)

theorem isnumber_dieci : isnumber c 10 = true ↔ '0' ≤ c ∧ c ≤ '9' := decide_eq_true_iff

theorem cifre_dieci (h : ∀ c ∈ l, '0' ≤ c ∧ c ≤ '9') : Cifre 10 l := by
  intro c hc
  refine ⟨isnumber_dieci.mpr (h c hc), ?_⟩
  have h9 : c.toNat ≤ '9'.toNat := (h c hc).2
  rw [tonumber, if_pos (h c hc)]
  exact (Nat.sub_le_sub_right h9 _).trans (by decide)

theorem cicloCifre_ferma (h : Ferma base rest) :
    cicloCifre cala base result overflow rest = some (result, overflow, rest) := by
  cases rest with
  | nil => rfl
  | cons c rest =>
    rw [cicloCifre, h c rfl]
    rfl

/-- The loop stops behind the digits, whatever follows them. -/
theorem cicloCifre_cifre (cala : Word → Word → Bool) (result : Word) (overflow : Bool)
    (h : Cifre base l) : ∃ r o, ∀ rest, Ferma base rest →
    cicloCifre cala base result overflow (l ++ rest) = some (r, o, rest) := by
  induction l generalizing result overflow with
  | nil => exact ⟨result, overflow, fun rest hr => cicloCifre_ferma hr⟩
  | cons c l ih =>
    obtain ⟨r, o, hro⟩ := ih (result * BitVec.ofNat 32 base + BitVec.ofNat 32 (tonumber c))
      (overflow || cala (result * BitVec.ofNat 32 base + BitVec.ofNat 32 (tonumber c)) result) h.tail
    refine ⟨r, o, fun rest hr => ?_⟩
    obtain ⟨hc, hle⟩ := h c List.mem_cons_self
    rw [List.cons_append, cicloCifre, if_pos hc, if_neg (not_lt.mpr hle)]
    exact hro rest hr

/-- Up to a limit below which the comparison finds no overflow the number is read. -/
theorem cicloCifre_eq (hcala : ∀ a b, a ≤ b → b ≤ limit →
      cala (BitVec.ofNat 32 b) (BitVec.ofNat 32 a) = false)
    (h : Cifre base l) (hbase : 1 ≤ base) (hn : Radix.evalFrom tonumber base n l ≤ limit)
    (hr : Ferma base rest) :
    cicloCifre cala base (BitVec.ofNat 32 n) overflow (l ++ rest) =
      some (BitVec.ofNat 32 (Radix.evalFrom tonumber base n l), overflow, rest) := by
  induction l generalizing n with
  | nil => exact cicloCifre_ferma hr
  | cons c l ih =>
    obtain ⟨hc, hle⟩ := h c List.mem_cons_self
    rw [Radix.evalFrom_cons] at hn ⊢
    have hlimit : base * n + tonumber c ≤ limit := (Radix.le_evalFrom hbase).trans hn
    have hmul : n ≤ base * n + tonumber c :=
      (Nat.le_mul_of_pos_left n hbase).trans (Nat.le_add_right _ _)
    have hnew : BitVec.ofNat 32 n * BitVec.ofNat 32 base + BitVec.ofNat 32 (tonumber c) =
        BitVec.ofNat 32 (base * n + tonumber c) := by
      rw [← BitVec.ofNat_mul, ← BitVec.ofNat_add, Nat.mul_comm]
    rw [List.cons_append, cicloCifre, if_pos hc, if_neg (not_lt.mpr hle)]
    simp only [hnew, hcala _ _ hmul hlimit, Bool.or_false]
    exact ih h.tail hn

theorem ult_cala {a b : Nat} (hab : a ≤ b) (hb : b ≤ 2 ^ 32 - 1) :
    BitVec.ult (BitVec.ofNat 32 b) (BitVec.ofNat 32 a) = false := by
  rw [BitVec.ult, BitVec.toNat_ofNat, BitVec.toNat_ofNat, Nat.mod_eq_of_lt (by omega),
    Nat.mod_eq_of_lt (by omega)]
  exact decide_eq_false (not_lt.mpr hab)

theorem toInt_ofNat_of_lt {a : Nat} (ha : a ≤ 2 ^ 31 - 1) : (BitVec.ofNat 32 a).toInt = a := by
  have hnat : (BitVec.ofNat 32 a).toNat = a := by
    rw [BitVec.toNat_ofNat]
    exact Nat.mod_eq_of_lt (by omega)
  rw [BitVec.toInt_eq_toNat_of_lt (by omega), hnat]

theorem slt_cala {a b : Nat} (hab : a ≤ b) (hb : b ≤ 2 ^ 31 - 1) :
    BitVec.slt (BitVec.ofNat 32 b) (BitVec.ofNat 32 a) = false := by
  rw [BitVec.slt, toInt_ofNat_of_lt hb, toInt_ofNat_of_lt (hab.trans hb)]
  exact decide_eq_false (not_lt.mpr (Int.ofNat_le.mpr hab))

/-! ## Zeros in front -/

theorem saltaZeri_append (h : rest.head? ≠ some '0') :
    saltaZeri (l ++ rest) = saltaZeri l ++ rest := by
  unfold saltaZeri
  induction l with
  | nil =>
    cases rest with
    | nil => rfl
    | cons c rest =>
      have hc : c ≠ '0' := fun hc => h (congrArg some hc)
      rw [List.nil_append, List.dropWhile_cons_of_neg (by simpa using hc)]
      rfl
  | cons c l ih =>
    by_cases hc : c = '0'
    · rw [List.cons_append, List.dropWhile_cons_of_pos (by simpa using hc),
        List.dropWhile_cons_of_pos (by simpa using hc), ih]
    · rw [List.cons_append, List.dropWhile_cons_of_neg (by simpa using hc),
        List.dropWhile_cons_of_neg (by simpa using hc), List.cons_append]

theorem evalFrom_saltaZeri :
    Radix.evalFrom tonumber base 0 (saltaZeri l) = Radix.evalFrom tonumber base 0 l := by
  induction l with
  | nil => rfl
  | cons c l ih =>
    by_cases hc : c = '0'
    · subst hc
      have hdrop : Stdio.saltaZeri ('0' :: l) = Stdio.saltaZeri l :=
        List.dropWhile_cons_of_pos (by decide)
      have hzero : base * 0 + tonumber '0' = 0 := by
        rw [Nat.mul_zero, Nat.zero_add]
        decide
      rw [hdrop, ih, Radix.evalFrom_cons, hzero]
    · have hsame : Stdio.saltaZeri (c :: l) = c :: l :=
        List.dropWhile_cons_of_neg (by simpa using hc)
      rw [hsame]

/-! ## What is read -/

/-- A `0` in front of `x` would be a prefix. -/
def Libera (base : Nat) (rest : List Char) : Prop := base = 16 → rest.head? ≠ some 'x'

theorem Ferma.zero (h : Ferma base rest) (hbase : 1 ≤ base) (hle : base ≤ 16) :
    rest.head? ≠ some '0' := by
  intro h0
  have hno := h '0' h0
  have hyes : ∀ b ≤ 16, 1 ≤ b → isnumber '0' b = true := by decide
  rw [hyes base hle hbase] at hno
  cases hno

/-- The text without its zeros, as the loop of `strtou` finds it. -/
theorem strtou_ciclo (h : Cifre base l) (hx : Libera base rest) (hr : Ferma base rest)
    (hbase : 1 ≤ base) (hle : base ≤ 16) : strtou (l ++ rest) base e =
      match cicloCifre BitVec.ult base 0 false (saltaZeri l ++ rest) with
      | none => (0, e)
      | some (result, overflow, s) => (if overflow then INT_MAX_WORD else result, s) := by
  have hno : ¬ ((saltaZeri l ++ rest).head? = some 'x' ∧ base = 16) := by
    intro ⟨hhead, hb⟩
    cases hz : saltaZeri l with
    | nil =>
      rw [hz] at hhead
      exact hx hb hhead
    | cons c l' =>
      rw [hz] at hhead
      have hc := h.saltaZeri c (hz ▸ List.mem_cons_self)
      have hcx : c = 'x' := Option.some.inj hhead
      subst hcx
      subst hb
      exact absurd hc.1 (by decide)
  unfold strtou
  simp only [saltaZeri_append (hr.zero hbase hle), hno, if_false]

theorem strtou_eq (h : Cifre base l) (hn : Radix.evalFrom tonumber base 0 l ≤ 2 ^ 32 - 1)
    (hx : Libera base rest) (hr : Ferma base rest) (hbase : 1 ≤ base) (hle : base ≤ 16) :
    strtou (l ++ rest) base e =
      (BitVec.ofNat 32 (Radix.evalFrom tonumber base 0 l), rest) := by
  have hciclo : cicloCifre BitVec.ult base (BitVec.ofNat 32 0) false (saltaZeri l ++ rest) =
      some (BitVec.ofNat 32 (Radix.evalFrom tonumber base 0 (saltaZeri l)), false, rest) :=
    cicloCifre_eq (fun _ _ => ult_cala) h.saltaZeri hbase (evalFrom_saltaZeri.trans_le hn) hr
  rw [evalFrom_saltaZeri] at hciclo
  rw [strtou_ciclo h hx hr hbase hle]
  simp only [show (0 : Word) = BitVec.ofNat 32 0 from rfl, hciclo]
  rfl

/-- In radix 10 nothing but the digits counts. -/
theorem strtou_dieci (h : ∀ c ∈ l, '0' ≤ c ∧ c ≤ '9')
    (hr : ∀ c ∈ rest.head?, ¬ ('0' ≤ c ∧ c ≤ '9')) :
    strtou (l ++ rest) 10 e = ((strtou l 10 []).1, rest) := by
  have hcifre : Cifre 10 l := cifre_dieci h
  have hferma : Ferma 10 rest := by
    intro c hc
    exact Bool.eq_false_iff.mpr fun hn => hr c hc (isnumber_dieci.mp hn)
  have hx : ∀ rest, Libera 10 rest := fun rest h => absurd h (by decide)
  have hnil : Ferma 10 [] := fun c hc => by cases hc
  obtain ⟨r, o, hro⟩ := cicloCifre_cifre BitVec.ult 0 false hcifre.saltaZeri
  have hshort := strtou_ciclo (e := []) hcifre (hx []) hnil (by decide) (by decide)
  rw [List.append_nil] at hshort
  rw [hshort, strtou_ciclo hcifre (hx rest) hferma (by decide) (by decide), hro rest hferma,
    hro [] hnil]

end Stdio

end Pitos
