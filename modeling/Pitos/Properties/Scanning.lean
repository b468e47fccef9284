import Pitos.Libc.Scanf
import Pitos.Properties.Formats

/-!
# What `vsscanf` reads back

A text that `vsprintf` has printed is read again by `vsscanf` with the same format. The format is
made of conversions with a text behind each one; what the reader does not compare with the format,
it has to pass over, so the texts may not hold a character that the next conversion can begin with,
and the first character of each has to be one at which the conversion before it ends.
-/

namespace Pitos

open Lib

namespace Stdio

open Stampa (conSegno senzaSegno larghezza)

open Lettura (numeroLetto)

/-! ## Digits -/

section Cifre

variable {base n : Nat} {c : Char}

theorem cifreDi_mem (h : c ∈ cifreDi base n) (hb : 2 ≤ base) : ∃ k < base, c = todigit k := by
  rw [cifreDi, List.mem_reverse] at h
  split at h
  · exact ⟨0, by omega, List.mem_singleton.mp h⟩
  · obtain ⟨k, hk, rfl⟩ := List.mem_map.mp h
    exact ⟨k, Nat.digits_lt_base hb hk, rfl⟩

theorem cifreDi_length (hb : 2 ≤ base) (hn : n < 2 ^ 32) : (cifreDi base n).length ≤ 32 := by
  rw [cifreDi, List.length_reverse]
  split
  · decide
  · rw [List.length_map, Nat.digits_length_le_iff hb]
    exact hn.trans_le (Nat.pow_le_pow_left hb 32)

theorem cifreDi_ne_nil : cifreDi base n ≠ [] := by
  rw [cifreDi, ne_eq, List.reverse_eq_nil_iff]
  split
  · exact List.cons_ne_nil _ _
  · rename_i hn
    rw [List.map_eq_nil_iff, Nat.digits_eq_nil_iff_eq_zero]
    exact hn

theorem todigit_cifra : ∀ b ∈ [10, 16], ∀ k < b,
    isnumber (todigit k) b = true ∧ tonumber (todigit k) = k := by decide

theorem cifre_cifreDi (hb : base ∈ [10, 16]) : Cifre base (cifreDi base n) := by
  intro c hc
  have h2 : ∀ b ∈ [10, 16], 2 ≤ b := by decide
  obtain ⟨k, hk, rfl⟩ := cifreDi_mem hc (h2 base hb)
  obtain ⟨hnum, hval⟩ := todigit_cifra base hb k hk
  exact ⟨hnum, hval.trans_le hk.le⟩

/-- A reader that knows the digits reads the number, with any zeros in front. -/
theorem evalFrom_cifreDi {value : Char → Nat} (hv : ∀ k < base, value (todigit k) = k)
    (hb : 2 ≤ base) (n j : Nat) :
    Radix.evalFrom value base 0 (List.replicate j '0' ++ cifreDi base n) = n := by
  have hzero : value '0' = 0 := hv 0 (by omega)
  have hzeri : Radix.evalFrom value base 0 (List.replicate j '0') = 0 :=
    Radix.evalFrom_zeros fun c hc => List.eq_of_mem_replicate hc ▸ hzero
  rw [Radix.evalFrom_append, hzeri, cifreDi]
  split
  · rename_i hn
    rw [hn]
    exact Radix.evalFrom_zeros (List.forall_mem_singleton.mpr hzero)
  · exact Radix.evalFrom_digits hv hb n

/-- The number with zeros in front, as a field of `vsprintf` has it. -/
theorem cifre_zeri (base n j : Nat) (hb : base ∈ [10, 16]) :
    Cifre base (List.replicate j '0' ++ cifreDi base n) ∧
    Radix.evalFrom tonumber base 0 (List.replicate j '0' ++ cifreDi base n) = n := by
  have hzero : ∀ c ∈ List.replicate j '0', c = '0' := fun c hc => List.eq_of_mem_replicate hc
  have hyes : ∀ b ∈ [10, 16], isnumber '0' b = true ∧ tonumber '0' ≤ b := by decide
  constructor
  · intro c hc
    rcases List.mem_append.mp hc with hc | hc
    · exact hzero c hc ▸ hyes base hb
    · exact cifre_cifreDi hb c hc
  · have h2 : ∀ b ∈ [10, 16], 2 ≤ b := by decide
    exact evalFrom_cifreDi (fun k hk => (todigit_cifra base hb k hk).2) (h2 base hb) n j

end Cifre

/-! ## `strtoi` -/

section Segno

variable {l rest e : List Char}

/-- Sign and digits. -/
theorem strtoi_ciclo (e : List Char) (meno : Bool) (h : Cifre 10 l) (hne : l ≠ [])
    (hr : Ferma 10 rest) {result : Word} {overflow : Bool}
    (hciclo : cicloCifre BitVec.slt 10 0 false (saltaZeri l ++ rest) =
      some (result, overflow, rest)) :
    strtoi ((if meno then ['-'] else []) ++ (l ++ rest)) 10 e =
      ((if overflow then INT_MAX_WORD else result) * if meno then -1 else 1, rest) := by
  have hzeri := saltaZeri_append (l := l) (hr.zero (by decide) (by decide))
  have hsegno : ∀ c ∈ l, c ≠ '-' ∧ c ≠ '+' := by
    intro c hc
    have hnum := (h c hc).1
    constructor
    · intro hm
      rw [hm] at hnum
      exact absurd hnum (by decide)
    · intro hp
      rw [hp] at hnum
      exact absurd hnum (by decide)
  cases meno with
  | true =>
    have htext : (if true = true then ['-'] else []) ++ (l ++ rest) = '-' :: (l ++ rest) := rfl
    rw [htext]
    unfold strtoi
    simp only [List.head?_cons, List.tail_cons, if_true, true_or, hzeri, hciclo]
  | false =>
    obtain ⟨c, l', rfl⟩ := List.exists_cons_of_ne_nil hne
    obtain ⟨hm, hp⟩ := hsegno c List.mem_cons_self
    have htext : (if false = true then ['-'] else []) ++ (c :: l' ++ rest) =
        c :: (l' ++ rest) := rfl
    rw [List.cons_append] at hzeri
    rw [htext]
    unfold strtoi
    simp only [List.head?_cons, Option.some.injEq, hm, hp, if_false, or_self, hzeri, hciclo,
      Bool.false_eq_true]

abbrev INT_MIN_WORD : Word := 0x80000000

/-- The only number that is not read back: its digits overflow before the sign is put. -/
def rilegge (n : Word) : Word := if n = INT_MIN_WORD then n + 1 else n

theorem cifre_minimo : cifreDi 10 (2 ^ 31) = "2147483648".toList := by
  norm_num [cifreDi, todigit]
  rfl

theorem saltaZeri_zeri (j : Nat) : saltaZeri (List.replicate j '0' ++ l) = saltaZeri l := by
  induction j with
  | zero => rfl
  | succ j ih => exact ih

/-- The digits of the least number overflow, with any text behind them. -/
theorem ciclo_minimo (hr : Ferma 10 rest) :
    cicloCifre BitVec.slt 10 0 false (cifreDi 10 (2 ^ 31) ++ rest) =
      some (INT_MIN_WORD, true, rest) := by
  have hcifre : Cifre 10 (cifreDi 10 (2 ^ 31)) := cifre_cifreDi (by decide)
  obtain ⟨r, o, hro⟩ := cicloCifre_cifre BitVec.slt 0 false hcifre
  have hnil := hro [] fun c hc => by cases hc
  rw [hro rest hr]
  rw [cifre_minimo] at hnil
  have hrun : cicloCifre BitVec.slt 10 0 false ("2147483648".toList ++ []) =
      some (INT_MIN_WORD, true, []) := by decide
  have hsame := hnil.symm.trans hrun
  simp only [Option.some.injEq, Prod.mk.injEq] at hsame
  rw [hsame.1, hsame.2.1]

theorem strtoi_eq (n : Word) (j : Nat) (hr : Ferma 10 rest) :
    strtoi ((if n.toInt < 0 then ['-'] else []) ++
      (List.replicate j '0' ++ cifreDi 10 n.toInt.natAbs ++ rest)) 10 e =
      (rilegge n, rest) := by
  obtain ⟨hcifre, heval⟩ := cifre_zeri 10 n.toInt.natAbs j (by decide)
  have hne : List.replicate j '0' ++ cifreDi 10 n.toInt.natAbs ≠ [] :=
    List.append_ne_nil_of_right_ne_nil _ cifreDi_ne_nil
  by_cases hmin : n = INT_MIN_WORD
  · have habs : n.toInt.natAbs = 2 ^ 31 := by
      rw [hmin]
      rfl
    have hneg : n.toInt < 0 := by
      rw [hmin]
      decide
    have hz : saltaZeri (cifreDi 10 (2 ^ 31)) = cifreDi 10 (2 ^ 31) := by
      rw [cifre_minimo]
      rfl
    have hread : cicloCifre BitVec.slt 10 0 false
        (saltaZeri (List.replicate j '0' ++ cifreDi 10 n.toInt.natAbs) ++ rest) =
        some (INT_MIN_WORD, true, rest) := by
      rw [habs, saltaZeri_zeri, hz, ciclo_minimo hr]
    have h := strtoi_ciclo e (n.toInt < 0) hcifre hne hr hread
    simp only [decide_eq_true_eq] at h
    rw [h, if_pos trivial, if_pos hneg, rilegge, if_pos hmin, hmin]
    rfl
  · have hlt : n.toInt.natAbs ≤ 2 ^ 31 - 1 := by
      have hint := BitVec.toInt_eq_toNat_cond n
      have hne : n.toNat ≠ 2 ^ 31 := fun h => hmin (BitVec.eq_of_toNat_eq h)
      have hn := n.isLt
      split at hint <;> omega
    have hread : cicloCifre BitVec.slt 10 (BitVec.ofNat 32 0) false
        (saltaZeri (List.replicate j '0' ++ cifreDi 10 n.toInt.natAbs) ++ rest) =
        some (BitVec.ofNat 32 n.toInt.natAbs, false, rest) := by
      rw [cicloCifre_eq (fun _ _ => slt_cala) hcifre.saltaZeri (by decide)
        (evalFrom_saltaZeri.trans_le (heval.trans_le hlt)) hr, evalFrom_saltaZeri, heval]
    have h := strtoi_ciclo e (n.toInt < 0) hcifre hne hr hread
    simp only [decide_eq_true_eq, Bool.false_eq_true, if_false] at h
    rw [h, rilegge, if_neg hmin]
    refine Prod.ext ?_ rfl
    by_cases hneg : n.toInt < 0
    · have hval : BitVec.ofNat 32 n.toInt.natAbs = -n := by
        apply BitVec.eq_of_toInt_eq
        rw [toInt_ofNat_of_lt hlt, BitVec.toInt_neg_of_ne_intMin hmin]
        omega
      rw [if_pos hneg, hval]
      exact (BitVec.neg_mul_neg n 1).trans (BitVec.mul_one n)
    · have hval : BitVec.ofNat 32 n.toInt.natAbs = n := by
        apply BitVec.eq_of_toInt_eq
        rw [toInt_ofNat_of_lt hlt]
        omega
      rw [if_neg hneg, hval]
      exact BitVec.mul_one n

end Segno

/-! ## The format -/

/-- `d` has no flags and no precision, which `vsscanf` does not know. -/
def Direttiva.Semplice (d : Direttiva) : Prop := d.flags = [] ∧ d.prec = none

namespace Scan

/-- The state in which the last character of `d` is looked at; `fmt` is what stands behind it. -/
def pronta (d : Direttiva) (fmt : List Char) (s : Lettura) : Lettura :=
  { s with
    parsing := 1, size := d.grandezza, suppress := false
    w := if d.width = [] then 0 else d.ampiezza
    flag := if d.width = [] then 0 else SPACE_PAD
    base := if d.width = [] then s.base else d.size.toList ++ d.conv :: fmt }

section Ciclo

variable {L : LeggeReali} {d : Direttiva} {fmt l : List Char} {c : Char} {s : Lettura}

theorem ciclo_ok {s' : Lettura} {k : Nat} (hc : c ≠ '%') (hs : s.parsing ≠ 0)
    (h : token L (c :: fmt) s = .ok (s', k)) : ciclo L (c :: fmt) 0 s = ciclo L fmt k s' :=
  (direttive L).run_ok hc (decide_eq_true hs) h

/-- The text outside the conversions changes nothing. -/
theorem ciclo_testo (hl : '%' ∉ l) (hs : s.parsing = 0) :
    ciclo L (l ++ fmt) 0 s = ciclo L fmt 0 s := by
  have hfold : ∀ l : List Char, l.foldl (fun s c => (direttive L).plain c s) s = s := by
    intro l
    induction l with
    | nil => rfl
    | cons c l ih => exact ih
  refine ((direttive L).run_plains hl (decide_eq_false (not_not.mpr hs)) fun c s h => h).trans ?_
  rw [hfold]
  rfl

theorem ciclo_ampiezza (hs : s.parsing = 1) (hw : s.w = 0) (hflag : s.flag = 0)
    (hf : ∀ c ∈ fmt.head?, ¬ cifraDecimale c) :
    ciclo L (d.width ++ fmt) 0 s = ciclo L fmt 0 { s with
      w := if d.width = [] then 0 else d.ampiezza
      flag := if d.width = [] then 0 else SPACE_PAD
      base := if d.width = [] then s.base else fmt } := by
  cases h : d.width with
  | nil =>
    simp only [if_true, List.nil_append, ← hw, ← hflag]
  | cons c l =>
    have hcifre : ∀ c' ∈ c :: l, cifraDecimale c' := h ▸ d.width_ok
    have hc := hcifre c List.mem_cons_self
    have hne : c ≠ '%' := fun h => absurd (h ▸ hc) (by decide)
    have hstrtou : strtou (c :: (l ++ fmt)) 10 s.base = (d.ampiezza, fmt) := by
      rw [Direttiva.ampiezza, h, if_neg (List.cons_ne_nil c l)]
      exact strtou_dieci (l := c :: l) hcifre hf
    have holtre : (c :: (l ++ fmt)).length - fmt.length - 1 = l.length := by
      rw [List.length_cons, List.length_append]
      omega
    have htoken : token L (c :: (l ++ fmt)) s = .ok ({ s with
        w := d.ampiezza, base := fmt, flag := s.flag ||| SPACE_PAD }, l.length) := by
      have hnumero : token L (c :: (l ++ fmt)) s = .ok (numero (c :: (l ++ fmt)) s) := if_pos hc
      rw [hnumero, numero, hstrtou]
      simp only [hs, if_true, holtre]
    rw [List.cons_append, ciclo_ok hne (by omega) htoken]
    refine (direttive L).run_drop.trans ?_
    simp only [List.cons_ne_nil, if_false, hflag, Nat.zero_or]
    rfl

theorem ciclo_size (hs : s.parsing ≠ 0) (hz : s.size = STD_SIZE) :
    ciclo L (d.size.toList ++ fmt) 0 s = ciclo L fmt 0 { s with size := d.grandezza } := by
  unfold Direttiva.grandezza
  cases h : d.size with
  | none =>
    rw [← hz]
    rfl
  | some c =>
    rcases d.size_ok c h with rfl | rfl | rfl
    · exact ciclo_ok (by decide) hs rfl
    · exact ciclo_ok (by decide) hs rfl
    · exact ciclo_ok (by decide) hs rfl

theorem ciclo_mezzo (hd : d.Semplice) :
    ciclo L ('%' :: d.mezzo ++ d.conv :: fmt) 0 s = ciclo L (d.conv :: fmt) 0 (pronta d fmt s) := by
  have hmezzo : d.mezzo = d.width ++ d.size.toList := by
    rw [Direttiva.mezzo, Direttiva.precisione, hd.1, hd.2, List.nil_append, List.append_nil]
  have hapre : ciclo L ('%' :: d.mezzo ++ d.conv :: fmt) 0 s =
      ciclo L (d.mezzo ++ d.conv :: fmt) 0 (aperta s) := by
    cases h : d.mezzo with
    | nil => exact (direttive L).run_start_inside (conv_ok' d).1 rfl
    | cons c l =>
      have hne : c ≠ '%' := fun hc => percento_mezzo d (h ▸ hc ▸ List.mem_cons_self)
      exact (direttive L).run_start_inside hne rfl
  rw [hapre, hmezzo, List.append_assoc, ciclo_ampiezza rfl rfl rfl (size_cifra d)]
  exact ciclo_size Nat.one_ne_zero rfl

/-- A conversion does what its last character does. -/
theorem ciclo_direttiva {s' : Lettura} (hd : d.Semplice)
    (h : lettera L d.conv (pronta d fmt s) = .ok s') :
    ciclo L ((Pezzo.direttiva d).formato ++ fmt) 0 s = ciclo L fmt 0 s' := by
  have happ : (Pezzo.direttiva d).formato ++ fmt = '%' :: d.mezzo ++ d.conv :: fmt := by
    simp [Pezzo.formato]
  have htoken : token L (d.conv :: fmt) (pronta d fmt s) = .ok (s', 0) := by
    rw [show token L (d.conv :: fmt) (pronta d fmt s) =
      (lettera L d.conv (pronta d fmt s)).map fun s => (s, 0) from if_neg (conv_ok' d).2, h]
    rfl
  rw [happ, ciclo_mezzo hd]
  exact ciclo_ok (conv_ok' d).1 Nat.one_ne_zero htoken

end Ciclo

end Scan

/-! ## The conversions -/

def CIFRE_D : String := "1234567890-+"
def CIFRE_U : String := "1234567890"
def CIFRE_X : String := "1234567890xabcdefABCDEF"

section Numeri

variable {d : Direttiva} {s : Lettura} {p corpo rest : List Char} {pattern : String}

/-- Whatever the flags, a field is spaces, the sign, zeros, the digits and spaces again. -/
theorem campo_spazi (d : Direttiva) (segno cifre : List Char) : ∃ i j m,
    d.campo segno cifre =
      List.replicate i ' ' ++ (segno ++ (List.replicate j '0' ++ cifre)) ++ List.replicate m ' ' ∧
    ('-' ∉ d.flags → m = 0) := by
  by_cases hm : '-' ∈ d.flags
  · exact ⟨0, 0, _, by rw [Direttiva.campo, if_pos hm]; rfl, fun h => absurd hm h⟩
  · by_cases h0 : d.width.head? = some '0'
    · refine ⟨0, d.colonne - (segno.length + cifre.length), 0, ?_, fun _ => rfl⟩
      simp [Direttiva.campo, hm, h0]
    · refine ⟨d.colonne - (segno.length + cifre.length), 0, 0, ?_, fun _ => rfl⟩
      simp [Direttiva.campo, hm, h0]

/-- Without flags a field is filled with spaces or, behind the sign, with zeros. -/
theorem campo_forma (hd : d.Semplice) (segno cifre : List Char) : ∃ i j,
    d.campo segno cifre = List.replicate i ' ' ++ (segno ++ (List.replicate j '0' ++ cifre)) := by
  obtain ⟨i, j, m, hcampo, hm⟩ := campo_spazi d segno cifre
  have hmeno : '-' ∉ d.flags := by
    rw [hd.1]
    exact List.not_mem_nil
  rw [hm hmeno, List.replicate_zero, List.append_nil] at hcampo
  exact ⟨i, j, hcampo⟩

theorem strscn_append (rest : List Char) (hp : ∀ c ∈ p, c ∉ pattern.toList) (hne : corpo ≠ [])
    (hc : ∀ c ∈ corpo, c ∈ pattern.toList) :
    strscn (p ++ (corpo ++ rest)) pattern.toList = some (corpo ++ rest) := by
  obtain ⟨c, l, rfl⟩ := List.exists_cons_of_ne_nil hne
  have hdrop : (p ++ (c :: l ++ rest)).dropWhile (· ∉ pattern.toList) = c :: l ++ rest := by
    rw [List.dropWhile_append_of_pos fun c hc => decide_eq_true (hp c hc), List.cons_append,
      List.dropWhile_cons_of_neg]
    simpa using hc c List.mem_cons_self
  rw [strscn, hdrop]
  rfl

/-- A number is found behind what the conversion passes over, and stored. -/
theorem legge_corpo {f : List Char → List Char → Word × List Char} {n : Word} {i : Nat}
    (hs : s.suppress = false) (hp : ∀ c ∈ p, c ∉ pattern.toList) (hspazio : ' ' ∉ pattern.toList)
    (hne : corpo ≠ []) (hc : ∀ c ∈ corpo, c ∈ pattern.toList)
    (hf : f (corpo ++ rest) s.base = (n, rest))
    (hbuf : s.buf = p ++ (List.replicate i ' ' ++ corpo) ++ rest) :
    s.legge pattern f numeroLetto =
      .ok ({ s with buf := rest, base := rest }.salva (numeroLetto s.size n)) := by
  have hspazi : ∀ c ∈ p ++ List.replicate i ' ', c ∉ pattern.toList := by
    intro c hc
    rcases List.mem_append.mp hc with hc | hc
    · exact hp c hc
    · rw [List.eq_of_mem_replicate hc]
      exact hspazio
  have hscn := strscn_append rest hspazi hne hc
  have happ : s.buf = p ++ List.replicate i ' ' ++ (corpo ++ rest) := by
    rw [hbuf]
    simp only [List.append_assoc]
  unfold Lettura.legge
  rw [happ, hscn]
  simp only [hf, hs]
  rfl

/-- The digits of a number, with zeros in front, are characters of the conversion. -/
theorem corpo_mem {base n j : Nat} {pattern : List Char} (h2 : 2 ≤ base)
    (hpat : ∀ k < base, todigit k ∈ pattern) :
    ∀ c ∈ List.replicate j '0' ++ cifreDi base n, c ∈ pattern := by
  intro c hc
  rcases List.mem_append.mp hc with hc | hc
  · rw [List.eq_of_mem_replicate hc]
    exact hpat 0 (by omega)
  · obtain ⟨k, hk, rfl⟩ := cifreDi_mem hc h2
    exact hpat k hk

end Numeri

/-! ## What may stand around a conversion -/

/-- The characters that a conversion passes over before it begins. -/
def scorre (conv c : Char) : Bool :=
  match conv with
  | 's' => isspace c
  | 'x' => c ∉ CIFRE_X.toList
  | 'u' => c ∉ CIFRE_U.toList
  | _ => c ∉ CIFRE_D.toList

/-- The characters at which it ends. In radix 16 a `0` in front of an `x` would be a prefix. -/
def chiude (conv c : Char) : Bool :=
  match conv with
  | 's' => isspace c
  | 'x' => isnumber c 16 = false ∧ c ≠ 'x'
  | _ => isnumber c 10 = false

/-- A conversion with its argument and the text behind it. -/
structure Voce where
  d : Direttiva
  a : Argomento
  dietro : List Char
  semplice : d.Semplice
  tipo : match a with
    | .intero _ => d.conv ∈ ['d', 'i', 'u', 'x']
    | .stringa sp => d.conv = 's' ∧ sp ≠ [] ∧ ∀ c ∈ sp, isspace c = false
    | .reale _ => False
  dietro_ok : '%' ∉ dietro
  dietro_chiude : ∀ c ∈ dietro.head?, chiude d.conv c = true

namespace Voce

def pezzi (v : Voce) : List Pezzo := [.direttiva v.d, .testo v.dietro v.dietro_ok]

/-- A number is stored as it was passed, in the size that is asked for, but for the least `int`; a
string is cut to the width. -/
def letto (v : Voce) : Letto :=
  match v.a with
  | .intero w =>
    if v.d.grandezza = SHORT_SIZE then .corto (w.setWidth 16)
    else if v.d.conv = 'd' ∨ v.d.conv = 'i' then .intero (rilegge w)
    else .intero w
  | .stringa sp => .stringa (if v.d.width = [] then sp else sp.take v.d.colonne)
  | .reale v => .doppio v

end Voce

/-- Every text is passed over by the conversion behind it, and between two conversions there is
one. -/
def Separati : List Char → List Voce → Prop
  | _, [] => True
  | prima, v :: vs =>
    (∀ c ∈ prima, scorre v.d.conv c = true) ∧ (vs ≠ [] → v.dietro ≠ []) ∧ Separati v.dietro vs

/-- The format has been read up to behind a conversion. -/
structure Letta (v : Letto) (rest : List Char) (s s' : Lettura) : Prop where
  parsing : s'.parsing = 0
  buf : s'.buf = rest
  scanned : s'.scanned = s.scanned + 1
  letti : s'.letti = s.letti ++ [v]

section Voci

variable {L : LeggeReali} {R : Reali} {d : Direttiva} {s : Lettura} {p rest fmt : List Char}

theorem rilegge_conSegno (z : Nat) (w : Word) : numeroLetto z (rilegge (conSegno z w)) =
    if z = SHORT_SIZE then .corto (w.setWidth 16) else .intero (rilegge w) := by
  by_cases hz : z = SHORT_SIZE
  · have hne : (w.setWidth 16).signExtend 32 ≠ INT_MIN_WORD := by
      intro h
      have hint := congrArg BitVec.toInt h
      rw [BitVec.toInt_signExtend_of_le (by decide)] at hint
      have hlow := BitVec.le_toInt (w.setWidth 16)
      have hmin : INT_MIN_WORD.toInt = -2147483648 := by decide
      omega
    rw [numeroLetto, if_pos hz, if_pos hz, conSegno, if_pos hz, rilegge, if_neg hne]
    congr 1
    ext i hi
    rw [BitVec.getElem_setWidth, BitVec.getLsbD_signExtend, if_pos hi, BitVec.getLsbD_setWidth,
      BitVec.getElem_setWidth, decide_eq_true hi, decide_eq_true (show i < 32 by omega),
      Bool.true_and, Bool.true_and]
  · rw [numeroLetto, if_neg hz, if_neg hz, conSegno, if_neg hz]

theorem numeroLetto_senzaSegno (z : Nat) (w : Word) : numeroLetto z (senzaSegno z w) =
    if z = SHORT_SIZE then .corto (w.setWidth 16) else .intero w := by
  by_cases hz : z = SHORT_SIZE
  · rw [numeroLetto, if_pos hz, if_pos hz, senzaSegno, if_pos hz,
      BitVec.setWidth_setWidth_of_le _ (by decide), BitVec.setWidth_eq]
  · rw [numeroLetto, if_neg hz, if_neg hz, senzaSegno, if_neg hz]

/-- A conversion without a sign. -/
theorem letta_nat (base : Nat) (pattern : String) (hb : base ∈ [10, 16]) (hd : d.Semplice)
    (w : Word) (hpat : ∀ k < base, todigit k ∈ pattern.toList) (hspazio : ' ' ∉ pattern.toList)
    (hp : ∀ c ∈ p, c ∉ pattern.toList) (hr : Ferma base rest) (hx : Libera base rest)
    (hbuf : s.buf = p ++ d.campo (d.segno false) (cifreDi base (senzaSegno d.grandezza w).toNat)
      ++ rest)
    (hl : Scan.lettera L d.conv (Scan.pronta d fmt s) =
      (Scan.pronta d fmt s).legge pattern (strtou · base ·) numeroLetto) :
    ∃ s', Letta (if d.grandezza = SHORT_SIZE then .corto (w.setWidth 16) else .intero w) rest s s' ∧
      Scan.ciclo L ((Pezzo.direttiva d).formato ++ fmt) 0 s = Scan.ciclo L fmt 0 s' := by
  have hbase : ∀ b ∈ [10, 16], 2 ≤ b ∧ b ≤ 16 := by decide
  obtain ⟨h2, h16⟩ := hbase base hb
  have hsegno : d.segno false = [] := by
    simp [Direttiva.segno, hd.1]
  obtain ⟨i, j, hcampo⟩ :=
    campo_forma hd (d.segno false) (cifreDi base (senzaSegno d.grandezza w).toNat)
  obtain ⟨hcifre, heval⟩ := cifre_zeri base (senzaSegno d.grandezza w).toNat j hb
  have hread := strtou_eq (e := (Scan.pronta d fmt s).base) hcifre
    (heval.trans_le (Nat.le_of_lt_succ (senzaSegno d.grandezza w).isLt)) hx hr (by omega) h16
  rw [heval, BitVec.ofNat_toNat, BitVec.setWidth_eq] at hread
  rw [hcampo, hsegno, List.nil_append] at hbuf
  have hlegge := legge_corpo (s := Scan.pronta d fmt s) (f := (strtou · base ·)) rfl hp hspazio
    (List.append_ne_nil_of_right_ne_nil _ cifreDi_ne_nil) (corpo_mem h2 hpat) hread hbuf
  refine ⟨_, ?_, Scan.ciclo_direttiva hd (hl.trans hlegge)⟩
  refine ⟨rfl, rfl, rfl, ?_⟩
  rw [← numeroLetto_senzaSegno]
  rfl

/-- A conversion with a sign. -/
theorem letta_int (hd : d.Semplice) (w : Word) (hp : ∀ c ∈ p, c ∉ CIFRE_D.toList)
    (hr : Ferma 10 rest)
    (hbuf : s.buf = p ++ d.campo (d.segno ((conSegno d.grandezza w).toInt < 0))
      (cifreDi 10 (conSegno d.grandezza w).toInt.natAbs) ++ rest)
    (hl : Scan.lettera L d.conv (Scan.pronta d fmt s) =
      (Scan.pronta d fmt s).legge CIFRE_D (strtoi · 10 ·) numeroLetto) :
    ∃ s', Letta (if d.grandezza = SHORT_SIZE then .corto (w.setWidth 16) else .intero (rilegge w))
        rest s s' ∧
      Scan.ciclo L ((Pezzo.direttiva d).formato ++ fmt) 0 s = Scan.ciclo L fmt 0 s' := by
  have hsegno : d.segno ((conSegno d.grandezza w).toInt < 0) =
      if (conSegno d.grandezza w).toInt < 0 then ['-'] else [] := by
    simp [Direttiva.segno, hd.1]
  obtain ⟨i, j, hcampo⟩ := campo_forma hd (d.segno ((conSegno d.grandezza w).toInt < 0))
    (cifreDi 10 (conSegno d.grandezza w).toInt.natAbs)
  have hread := strtoi_eq (e := (Scan.pronta d fmt s).base) (conSegno d.grandezza w) j hr
  rw [← List.append_assoc] at hread
  rw [hcampo, hsegno] at hbuf
  have hdigit : ∀ k < 10, todigit k ∈ CIFRE_D.toList := by decide
  have hcorpo : ∀ c ∈ (if (conSegno d.grandezza w).toInt < 0 then ['-'] else []) ++
      (List.replicate j '0' ++ cifreDi 10 (conSegno d.grandezza w).toInt.natAbs),
      c ∈ CIFRE_D.toList := by
    intro c hc
    rcases List.mem_append.mp hc with hc | hc
    · split at hc
      · rw [List.mem_singleton.mp hc]
        decide
      · cases hc
    · exact corpo_mem (by decide) hdigit c hc
  have hlegge := legge_corpo (s := Scan.pronta d fmt s) (f := (strtoi · 10 ·)) rfl hp (by decide)
    (List.append_ne_nil_of_right_ne_nil _ (List.append_ne_nil_of_right_ne_nil _ cifreDi_ne_nil))
    hcorpo hread hbuf
  refine ⟨_, ?_, Scan.ciclo_direttiva hd (hl.trans hlegge)⟩
  refine ⟨rfl, rfl, rfl, ?_⟩
  rw [← rilegge_conSegno]
  rfl

/-- A string without spaces. -/
theorem letta_stringa (hd : d.Semplice) (hconv : d.conv = 's') {sp : List Char} (hne : sp ≠ [])
    (hsp : ∀ c ∈ sp, isspace c = false) (hp : ∀ c ∈ p, isspace c = true)
    (hr : ∀ c ∈ rest.head?, isspace c = true) (hbuf : s.buf = p ++ sp ++ rest) :
    ∃ s', Letta (.stringa (if d.width = [] then sp else sp.take d.colonne)) rest s s' ∧
      Scan.ciclo L ((Pezzo.direttiva d).formato ++ fmt) 0 s = Scan.ciclo L fmt 0 s' := by
  have hskip : (p ++ sp ++ rest).dropWhile isspace = sp ++ rest := by
    obtain ⟨c, l, rfl⟩ := List.exists_cons_of_ne_nil hne
    rw [List.append_assoc, List.dropWhile_append_of_pos hp, List.cons_append,
      List.dropWhile_cons_of_neg]
    rw [hsp c List.mem_cons_self]
    exact Bool.false_ne_true
  have hnot : ∀ c ∈ sp, (!isspace c) = true := fun c hc => by rw [hsp c hc]; rfl
  have hrest : rest.takeWhile (fun c => !isspace c) = [] ∧
      rest.dropWhile (fun c => !isspace c) = rest := by
    cases rest with
    | nil => exact ⟨rfl, rfl⟩
    | cons c rest =>
      have hc : ¬ (!isspace c) = true := by
        rw [hr c rfl]
        exact Bool.false_ne_true
      exact ⟨List.takeWhile_cons_of_neg hc, List.dropWhile_cons_of_neg hc⟩
  have htake : (sp ++ rest).takeWhile (fun c => !isspace c) = sp := by
    rw [List.takeWhile_append_of_pos hnot, hrest.1, List.append_nil]
  have hdrop : (sp ++ rest).dropWhile (fun c => !isspace c) = rest := by
    rw [List.dropWhile_append_of_pos hnot, hrest.2]
  have hl : Scan.lettera L d.conv (Scan.pronta d fmt s) = .ok (Scan.pronta d fmt s).stringa := by
    rw [hconv]
    rfl
  refine ⟨_, ?_, Scan.ciclo_direttiva hd hl⟩
  have hpronta : (Scan.pronta d fmt s).buf = p ++ sp ++ rest := hbuf
  simp only [Lettura.stringa, hpronta, hskip, htake, hdrop]
  refine ⟨rfl, rfl, rfl, ?_⟩
  by_cases hw : d.width = []
  · simp [Lettura.salva, Scan.pronta, hw]
  · simp [Lettura.salva, Scan.pronta, hw, d.ampiezza_eq hw]

/-- A conversion is printed, and read back behind a text that it passes over and before one at which
it ends. -/
theorem voce_letta (L : LeggeReali) (R : Reali) (v : Voce) : ∃ t, v.d.testo R v.a = some t ∧
    ∀ p rest fmt s, (∀ c ∈ p, scorre v.d.conv c = true) →
      (∀ c ∈ rest.head?, chiude v.d.conv c = true) →
      s.buf = p ++ t ++ rest →
      ∃ s', Letta v.letto rest s s' ∧
        Scan.ciclo L ((Pezzo.direttiva v.d).formato ++ fmt) 0 s = Scan.ciclo L fmt 0 s' := by
  obtain ⟨d, a, dietro, hd, htipo, -, -⟩ := v
  cases a with
  | intero w =>
    simp only [List.mem_cons, List.not_mem_nil, or_false] at htipo
    dsimp only [Voce.letto]
    unfold Direttiva.testo
    rcases htipo with h | h | h | h
    · rw [h]
      refine ⟨_, rfl, fun p rest fmt s hp hr hbuf => ?_⟩
      have hp' : ∀ c ∈ p, c ∉ CIFRE_D.toList := fun c hc => of_decide_eq_true (hp c hc)
      have hr' : Ferma 10 rest := fun c hc => of_decide_eq_true (hr c hc)
      simp only [true_or, if_true]
      exact letta_int hd w hp' hr' hbuf (by rw [h]; rfl)
    · rw [h]
      refine ⟨_, rfl, fun p rest fmt s hp hr hbuf => ?_⟩
      have hp' : ∀ c ∈ p, c ∉ CIFRE_D.toList := fun c hc => of_decide_eq_true (hp c hc)
      have hr' : Ferma 10 rest := fun c hc => of_decide_eq_true (hr c hc)
      simp only [or_true, if_true]
      exact letta_int hd w hp' hr' hbuf (by rw [h]; rfl)
    · rw [h]
      refine ⟨_, rfl, fun p rest fmt s hp hr hbuf => ?_⟩
      have hp' : ∀ c ∈ p, c ∉ CIFRE_U.toList := fun c hc => of_decide_eq_true (hp c hc)
      have hr' : Ferma 10 rest := fun c hc => of_decide_eq_true (hr c hc)
      have hno : ¬ ('u' = 'd' ∨ 'u' = 'i') := by decide
      simp only [hno, if_false]
      exact letta_nat 10 CIFRE_U (by decide) hd w (by decide) (by decide) hp'
        hr' (fun h => absurd h (by decide)) hbuf (by rw [h]; rfl)
    · rw [h]
      refine ⟨_, rfl, fun p rest fmt s hp hr hbuf => ?_⟩
      have hp' : ∀ c ∈ p, c ∉ CIFRE_X.toList := fun c hc => of_decide_eq_true (hp c hc)
      have hr' : ∀ c ∈ rest.head?, isnumber c 16 = false ∧ c ≠ 'x' :=
        fun c hc => of_decide_eq_true (hr c hc)
      have hferma : Ferma 16 rest := fun c hc => (hr' c hc).1
      have hlibera : Libera 16 rest := fun _ hx => ( hr' 'x' hx).2 rfl
      have hno : ¬ ('x' = 'd' ∨ 'x' = 'i') := by decide
      simp only [hno, if_false]
      exact letta_nat 16 CIFRE_X (by decide) hd w (by decide) (by decide) hp'
        hferma hlibera hbuf (by rw [h]; rfl)
  | stringa sp =>
    obtain ⟨hconv, hne, hsp⟩ := htipo
    refine ⟨sp, if_pos hconv, fun p rest fmt s hp hr hbuf => ?_⟩
    rw [hconv] at hp hr
    exact letta_stringa hd hconv hne hsp hp hr hbuf
  | reale x => exact htipo.elim

/-- The induction is on the conversions; what stands in front of the next one has been printed and
not yet been read. -/
theorem voci_lette (L : LeggeReali) (R : Reali) (vs : List Voce) (prima : List Char) (l : Nat)
    (h : Separati prima vs) : ∃ t n,
    stampa R (vs.flatMap Voce.pezzi) l (vs.map Voce.a) = some (t, n) ∧
    ∀ s, s.parsing = 0 → s.buf = prima ++ t →
      (Scan.ciclo L (formato (vs.flatMap Voce.pezzi)) 0 s).map (fun s => (s.letti, s.scanned)) =
        .ok (s.letti ++ vs.map Voce.letto, s.scanned + vs.length) := by
  induction vs generalizing prima l with
  | nil =>
    refine ⟨[], 0, rfl, fun s _ _ => ?_⟩
    simp [formato, Scan.ciclo, Directives.run, Except.map]
  | cons v vs ih =>
    obtain ⟨hprima, hdietro, hvs⟩ := h
    obtain ⟨t, ht, hletta⟩ := voce_letta L R v
    obtain ⟨t', n, ht', hrun⟩ := ih v.dietro ((Pezzo.direttiva v.d).lascia l t.length) hvs
    have htesti : (Pezzo.direttiva v.d).testi R (v.a :: vs.map Voce.a) =
        some (t, vs.map Voce.a) := by
      rw [Pezzo.testi, ht]
      rfl
    have hfmt : formato ((v :: vs).flatMap Voce.pezzi) = (Pezzo.direttiva v.d).formato ++
        (v.dietro ++ formato (vs.flatMap Voce.pezzi)) := by
      simp [formato, Voce.pezzi, Pezzo.formato]
    refine ⟨t ++ (v.dietro ++ t'), (Pezzo.direttiva v.d).inPiu l + (0 + n), ?_, ?_⟩
    · rw [List.flatMap_cons, Voce.pezzi, List.map_cons, List.cons_append, stampa, htesti]
      dsimp only
      rw [List.singleton_append, stampa]
      simp only [Pezzo.testi, Pezzo.lascia, Pezzo.inPiu]
      simp only [Pezzo.lascia] at ht'
      rw [ht']
      rfl
    · intro s hs hbuf
      have hchiude : ∀ c ∈ (v.dietro ++ t').head?, chiude v.d.conv c = true := by
        cases hd : v.dietro with
        | nil =>
          have hnil : vs = [] := by
            by_contra hne
            exact hdietro hne hd
          subst hnil
          have hnone : t' = [] := congrArg Prod.fst (Option.some.inj ht').symm
          rw [hnone]
          intro c hc
          cases hc
        | cons c l =>
          intro c' hc
          exact v.dietro_chiude c' (hd ▸ hc)
      obtain ⟨s', hs', hciclo⟩ := hletta prima (v.dietro ++ t')
        (v.dietro ++ formato (vs.flatMap Voce.pezzi)) s hprima hchiude
        (by rw [hbuf, List.append_assoc])
      rw [hfmt, hciclo, Scan.ciclo_testo v.dietro_ok hs'.parsing, hrun s' hs'.parsing hs'.buf,
        hs'.letti, hs'.scanned]
      simp only [List.append_assoc, List.singleton_append, List.map_cons, List.length_cons]
      rw [Nat.add_assoc, Nat.add_comm 1]

end Voci

/-- A format: a text, and then conversions with the texts behind them. -/
def voci (prima : List Char) (ok : '%' ∉ prima) (vs : List Voce) : List Pezzo :=
  .testo prima ok :: vs.flatMap Voce.pezzi

/-- What `vsprintf` prints, `vsscanf` reads back with the same format: the numbers in the size that
the format says, the strings, which hold no white space, up to their width. The least `int` alone
comes back as another one. -/
theorem vsscanf_vsprintf (L : LeggeReali) (R : Reali) (prima : List Char) (ok : '%' ∉ prima)
    (vs : List Voce) (h : Separati prima vs) :
    ∃ t n, vsprintf R (formato (voci prima ok vs)) (vs.map Voce.a) = .ok (t, n) ∧
      vsscanf L t (formato (voci prima ok vs)) = .ok (vs.map Voce.letto, vs.length) := by
  obtain ⟨t, n, ht, hrun⟩ := voci_lette L R vs prima 0 h
  have hstampa : stampa R (voci prima ok vs) 0 (vs.map Voce.a) = some (prima ++ t, 0 + n) := by
    rw [voci, stampa]
    simp only [Pezzo.testi, Pezzo.lascia, Pezzo.inPiu]
    rw [ht]
    rfl
  refine ⟨prima ++ t, _, vsprintf_stampa hstampa, ?_⟩
  have hfmt : formato (voci prima ok vs) = prima ++ formato (vs.flatMap Voce.pezzi) := by
    simp [formato, voci, Pezzo.formato]
  rw [vsscanf, hfmt, Scan.ciclo_testo ok rfl]
  refine (hrun _ rfl rfl).trans ?_
  simp only [List.nil_append, Nat.zero_add]

/-- A conversion with nothing but a width. -/
def direttivaSola (width : List Char) (conv : Char) (hw : ∀ c ∈ width, cifraDecimale c)
    (hlt : Radix.evalFrom tonumber 10 0 width < 2 ^ 31)
    (hc : conv ∈ ['c', 'd', 'i', 'u', 'x', 'p', 's', 'f', 'e', 'g']) : Direttiva where
  flags := []
  width := width
  prec := none
  size := none
  conv := conv
  flags_ok := List.forall_mem_nil _
  width_ok := hw
  width_lt := hlt
  prec_ok := fun _ h => by cases h
  size_ok := fun _ h => by cases h
  conv_ok := hc

/-- `%5d: %x %s`. -/
def vociProcesso : List Voce :=
  [{ d := direttivaSola ['5'] 'd' (List.forall_mem_singleton.mpr (by decide)) (by decide)
       (by decide)
     a := .intero (-7), dietro := [':', ' '], semplice := ⟨rfl, rfl⟩, tipo := by decide
     dietro_ok := by decide, dietro_chiude := fun c hc => by cases hc; rfl },
   { d := direttivaSola [] 'x' (List.forall_mem_nil _) (by decide) (by decide)
     a := .intero 255, dietro := [' '], semplice := ⟨rfl, rfl⟩, tipo := by decide
     dietro_ok := by decide, dietro_chiude := fun c hc => by cases hc; rfl },
   { d := direttivaSola [] 's' (List.forall_mem_nil _) (by decide) (by decide)
     a := .stringa ['i', 'd', 'l', 'e'], dietro := [], semplice := ⟨rfl, rfl⟩
     tipo := ⟨rfl, List.cons_ne_nil _ _, by simp [isspace]⟩
     dietro_ok := by decide, dietro_chiude := fun c hc => by cases hc }]

theorem vsscanf_processo :
    ∃ t n, vsprintf ⟨fun _ _ _ _ => [], fun _ _ _ _ => [], fun _ _ _ _ => []⟩
        (formato (voci ['p', 'i', 'd', ' '] (by decide) vociProcesso))
        [.intero (-7), .intero 255, .stringa ['i', 'd', 'l', 'e']] = .ok (t, n) ∧
      vsscanf ⟨fun s => (0, s), fun _ => 0⟩ t
        (formato (voci ['p', 'i', 'd', ' '] (by decide) vociProcesso)) =
          .ok ([.intero (-7), .intero 255, .stringa ['i', 'd', 'l', 'e']], 3) :=
  vsscanf_vsprintf ⟨fun s => (0, s), fun _ => 0⟩
    ⟨fun _ _ _ _ => [], fun _ _ _ _ => [], fun _ _ _ _ => []⟩ ['p', 'i', 'd', ' '] (by decide)
    vociProcesso
    ⟨List.all_eq_true.mp (by decide), fun _ => List.cons_ne_nil _ _,
      List.all_eq_true.mp (by decide), fun _ => List.cons_ne_nil _ _,
      List.all_eq_true.mp (by decide), fun h => absurd rfl h, trivial⟩

end Stdio

end Pitos
