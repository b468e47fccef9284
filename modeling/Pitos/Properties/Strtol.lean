import Pitos.Libc.Strtol
import Pitos.Properties.Scanning

/-!
# What `strtol` and `strtoul` read

The loop looks at each digit before it multiplies, and when the number is too great it goes past
all the digits that are left. So the result is the number that all the digits make, cut to the range
(`strtol_eq`, `strtoul_eq`), and what `vsprintf` prints is read back whatever the flags and the
width (`strtol_vsprintf`, `strtoul_vsprintf`).
-/

namespace Pitos

open Lib

namespace Stdio

/-! ## The loop -/

/-- The digits of a base. -/
def nellaBase (base : Nat) (c : Char) : Bool := (cifraDi c).any (· < base)

def valore (c : Char) : Nat := (cifraDi c).getD 0

section Ciclo

variable {base limit n : Nat} {cutoff acc : Word} {cutlim : Nat} {any : Int} {l s rest : List Char}
  {c : Char}

theorem nellaBase_iff : nellaBase base c = true ↔ ∃ d, cifraDi c = some d ∧ d < base := by
  unfold nellaBase
  cases h : cifraDi c with
  | none => simp
  | some d => simp

theorem cicloStrto_ferma (h : ∀ c ∈ rest.head?, nellaBase base c = false) :
    cicloStrto base cutoff cutlim acc any rest = (acc, any, rest) := by
  cases rest with
  | nil => rfl
  | cons c rest =>
    have hc := h c rfl
    unfold cicloStrto
    cases hd : cifraDi c with
    | none => rfl
    | some d =>
      have hge : d ≥ base := by
        by_contra hlt
        rw [nellaBase_iff.mpr ⟨d, hd, not_le.mp hlt⟩] at hc
        cases hc
      exact if_pos hge

/-- After an overflow the digits are only gone past. -/
theorem cicloStrto_troppo (hl : ∀ c ∈ l, nellaBase base c = true)
    (h : ∀ c ∈ rest.head?, nellaBase base c = false) :
    cicloStrto base cutoff cutlim acc (-1) (l ++ rest) = (acc, -1, rest) := by
  induction l with
  | nil => exact cicloStrto_ferma h
  | cons c l ih =>
    obtain ⟨d, hd, hlt⟩ := nellaBase_iff.mp (hl c List.mem_cons_self)
    rw [List.cons_append, cicloStrto, hd]
    dsimp only
    rw [if_neg (not_le.mpr hlt), if_pos (Or.inl (by decide))]
    exact ih fun c hc => hl c (List.mem_cons_of_mem _ hc)

/-- The loop finds an overflow exactly when the number of all the digits is beyond the limit. The
induction is on the digits; `n` is the number that those before have made. -/
theorem cicloStrto_eq (hbase : 1 ≤ base) (hb : base < 2 ^ 32) (hlimit : limit < 2 ^ 32)
    (hn : n ≤ limit) (hany : 0 ≤ any) (hl : ∀ c ∈ l, nellaBase base c = true)
    (h : ∀ c ∈ rest.head?, nellaBase base c = false) :
    (Radix.evalFrom valore base n l ≤ limit →
      cicloStrto base (BitVec.ofNat 32 limit / BitVec.ofNat 32 base) (limit % base)
        (BitVec.ofNat 32 n) any (l ++ rest) =
          (BitVec.ofNat 32 (Radix.evalFrom valore base n l), if l = [] then any else 1, rest)) ∧
    (limit < Radix.evalFrom valore base n l → ∃ acc,
      cicloStrto base (BitVec.ofNat 32 limit / BitVec.ofNat 32 base) (limit % base)
        (BitVec.ofNat 32 n) any (l ++ rest) = (acc, -1, rest)) := by
  induction l generalizing n any with
  | nil => exact ⟨fun _ => cicloStrto_ferma h, fun hlt => absurd hlt (not_lt.mpr hn)⟩
  | cons c l ih =>
    obtain ⟨d, hd, hlt⟩ := nellaBase_iff.mp (hl c List.mem_cons_self)
    have hl' : ∀ c ∈ l, nellaBase base c = true := fun c hc => hl c (List.mem_cons_of_mem _ hc)
    have hval : valore c = d := by
      rw [valore, hd]
      rfl
    have hdiv : (BitVec.ofNat 32 limit / BitVec.ofNat 32 base).toNat = limit / base := by
      rw [BitVec.toNat_udiv, BitVec.toNat_ofNat, BitVec.toNat_ofNat, Nat.mod_eq_of_lt hlimit,
        Nat.mod_eq_of_lt hb]
    have hacc : (BitVec.ofNat 32 n).toNat = n := by
      rw [BitVec.toNat_ofNat]
      exact Nat.mod_eq_of_lt (by omega)
    -- the test of the source, in numbers
    have htest : (any < 0 ∨ BitVec.ofNat 32 limit / BitVec.ofNat 32 base < BitVec.ofNat 32 n ∨
        BitVec.ofNat 32 n = BitVec.ofNat 32 limit / BitVec.ofNat 32 base ∧ limit % base < d) ↔
        limit < base * n + d := by
      rw [← Radix.cutoff_iff hlt, BitVec.lt_def, ← BitVec.toNat_inj, hdiv, hacc]
      constructor
      · intro h
        rcases h with h | h | h
        · omega
        · exact Or.inl h
        · exact Or.inr ⟨h.1.symm, h.2⟩
      · intro h
        rcases h with h | h
        · exact Or.inr (Or.inl h)
        · exact Or.inr (Or.inr ⟨h.1.symm, h.2⟩)
    have hle : base * n + d ≤ Radix.evalFrom valore base (base * n + d) l :=
      Radix.le_evalFrom hbase
    rw [Radix.evalFrom_cons, hval, List.cons_append, cicloStrto, hd]
    dsimp only
    rw [if_neg (not_le.mpr hlt)]
    by_cases hover : limit < base * n + d
    · rw [if_pos (htest.mpr hover)]
      refine ⟨fun hin => absurd hin (by omega), fun _ => ?_⟩
      exact ⟨BitVec.ofNat 32 n, cicloStrto_troppo hl' h⟩
    · have hnew : BitVec.ofNat 32 n * BitVec.ofNat 32 base + BitVec.ofNat 32 d =
          BitVec.ofNat 32 (base * n + d) := by
        rw [← BitVec.ofNat_mul, ← BitVec.ofNat_add, Nat.mul_comm]
      obtain ⟨hin, hout⟩ := ih (not_lt.mp hover) (by decide : (0 : Int) ≤ 1) hl'
      rw [if_neg fun ht => hover (htest.mp ht), hnew]
      refine ⟨fun h => ?_, hout⟩
      rw [hin h, ite_self, if_neg (List.cons_ne_nil c l)]

end Ciclo

/-! ## The number -/

section Numero

variable (nptr : List Char) (base : Nat)

/-- The digits that are read. -/
def cifreLette : List Char :=
  (prepara nptr base).2.2.takeWhile (nellaBase (prepara nptr base).2.1)

def assoluto : Nat := Radix.evalFrom valore (prepara nptr base).2.1 0 (cifreLette nptr base)

/-- The number that all of them make, with the sign. -/
def interoLetto : Int :=
  if (prepara nptr base).1 then -(assoluto nptr base : Int) else assoluto nptr base

theorem natAbs_interoLetto : (interoLetto nptr base).natAbs = assoluto nptr base := by
  unfold interoLetto
  split
  · rw [Int.natAbs_neg, Int.natAbs_natCast]
  · exact Int.natAbs_natCast _

/-- The text behind the digits; without digits nothing is read, not even the white space. -/
def dietroCifre : List Char :=
  if cifreLette nptr base = [] then nptr
  else (prepara nptr base).2.2.dropWhile (nellaBase (prepara nptr base).2.1)

theorem prepara_base (hb : base < 2 ^ 32) :
    1 ≤ (prepara nptr base).2.1 ∧ (prepara nptr base).2.1 < 2 ^ 32 := by
  unfold prepara
  dsimp only
  generalize (if (nptr.dropWhile isspace).head? = some '-' ∨
    (nptr.dropWhile isspace).head? = some '+' then (nptr.dropWhile isspace).tail
    else nptr.dropWhile isspace) = s
  by_cases hprefisso : (base = 0 ∨ base = 16) ∧ s.head? = some '0' ∧
      (s.tail.head? = some 'x' ∨ s.tail.head? = some 'X')
  · rw [if_pos hprefisso]
    exact ⟨by norm_num, by norm_num⟩
  · rw [if_neg hprefisso]
    by_cases h0 : base = 0
    · rw [if_pos h0]
      by_cases hottale : s.head? = some '0'
      · rw [if_pos hottale]
        exact ⟨by norm_num, by norm_num⟩
      · rw [if_neg hottale]
        exact ⟨by norm_num, by norm_num⟩
    · rw [if_neg h0]
      exact ⟨Nat.one_le_iff_ne_zero.mpr h0, hb⟩

/-- What `strto` returns, with a limit of its own for each sign. -/
theorem strto_eq (limite satura : Bool → Word) (hb : base < 2 ^ 32) :
    (strto limite satura nptr base).endptr = dietroCifre nptr base ∧
    (assoluto nptr base ≤ (limite (prepara nptr base).1).toNat →
      (strto limite satura nptr base).acc = BitVec.ofInt 32 (interoLetto nptr base) ∧
      (strto limite satura nptr base).erange = false) ∧
    ((limite (prepara nptr base).1).toNat < assoluto nptr base →
      (strto limite satura nptr base).acc = satura (prepara nptr base).1 ∧
      (strto limite satura nptr base).erange = true) := by
  obtain ⟨hb1, hb32⟩ := prepara_base nptr base hb
  unfold strto dietroCifre interoLetto assoluto cifreLette
  generalize prepara nptr base = p at hb1 hb32 ⊢
  obtain ⟨neg, b, s⟩ := p
  dsimp only at hb1 hb32 ⊢
  have hcifre : ∀ c ∈ s.takeWhile (nellaBase b), nellaBase b c = true :=
    List.all_eq_true.mp List.all_takeWhile
  have hferma : ∀ c ∈ (s.dropWhile (nellaBase b)).head?, nellaBase b c = false := by
    intro c hc
    have hnot := List.head?_dropWhile_not (nellaBase b) s
    rw [Option.mem_def.mp hc] at hnot
    simpa using hnot
  obtain ⟨hin, hout⟩ := cicloStrto_eq (n := 0) hb1 hb32 (limite neg).isLt
    (Nat.zero_le _) (le_refl 0) hcifre hferma
  have hzero : BitVec.ofNat 32 0 = 0 := rfl
  rw [List.takeWhile_append_dropWhile, BitVec.ofNat_toNat, BitVec.setWidth_eq, hzero] at hin hout
  refine ⟨?_, ?_, ?_⟩
  · by_cases hle : Radix.evalFrom valore b 0 (s.takeWhile (nellaBase b)) ≤ (limite neg).toNat
    · rw [hin hle]
      by_cases hnil : s.takeWhile (nellaBase b) = []
      · simp [hnil]
      · simp [hnil]
    · obtain ⟨acc, hacc⟩ := hout (not_le.mp hle)
      have hne : s.takeWhile (nellaBase b) ≠ [] := by
        intro hnil
        rw [hnil] at hle
        exact hle (Nat.zero_le _)
      rw [hacc]
      simp [hne]
  · intro hle
    rw [hin hle]
    have hany : ¬ (if s.takeWhile (nellaBase b) = [] then (0 : Int) else 1) < 0 := by
      by_cases hnil : s.takeWhile (nellaBase b) = []
      · simp [hnil]
      · simp [hnil]
    refine ⟨?_, by simpa using hany⟩
    rw [if_neg hany]
    cases neg with
    | false => exact (BitVec.ofInt_natCast 32 _).symm
    | true => exact (BitVec.ofInt_neg.trans (congrArg _ (BitVec.ofInt_natCast 32 _))).symm
  · intro hlt
    obtain ⟨acc, hacc⟩ := hout hlt
    rw [hacc]
    simp

/-- The limits of the two signs are not the same; together they are the range of a `long`. -/
theorem limite_strtol :
    assoluto nptr base ≤ (if (prepara nptr base).1 then -LONG_MIN else LONG_MAX).toNat ↔
      -2 ^ 31 ≤ interoLetto nptr base ∧ interoLetto nptr base < 2 ^ 31 := by
  have hneg : (-LONG_MIN).toNat = 2 ^ 31 := rfl
  have hpos : LONG_MAX.toNat = 2 ^ 31 - 1 := rfl
  unfold interoLetto
  cases (prepara nptr base).1 with
  | false =>
    simp only [Bool.false_eq_true, if_false]
    omega
  | true =>
    simp only [if_true]
    omega

theorem meno_iff (h : interoLetto nptr base ≠ 0) :
    (prepara nptr base).1 = true ↔ interoLetto nptr base < 0 := by
  unfold interoLetto at h ⊢
  cases hmeno : (prepara nptr base).1 with
  | false =>
    simp only [Bool.false_eq_true, if_false]
    exact iff_of_false not_false (by omega)
  | true =>
    simp only [hmeno, if_true] at h ⊢
    exact iff_of_true trivial (by omega)

theorem strtol_entro (hb : base < 2 ^ 31) (hlo : -2 ^ 31 ≤ interoLetto nptr base)
    (hhi : interoLetto nptr base < 2 ^ 31) :
    strtol nptr base =
      ⟨BitVec.ofInt 32 (interoLetto nptr base), dietroCifre nptr base, false⟩ := by
  obtain ⟨hend, hin, -⟩ := strto_eq nptr base (fun neg => if neg then -LONG_MIN else LONG_MAX)
    (fun neg => if neg then LONG_MIN else LONG_MAX) (hb.trans (by norm_num))
  obtain ⟨hacc, herange⟩ := hin ((limite_strtol nptr base).mpr ⟨hlo, hhi⟩)
  exact Esito.ext hacc hend herange

theorem strtol_oltre (hb : base < 2 ^ 31)
    (h : interoLetto nptr base < -2 ^ 31 ∨ 2 ^ 31 ≤ interoLetto nptr base) :
    strtol nptr base =
      ⟨if interoLetto nptr base < 0 then LONG_MIN else LONG_MAX, dietroCifre nptr base, true⟩ := by
  obtain ⟨hend, -, hout⟩ := strto_eq nptr base (fun neg => if neg then -LONG_MIN else LONG_MAX)
    (fun neg => if neg then LONG_MIN else LONG_MAX) (hb.trans (by norm_num))
  have hlt : ¬ assoluto nptr base ≤
      (if (prepara nptr base).1 then -LONG_MIN else LONG_MAX).toNat := by
    rw [limite_strtol]
    omega
  have hmeno := meno_iff nptr base (by omega)
  obtain ⟨hacc, herange⟩ := hout (not_le.mp hlt)
  simp only [hmeno] at hacc
  exact Esito.ext hacc hend herange

/-- `strtol` returns the number that is written, cut to the range of a `long`, and says so by
`ERANGE` when it had to cut. -/
theorem strtol_eq (hb : base < 2 ^ 31) :
    (strtol nptr base).acc.toInt = max (-2 ^ 31) (min (2 ^ 31 - 1) (interoLetto nptr base)) ∧
    (strtol nptr base).endptr = dietroCifre nptr base ∧
    ((strtol nptr base).erange = true ↔
      interoLetto nptr base < -2 ^ 31 ∨ 2 ^ 31 ≤ interoLetto nptr base) := by
  have hmin : LONG_MIN.toInt = -2 ^ 31 := rfl
  have hmax : LONG_MAX.toInt = 2 ^ 31 - 1 := rfl
  by_cases h : interoLetto nptr base < -2 ^ 31 ∨ 2 ^ 31 ≤ interoLetto nptr base
  · rw [strtol_oltre nptr base hb h]
    refine ⟨?_, rfl, iff_of_true rfl h⟩
    dsimp only
    split
    · omega
    · omega
  · rw [not_or, not_lt, not_le] at h
    rw [strtol_entro nptr base hb h.1 h.2]
    refine ⟨?_, rfl, iff_of_false Bool.false_ne_true (by omega)⟩
    have hself := BitVec.toInt_ofInt_eq_self (by decide : 0 < 32) h.1 h.2
    dsimp only
    omega

/-- The six characters behind `Z` are digits: `[` counts as 4. -/
theorem strtol_parentesi :
    (strtol ['-', '0', 'x', '[', '2', ';'] 16).acc.toInt = -0x42 ∧
    (strtol ['-', '0', 'x', '[', '2', ';'] 16).endptr = [';'] ∧
    ¬ (strtol ['-', '0', 'x', '[', '2', ';'] 16).erange = true := by
  have hint : interoLetto ['-', '0', 'x', '[', '2', ';'] 16 = -0x42 := by decide
  have hdietro : dietroCifre ['-', '0', 'x', '[', '2', ';'] 16 = [';'] := by decide
  obtain ⟨hacc, hend, herange⟩ := strtol_eq ['-', '0', 'x', '[', '2', ';'] 16 (by decide)
  rw [hint] at hacc herange
  exact ⟨hacc, hend.trans hdietro, fun h => absurd (herange.mp h) (by decide)⟩

/-- `strtoul` takes a sign too; its range is that of the number without it. -/
theorem strtoul_eq (hb : base < 2 ^ 31) :
    (strtoul nptr base).acc =
      (if assoluto nptr base < 2 ^ 32 then BitVec.ofInt 32 (interoLetto nptr base) else ULONG_MAX) ∧
    (strtoul nptr base).endptr = dietroCifre nptr base ∧
    ((strtoul nptr base).erange = true ↔ 2 ^ 32 ≤ assoluto nptr base) := by
  obtain ⟨hend, hin, hout⟩ := strto_eq nptr base (fun _ => ULONG_MAX) (fun _ => ULONG_MAX)
    (hb.trans (by norm_num))
  rw [← strtoul] at hend hin hout
  have hmax : ULONG_MAX.toNat = 2 ^ 32 - 1 := rfl
  by_cases hlt : assoluto nptr base < 2 ^ 32
  · obtain ⟨hacc, herange⟩ := hin (by omega)
    rw [hacc, herange, if_pos hlt]
    exact ⟨rfl, hend, iff_of_false Bool.false_ne_true (by omega)⟩
  · obtain ⟨hacc, herange⟩ := hout (by omega)
    rw [hacc, herange, if_neg hlt]
    exact ⟨rfl, hend, iff_of_true rfl (by omega)⟩

end Numero

/-! ## What `vsprintf` prints -/

section Stampato

variable {base k : Nat} {segno l rest : List Char} {c : Char}

/-- A digit is no white space and no sign. -/
theorem nellaBase_segno (h : nellaBase base c = true) : isspace c = false ∧ c ≠ '-' ∧ c ≠ '+' := by
  obtain ⟨d, hd, -⟩ := nellaBase_iff.mp h
  have halnum : isalnum c = true := by
    by_contra hno
    rw [cifraDi, if_neg hno] at hd
    cases hd
  have hge : 48 ≤ c.toNat := by
    rw [isalnum, Bool.or_eq_true] at halnum
    rcases halnum with h | h
    · have hA : 'A' ≤ c := (of_decide_eq_true h).1
      have : 65 ≤ c.toNat := hA
      omega
    · have h0 : '0' ≤ c := (of_decide_eq_true h).1
      exact h0
  refine ⟨?_, ?_, ?_⟩
  · rw [isspace, decide_eq_false_iff_not]
    omega
  · rintro rfl
    exact absurd hge (by decide)
  · rintro rfl
    exact absurd hge (by decide)

/-- The three signs that a conversion prints. -/
def Segno (segno : List Char) : Prop := segno = [] ∨ segno = ['-'] ∨ segno = ['+']

theorem prepara_numero (hb : base ∈ [10, 16]) (hs : Segno segno) (hne : l ≠ [])
    (hl : ∀ c ∈ l, nellaBase base c = true)
    (hx : base = 16 → ∀ c ∈ rest.head?, c ≠ 'x' ∧ c ≠ 'X') :
    prepara (List.replicate k ' ' ++ (segno ++ (l ++ rest))) base =
      (decide (segno = ['-']), base, l ++ rest) := by
  obtain ⟨c, l, rfl⟩ := List.exists_cons_of_ne_nil hne
  obtain ⟨hspace, hmeno, hpiu⟩ := nellaBase_segno (hl c List.mem_cons_self)
  have hdrop : (List.replicate k ' ' ++ (segno ++ (c :: l ++ rest))).dropWhile isspace =
      segno ++ (c :: l ++ rest) := by
    rw [List.dropWhile_append_of_pos fun x hx => by rw [List.eq_of_mem_replicate hx]; rfl]
    rcases hs with rfl | rfl | rfl
    · exact List.dropWhile_cons_of_neg (by simp [hspace])
    · rfl
    · rfl
  -- behind the sign stands the first digit
  have htail : (if (segno ++ (c :: l ++ rest)).head? = some '-' ∨
      (segno ++ (c :: l ++ rest)).head? = some '+' then (segno ++ (c :: l ++ rest)).tail
      else segno ++ (c :: l ++ rest)) = c :: l ++ rest := by
    rcases hs with rfl | rfl | rfl
    · exact if_neg (by simp [hmeno, hpiu])
    · rfl
    · rfl
  have hneg : decide ((segno ++ (c :: l ++ rest)).head? = some '-') = decide (segno = ['-']) := by
    rcases hs with rfl | rfl | rfl
    · simp [hmeno]
    · rfl
    · rfl
  -- two digits are no prefix, and a single `0` has no `x` behind it
  have hprefisso : ¬ ((base = 0 ∨ base = 16) ∧ (c :: l ++ rest).head? = some '0' ∧
      ((c :: l ++ rest).tail.head? = some 'x' ∨ (c :: l ++ rest).tail.head? = some 'X')) := by
    rintro ⟨hbase, -, hlettera⟩
    have h16 : base = 16 := by
      refine hbase.resolve_left ?_
      rintro rfl
      exact absurd hb (by decide)
    rw [List.cons_append, List.tail_cons] at hlettera
    cases l with
    | nil =>
      rcases hlettera with h | h
      · exact (hx h16 'x' h).1 rfl
      · exact (hx h16 'X' h).2 rfl
    | cons c' l =>
      have hc' := hl c' (List.mem_cons_of_mem _ List.mem_cons_self)
      rw [h16] at hc'
      rcases hlettera with h | h
      · rw [Option.some.inj h] at hc'
        exact absurd hc' (by decide)
      · rw [Option.some.inj h] at hc'
        exact absurd hc' (by decide)
  have h0 : base ≠ 0 := by
    rintro rfl
    exact absurd hb (by decide)
  unfold prepara
  dsimp only
  rw [hdrop, htail, hneg, if_neg hprefisso, if_neg h0]

/-- Of a number between spaces everything is read up to `rest`. -/
theorem letto_numero (hb : base ∈ [10, 16]) (hs : Segno segno) (hne : l ≠ [])
    (hl : ∀ c ∈ l, nellaBase base c = true) (hr : ∀ c ∈ rest.head?, nellaBase base c = false)
    (hx : base = 16 → ∀ c ∈ rest.head?, c ≠ 'x' ∧ c ≠ 'X') :
    interoLetto (List.replicate k ' ' ++ (segno ++ (l ++ rest))) base =
      (if segno = ['-'] then -(Radix.evalFrom valore base 0 l : Int)
        else Radix.evalFrom valore base 0 l) ∧
    dietroCifre (List.replicate k ' ' ++ (segno ++ (l ++ rest))) base = rest := by
  have hprep := prepara_numero (k := k) hb hs hne hl hx
  have hrest : rest.takeWhile (nellaBase base) = [] ∧ rest.dropWhile (nellaBase base) = rest := by
    cases rest with
    | nil => exact ⟨rfl, rfl⟩
    | cons c rest =>
      have hc : ¬ nellaBase base c = true := by
        rw [hr c rfl]
        exact Bool.false_ne_true
      exact ⟨List.takeWhile_cons_of_neg hc, List.dropWhile_cons_of_neg hc⟩
  have hcifre : cifreLette (List.replicate k ' ' ++ (segno ++ (l ++ rest))) base = l := by
    rw [cifreLette, hprep, List.takeWhile_append_of_pos hl, hrest.1, List.append_nil]
  constructor
  · rw [interoLetto, assoluto, hcifre, hprep]
    simp only [decide_eq_true_eq]
  · rw [dietroCifre, hcifre, if_neg hne, hprep, List.dropWhile_append_of_pos hl, hrest.2]

theorem todigit_nellaBase : ∀ b ∈ [10, 16], ∀ k < b,
    nellaBase b (todigit k) = true ∧ valore (todigit k) = k := by decide

/-- The digits of a number with zeros in front. -/
theorem nellaBase_cifreDi (hb : base ∈ [10, 16]) (n j : Nat) :
    (∀ c ∈ List.replicate j '0' ++ cifreDi base n, nellaBase base c = true) ∧
    Radix.evalFrom valore base 0 (List.replicate j '0' ++ cifreDi base n) = n := by
  have h2 : ∀ b ∈ [10, 16], 2 ≤ b := by decide
  have hzero : ∀ b ∈ [10, 16], nellaBase b '0' = true := by decide
  constructor
  · intro c hc
    rcases List.mem_append.mp hc with hc | hc
    · rw [List.eq_of_mem_replicate hc]
      exact hzero base hb
    · obtain ⟨k, hk, rfl⟩ := cifreDi_mem hc (h2 base hb)
      exact (todigit_nellaBase base hb k hk).1
  · exact evalFrom_cifreDi (fun k hk => (todigit_nellaBase base hb k hk).2) (h2 base hb) n j

theorem segno_forma (d : Direttiva) (meno : Bool) :
    Segno (d.segno meno) ∧ (d.segno meno = ['-'] ↔ meno = true) := by
  unfold Direttiva.segno Segno
  cases meno <;> by_cases hp : '+' ∈ d.flags <;> simp [hp]

theorem letto_campo (d : Direttiva) (meno : Bool) (n : Nat) (hb : base ∈ [10, 16])
    (hr : ∀ c ∈ rest.head?, nellaBase base c = false)
    (hx : base = 16 → ∀ c ∈ rest.head?, c ≠ 'x' ∧ c ≠ 'X') : ∃ m,
    interoLetto (d.campo (d.segno meno) (cifreDi base n) ++ rest) base =
      (if meno then -(n : Int) else n) ∧
    dietroCifre (d.campo (d.segno meno) (cifreDi base n) ++ rest) base =
      List.replicate m ' ' ++ rest ∧ ('-' ∉ d.flags → m = 0) := by
  obtain ⟨i, j, m, hcampo, hm⟩ := campo_spazi d (d.segno meno) (cifreDi base n)
  obtain ⟨hsegno, hmeno⟩ := segno_forma d meno
  obtain ⟨hcifre, heval⟩ := nellaBase_cifreDi hb n j
  -- spaces of the field stand between the digits and `rest`
  have hdietro : ∀ c ∈ (List.replicate m ' ' ++ rest).head?, c ∈ rest.head? ∨ c = ' ' := by
    intro c hc
    cases m with
    | zero => exact Or.inl hc
    | succ m => exact Or.inr (Option.some.inj hc).symm
  have hspazio : ∀ b ∈ [10, 16], nellaBase b ' ' = false := by decide
  have hr' : ∀ c ∈ (List.replicate m ' ' ++ rest).head?, nellaBase base c = false := by
    intro c hc
    rcases hdietro c hc with hc | rfl
    · exact hr c hc
    · exact hspazio base hb
  have hx' : base = 16 → ∀ c ∈ (List.replicate m ' ' ++ rest).head?, c ≠ 'x' ∧ c ≠ 'X' := by
    intro h16 c hc
    rcases hdietro c hc with hc | rfl
    · exact hx h16 c hc
    · exact ⟨by decide, by decide⟩
  have hne : List.replicate j '0' ++ cifreDi base n ≠ [] :=
    List.append_ne_nil_of_right_ne_nil _ cifreDi_ne_nil
  obtain ⟨hletto, hdietro⟩ := letto_numero (k := i) hb hsegno hne hcifre hr' hx'
  have htesto : d.campo (d.segno meno) (cifreDi base n) ++ rest =
      List.replicate i ' ' ++ (d.segno meno ++ ((List.replicate j '0' ++ cifreDi base n) ++
        (List.replicate m ' ' ++ rest))) := by
    rw [hcampo]
    simp only [List.append_assoc]
  refine ⟨m, ?_, htesto ▸ hdietro, hm⟩
  rw [htesto, hletto, heval]
  simp only [hmeno]

/-- The length of a field is an `int`, as its width is. -/
theorem campo_corto (d : Direttiva) (meno : Bool) {n : Nat} (hb : base ∈ [10, 16])
    (hn : n < 2 ^ 32) : (d.campo (d.segno meno) (cifreDi base n)).length < 2 ^ 31 := by
  have h2 : ∀ b ∈ [10, 16], 2 ≤ b := by decide
  have hcifre := cifreDi_length (h2 base hb) hn
  have hcol : d.colonne < 2 ^ 31 := d.width_lt
  have hsegno : (d.segno meno).length ≤ 1 := by
    rcases (segno_forma d meno).1 with h | h | h <;> simp [h]
  rw [d.campo_length]
  omega

theorem vsprintf_sola {R : Reali} {d : Direttiva} {a : Argomento} {t : List Char}
    (h : d.testo R a = some t) (ht : t.length < 2 ^ 31) :
    vsprintf R (formato [.direttiva d]) [a] = .ok (t, t.length) := by
  have hin : (Pezzo.direttiva d).inPiu 0 = 0 := ite_self 0
  have hstampa : stampa R [.direttiva d] 0 [a] = some (t, 0) := by
    simp [stampa, Pezzo.testi, h, hin]
  have hcount : int32 (t.length + (0 : Nat)) = t.length :=
    int32_of_range (by omega) (by unfold INT_MAX; omega)
  rw [vsprintf_stampa hstampa, hcount]

/-- `strtol` reads back what `%d` prints, whatever the flags and the width, the least number too,
when the text behind it does not go on with what `strtol` takes for a digit. -/
theorem strtol_vsprintf (R : Reali) (d : Direttiva) (hd : d.conv = 'd' ∨ d.conv = 'i') (v : Word)
    (rest : List Char) (hr : ∀ c ∈ rest.head?, nellaBase 10 c = false) : ∃ t m,
    vsprintf R (formato [.direttiva d]) [.intero v] = .ok (t, t.length) ∧
    strtol (t ++ rest) 10 =
      ⟨Stampa.conSegno d.grandezza v, List.replicate m ' ' ++ rest, false⟩ ∧
    ('-' ∉ d.flags → m = 0) := by
  generalize hn : Stampa.conSegno d.grandezza v = n
  have htesto : d.testo R (.intero v) =
      some (d.campo (d.segno (n.toInt < 0)) (cifreDi 10 n.toInt.natAbs)) := by
    rw [← hn, Direttiva.testo]
    rcases hd with hd | hd
    · rw [hd]
      rfl
    · rw [hd]
      rfl
  obtain ⟨m, hletto, hdietro, hm⟩ := letto_campo d (n.toInt < 0) n.toInt.natAbs
    (by decide : 10 ∈ [10, 16]) hr (fun h => absurd h (by decide))
  refine ⟨_, m, vsprintf_sola htesto (campo_corto d _ (by decide) ?_), ?_, hm⟩
  · have hlow := n.le_toInt
    have hhigh := n.toInt_lt
    omega
  have habs : (if decide (n.toInt < 0) then -(n.toInt.natAbs : Int) else n.toInt.natAbs) =
      n.toInt := by
    simp only [decide_eq_true_eq]
    split <;> omega
  have hint := hletto.trans habs
  have h := strtol_entro (d.campo (d.segno (n.toInt < 0)) (cifreDi 10 n.toInt.natAbs) ++ rest) 10
    (by decide) (n.le_toInt.trans_eq hint.symm) (hint.trans_lt n.toInt_lt)
  rw [h, hint, BitVec.ofInt_toInt, hdietro]

/-- `%-+14i`. -/
def direttivaSinistra : Direttiva :=
  { direttivaSola ['1', '4'] 'i'
      (List.forall_mem_cons.mpr ⟨by decide, List.forall_mem_singleton.mpr (by decide)⟩) (by decide)
      (by decide) with
    flags := ['-', '+']
    flags_ok := List.forall_mem_cons.mpr
      ⟨Or.inr rfl, List.forall_mem_singleton.mpr (Or.inl rfl)⟩ }

theorem strtol_minimo :
    ∃ t m, vsprintf ⟨fun _ _ _ _ => [], fun _ _ _ _ => [], fun _ _ _ _ => []⟩
        (formato [.direttiva direttivaSinistra]) [.intero 0x80000000] = .ok (t, t.length) ∧
      strtol (t ++ [';']) 10 = ⟨0x80000000, List.replicate m ' ' ++ [';'], false⟩ ∧
      ('-' ∉ direttivaSinistra.flags → m = 0) :=
  strtol_vsprintf _ direttivaSinistra (Or.inr rfl) 0x80000000 [';']
    (fun c hc => by cases hc; rfl)

/-- And `strtoul` what `%u` and `%x` print, in the base of the conversion. -/
theorem strtoul_vsprintf (R : Reali) (d : Direttiva) (v : Word) (rest : List Char)
    (hd : d.conv = 'u' ∧ base = 10 ∨ d.conv = 'x' ∧ base = 16)
    (hr : ∀ c ∈ rest.head?, nellaBase base c = false)
    (hx : base = 16 → ∀ c ∈ rest.head?, c ≠ 'x' ∧ c ≠ 'X') : ∃ t m,
    vsprintf R (formato [.direttiva d]) [.intero v] = .ok (t, t.length) ∧
    strtoul (t ++ rest) base =
      ⟨Stampa.senzaSegno d.grandezza v, List.replicate m ' ' ++ rest, false⟩ ∧
    ('-' ∉ d.flags → m = 0) := by
  generalize hn : Stampa.senzaSegno d.grandezza v = n
  have htesto : d.testo R (.intero v) =
      some (d.campo (d.segno false) (cifreDi base n.toNat)) := by
    rw [← hn, Direttiva.testo]
    rcases hd with ⟨hd, rfl⟩ | ⟨hd, rfl⟩
    · rw [hd]
      rfl
    · rw [hd]
      rfl
  have hb : base ∈ [10, 16] ∧ base < 2 ^ 31 := by
    rcases hd with ⟨-, rfl⟩ | ⟨-, rfl⟩
    · decide
    · decide
  obtain ⟨m, hletto, hdietro, hm⟩ := letto_campo d false n.toNat hb.1 hr hx
  obtain ⟨hacc, hend, herange⟩ := strtoul_eq
    (d.campo (d.segno false) (cifreDi base n.toNat) ++ rest) base hb.2
  have hint : interoLetto (d.campo (d.segno false) (cifreDi base n.toNat) ++ rest) base = n.toNat :=
    hletto
  have habs := natAbs_interoLetto (d.campo (d.segno false) (cifreDi base n.toNat) ++ rest) base
  rw [hint, Int.natAbs_natCast] at habs
  rw [← habs, if_pos n.isLt, hint, BitVec.ofInt_natCast, BitVec.ofNat_toNat,
    BitVec.setWidth_eq] at hacc
  rw [← habs] at herange
  refine ⟨_, m, vsprintf_sola htesto (campo_corto d false hb.1 n.isLt), ?_, hm⟩
  apply Esito.ext
  · exact hacc
  · exact hend.trans hdietro
  · exact Bool.eq_false_iff.mpr (fun h => absurd (herange.mp h) (not_le.mpr n.isLt))

theorem strtoul_zeri :
    ∃ t m, vsprintf ⟨fun _ _ _ _ => [], fun _ _ _ _ => [], fun _ _ _ _ => []⟩
        (formato [.direttiva (direttivaSola ['0', '8'] 'x'
          (List.forall_mem_cons.mpr ⟨by decide, List.forall_mem_singleton.mpr (by decide)⟩)
          (by decide) (by decide))]) [.intero 0xB8000] = .ok (t, t.length) ∧
      strtoul (t ++ ['h']) 16 = ⟨0xB8000, List.replicate m ' ' ++ ['h'], false⟩ ∧
      ('-' ∉ [] → m = 0) :=
  strtoul_vsprintf _ _ 0xB8000 ['h'] (Or.inr ⟨rfl, rfl⟩) (fun c hc => by cases hc; rfl)
    (fun _ c hc => by cases hc; exact ⟨by decide, by decide⟩)

end Stampato

end Stdio

end Pitos
