import Pitos.Libc.Printf

/-!
# What `vsprintf` prints

A format is a list of pieces: texts without `%`, `%%`, and conversions with flags, width,
precision and size. The loop of `vsprintf`, which sees one character at a time, prints the pieces
one after the other (`vsprintf_pezzi`). What it returns is, as an `int`, the length of the text and,
for every `%s`, what the conversion before has left in `l`.
-/

namespace Pitos

open Lib

namespace Stdio

open Stampa

/-! ## Formats -/

def cifraDecimale (c : Char) : Prop := '0' ≤ c ∧ c ≤ '9'

instance (c : Char) : Decidable (cifraDecimale c) := inferInstanceAs (Decidable (_ ∧ _))

/-- A conversion as it is written in a format. -/
structure Direttiva where
  flags : List Char
  width : List Char
  prec : Option (List Char)
  size : Option Char
  conv : Char
  flags_ok : ∀ c ∈ flags, c = '+' ∨ c = '-'
  width_ok : ∀ c ∈ width, cifraDecimale c
  width_lt : Radix.evalFrom tonumber 10 0 width < 2 ^ 31
  prec_ok : ∀ l ∈ prec, ∀ c ∈ l, cifraDecimale c
  size_ok : ∀ c ∈ size, c = 'l' ∨ c = 'h' ∨ c = 'n'
  conv_ok : conv ∈ ['c', 'd', 'i', 'u', 'x', 'p', 's', 'f', 'e', 'g']

inductive Pezzo
  | testo (l : List Char) (ok : '%' ∉ l)
  | percento
  | direttiva (d : Direttiva)

/-- The bits of the characters `+` and `-`. -/
def segni (l : List Char) : Nat :=
  (if '+' ∈ l then ADD_PLUS else 0) ||| if '-' ∈ l then LEFT_PAD else 0

namespace Direttiva

variable (d : Direttiva)

def precisione : List Char :=
  match d.prec with
  | none => []
  | some l => '.' :: l

/-- What stands between `%` and the last character. -/
def mezzo : List Char := d.flags ++ d.width ++ d.precisione ++ d.size.toList

/-- What fills the width. -/
def riempie : Nat :=
  if d.width = [] then 0
  else if d.width.head? ≠ some '0' ∨ '-' ∈ d.flags then SPACE_PAD else ZERO_PAD

/-- The flags that the loop has gathered at the last character. -/
def bit : Nat := (segni d.flags ||| d.riempie) ||| if d.prec = none then 0 else RESPECT_WIDTH

def ampiezza : Word := if d.width = [] then 10 else (strtou d.width 10 []).1

def decimali : Word :=
  match d.prec with
  | some (c :: l) => (strtou (c :: l) 10 []).1
  | _ => 4

def grandezza : Nat :=
  match d.size with
  | none => STD_SIZE
  | some 'l' => LONG_SIZE
  | some _ => SHORT_SIZE

/-- The state in which the last character is looked at. -/
def pronta (s : Stampa) : Stampa :=
  { s with
    parsing := 1, w := d.ampiezza, prec := d.decimali, size := d.grandezza, flag := d.bit }

end Direttiva

def Pezzo.formato : Pezzo → List Char
  | .testo l _ => l
  | .percento => ['%', '%']
  | .direttiva d => '%' :: d.mezzo ++ [d.conv]

def formato (ps : List Pezzo) : List Char := ps.flatMap Pezzo.formato

/-! ## The loop -/

section Ciclo

variable {R : Reali} {fmt l : List Char} {c : Char} {s : Stampa}

theorem ciclo_ok {s' : Stampa} {k : Nat} (hc : c ≠ '%') (hs : s.parsing ≠ 0)
    (h : token R (c :: fmt) s = .ok (s', k)) : ciclo R (c :: fmt) 0 s = ciclo R fmt k s' :=
  (direttive R).run_ok hc (decide_eq_true hs) h

/-- Outside a conversion the characters are copied. -/
theorem ciclo_testo (hl : '%' ∉ l) (hs : s.parsing = 0) : ciclo R (l ++ fmt) 0 s =
    ciclo R fmt 0
      { s with buf := s.buf ++ l, scanned := s.scanned + BitVec.ofNat 32 l.length } := by
  have hfold : ∀ l : List Char, ∀ s : Stampa, s.parsing = 0 →
      l.foldl (fun s c => s.carattere c) s =
        { s with buf := s.buf ++ l, scanned := s.scanned + BitVec.ofNat 32 l.length } := by
    intro l
    induction l with
    | nil => simp
    | cons c l ih =>
      intro s hs
      rw [List.foldl_cons, ih _ rfl]
      simp only [Stampa.carattere, List.append_assoc, List.singleton_append, List.length_cons, hs]
      rw [BitVec.add_assoc, BitVec.ofNat_add, BitVec.add_comm (1 : Word)]
      rfl
  rw [← hfold l s hs]
  apply (direttive R).run_plains hl
  · exact decide_eq_false (not_not.mpr hs)
  · intro c s _
    rfl

theorem ciclo_percento :
    ciclo R ('%' :: '%' :: fmt) 0 s = ciclo R fmt 0 (s.aperta.carattere '%') :=
  (direttive R).run_start

def Stampa.conFlag (s : Stampa) (f : Nat) : Stampa := { s with flag := s.flag ||| f }

theorem segni_piu (l : List Char) : segni ('+' :: l) = ADD_PLUS ||| segni l := by
  by_cases hp : '+' ∈ l <;> by_cases hm : '-' ∈ l <;> simp [segni, hp, hm, ADD_PLUS, LEFT_PAD]

theorem segni_meno (l : List Char) : segni ('-' :: l) = LEFT_PAD ||| segni l := by
  by_cases hp : '+' ∈ l <;> by_cases hm : '-' ∈ l <;> simp [segni, hp, hm, ADD_PLUS, LEFT_PAD]

theorem ciclo_flags (hl : ∀ c ∈ l, c = '+' ∨ c = '-') (hs : s.parsing ≠ 0) :
    ciclo R (l ++ fmt) 0 s = ciclo R fmt 0 (s.conFlag (segni l)) := by
  induction l generalizing s with
  | nil =>
    have hzero : s.conFlag (segni []) = s := by
      rw [Stampa.conFlag, show segni [] = 0 from rfl, Nat.or_zero]
    rw [hzero]
    rfl
  | cons c l ih =>
    have hl' : ∀ c ∈ l, c = '+' ∨ c = '-' := fun c hc => hl c (List.mem_cons_of_mem _ hc)
    have hconc : ∀ f, (s.conFlag f).conFlag (segni l) = s.conFlag (f ||| segni l) := by
      intro f
      simp only [Stampa.conFlag, Nat.or_assoc]
    rcases hl c List.mem_cons_self with rfl | rfl
    · have htoken : token R ('+' :: (l ++ fmt)) s = .ok (s.conFlag ADD_PLUS, 0) := rfl
      rw [List.cons_append, ciclo_ok (by decide) hs htoken, segni_piu, ← hconc]
      exact ih hl' hs
    · have htoken : token R ('-' :: (l ++ fmt)) s = .ok (s.conFlag LEFT_PAD, 0) := rfl
      rw [List.cons_append, ciclo_ok (by decide) hs htoken, segni_meno, ← hconc]
      exact ih hl' hs

theorem ciclo_numero (hc : cifraDecimale c) (hs : s.parsing ≠ 0) : ciclo R (c :: fmt) 0 s =
    ciclo R fmt (numero (c :: fmt) s).2 (numero (c :: fmt) s).1 := by
  have hne : c ≠ '%' := fun h => absurd (h ▸ hc) (by decide)
  have htoken : token R (c :: fmt) s = .ok (numero (c :: fmt) s) := if_pos hc
  exact ciclo_ok hne hs htoken

/-- A number is read at once. -/
theorem ciclo_cifre (hne : l ≠ []) (hl : ∀ c ∈ l, cifraDecimale c)
    (hf : ∀ c ∈ fmt.head?, ¬ cifraDecimale c) :
    (s.parsing = 1 → ciclo R (l ++ fmt) 0 s = ciclo R fmt 0 { s with
      w := (strtou l 10 []).1
      flag := s.flag ||| if l.head? ≠ some '0' ∨ s.flag &&& LEFT_PAD ≠ 0 then SPACE_PAD
        else ZERO_PAD }) ∧
    (s.parsing = 2 → ciclo R (l ++ fmt) 0 s = ciclo R fmt 0 { s with
      prec := (strtou l 10 []).1, parsing := 1 }) := by
  obtain ⟨c, l', rfl⟩ := List.exists_cons_of_ne_nil hne
  have hc := hl c List.mem_cons_self
  have hstrtou : strtou (c :: (l' ++ fmt)) 10 [] = ((strtou (c :: l') 10 []).1, fmt) :=
    strtou_dieci (l := c :: l') hl hf
  have holtre : (c :: (l' ++ fmt)).length - fmt.length - 1 = l'.length := by
    rw [List.length_cons, List.length_append]
    omega
  constructor
  · intro hs
    rw [List.cons_append, ciclo_numero hc (by omega), numero, hstrtou]
    simp only [hs, if_true, holtre, List.head?_cons]
    exact (direttive R).run_drop
  · intro hs
    rw [List.cons_append, ciclo_numero hc (by omega), numero, hstrtou]
    simp only [hs, if_true, holtre, show ¬ (2 = 1) by decide, if_false]
    exact (direttive R).run_drop

theorem ciclo_punto (hs : s.parsing ≠ 0) : ciclo R ('.' :: fmt) 0 s =
    ciclo R fmt 0 { s with parsing := 2, flag := s.flag ||| RESPECT_WIDTH } := by
  have htoken : token R ('.' :: fmt) s =
      .ok ({ s with parsing := 2, flag := s.flag ||| RESPECT_WIDTH }, 0) := rfl
  exact ciclo_ok (by decide) hs htoken

theorem ciclo_precisione (R : Reali) (d : Direttiva) (fmt : List Char) (s : Stampa)
    (hs : s.parsing = 1) (hp : s.prec = 4) (hf : ∀ c ∈ fmt.head?, ¬ cifraDecimale c) :
    ∃ p ≠ 0, ciclo R (d.precisione ++ fmt) 0 s = ciclo R fmt 0 { s with
      parsing := p, prec := d.decimali
      flag := s.flag ||| if d.prec = none then 0 else RESPECT_WIDTH } := by
  have hs' : s.parsing ≠ 0 := by omega
  unfold Direttiva.precisione Direttiva.decimali
  cases h : d.prec with
  | none =>
    refine ⟨1, Nat.one_ne_zero, ?_⟩
    simp only [if_true, Nat.or_zero, ← hs, ← hp, List.nil_append]
  | some l =>
    have hcifre := d.prec_ok l h
    rw [if_neg (Option.some_ne_none l), List.cons_append, ciclo_punto hs']
    cases l with
    | nil => exact ⟨2, by decide, by simp only [← hp, List.nil_append]⟩
    | cons c l =>
      refine ⟨1, Nat.one_ne_zero, ?_⟩
      exact (ciclo_cifre (List.cons_ne_nil c l) hcifre hf).2 rfl

theorem ciclo_size (d : Direttiva) (hs : s.parsing ≠ 0) (hz : s.size = STD_SIZE) :
    ciclo R (d.size.toList ++ fmt) 0 s = ciclo R fmt 0 { s with size := d.grandezza } := by
  unfold Direttiva.grandezza
  cases h : d.size with
  | none =>
    rw [← hz]
    rfl
  | some c =>
    rcases d.size_ok c h with rfl | rfl | rfl
    · exact ciclo_ok (by decide) hs rfl
    · exact ciclo_ok (by decide) hs rfl
    · exact ciclo_ok (by decide) hs rfl

theorem ciclo_ampiezza (d : Direttiva) (hs : s.parsing = 1) (hw : s.w = 10)
    (hflag : s.flag = segni d.flags) (hf : ∀ c ∈ fmt.head?, ¬ cifraDecimale c) :
    ciclo R (d.width ++ fmt) 0 s = ciclo R fmt 0 { s with
      w := d.ampiezza, flag := segni d.flags ||| d.riempie } := by
  have hleft : segni d.flags &&& LEFT_PAD ≠ 0 ↔ '-' ∈ d.flags := by
    by_cases hp : '+' ∈ d.flags <;> by_cases hm : '-' ∈ d.flags <;>
      simp [segni, hp, hm, ADD_PLUS, LEFT_PAD]
  unfold Direttiva.ampiezza Direttiva.riempie
  by_cases h : d.width = []
  · simp only [h, if_true, Nat.or_zero, List.nil_append, ← hw, ← hflag]
  · rw [(ciclo_cifre h d.width_ok hf).1 hs, if_neg h, if_neg h, hflag]
    simp only [hleft]

theorem conv_ok' (d : Direttiva) : d.conv ≠ '%' ∧ ¬ cifraDecimale d.conv := by
  have hconv := d.conv_ok
  simp only [List.mem_cons, List.not_mem_nil, or_false] at hconv
  rcases hconv with h | h | h | h | h | h | h | h | h | h <;> rw [h] <;> decide

theorem size_cifra (d : Direttiva) :
    ∀ c ∈ (d.size.toList ++ d.conv :: fmt).head?, ¬ cifraDecimale c := by
  intro c hc
  cases h : d.size with
  | none =>
    rw [h] at hc
    exact Option.some.inj hc ▸ (conv_ok' d).2
  | some c' =>
    rw [h] at hc
    have hc' : c' = c := Option.some.inj hc
    subst hc'
    rcases d.size_ok c' h with rfl | rfl | rfl <;> decide

theorem precisione_cifra (d : Direttiva) :
    ∀ c ∈ (d.precisione ++ (d.size.toList ++ d.conv :: fmt)).head?, ¬ cifraDecimale c := by
  unfold Direttiva.precisione
  cases h : d.prec with
  | none => exact size_cifra d
  | some l =>
    intro c hc
    have hc' : '.' = c := Option.some.inj hc
    subst hc'
    decide

theorem percento_mezzo (d : Direttiva) : '%' ∉ d.mezzo := by
  have hcifre : ∀ l : List Char, (∀ c ∈ l, cifraDecimale c) → '%' ∉ l :=
    fun l hl h => absurd (hl _ h) (by decide)
  intro h
  rw [Direttiva.mezzo, List.mem_append, List.mem_append, List.mem_append] at h
  rcases h with ((h | h) | h) | h
  · exact absurd (d.flags_ok _ h) (by decide)
  · exact hcifre _ d.width_ok h
  · unfold Direttiva.precisione at h
    cases hp : d.prec with
    | none => simp [hp] at h
    | some l =>
      rw [hp] at h
      exact hcifre l (d.prec_ok l hp) ((List.mem_cons.mp h).resolve_left (by decide))
  · exact absurd (d.size_ok _ (Option.mem_toList.mp h)) (by decide)

/-- Flags, width, precision and size put the loop in the state `pronta`, except that `parsing` may
be 2, which the last character does not look at. -/
theorem ciclo_mezzo (R : Reali) (d : Direttiva) (fmt : List Char) (s : Stampa) : ∃ p ≠ 0,
    ciclo R ('%' :: d.mezzo ++ d.conv :: fmt) 0 s =
      ciclo R (d.conv :: fmt) 0 { d.pronta s with parsing := p } := by
  have happ : d.mezzo ++ d.conv :: fmt =
      d.flags ++ (d.width ++ (d.precisione ++ (d.size.toList ++ d.conv :: fmt))) := by
    simp only [Direttiva.mezzo, List.append_assoc]
  have hapre : ciclo R ('%' :: d.mezzo ++ d.conv :: fmt) 0 s =
      ciclo R (d.mezzo ++ d.conv :: fmt) 0 s.aperta := by
    cases h : d.mezzo with
    | nil => exact (direttive R).run_start_inside (conv_ok' d).1 rfl
    | cons c l =>
      have hne : c ≠ '%' := fun hc => percento_mezzo d (h ▸ hc ▸ List.mem_cons_self)
      exact (direttive R).run_start_inside hne rfl
  have hflag : s.aperta.flag = 0 := rfl
  rw [hapre, happ, ciclo_flags d.flags_ok Nat.one_ne_zero,
    ciclo_ampiezza d rfl rfl (by rw [Stampa.conFlag, hflag, Nat.zero_or]) (precisione_cifra d)]
  obtain ⟨p, hp, heq⟩ := ciclo_precisione R d (d.size.toList ++ d.conv :: fmt)
    { s.aperta with w := d.ampiezza, flag := segni d.flags ||| d.riempie } rfl rfl (size_cifra d)
  refine ⟨p, hp, heq.trans ?_⟩
  exact ciclo_size d hp rfl

end Ciclo

/-! ## The text of a conversion -/

def cifreDi (base n : Nat) : List Char :=
  (if n = 0 then ['0'] else (Nat.digits base n).map todigit).reverse

namespace Direttiva

/-- The width as a number. -/
def colonne (d : Direttiva) : Nat := Radix.evalFrom tonumber 10 0 d.width

/-- Sign and digits in the width. The zeros come behind the sign, and a `-` has the last word. -/
def campo (d : Direttiva) (segno cifre : List Char) : List Char :=
  let manca := d.colonne - (segno.length + cifre.length)
  if '-' ∈ d.flags then segno ++ cifre ++ List.replicate manca ' '
  else if d.width.head? = some '0' then segno ++ List.replicate manca '0' ++ cifre
  else List.replicate manca ' ' ++ segno ++ cifre

def segno (d : Direttiva) (meno : Bool) : List Char :=
  if meno then ['-'] else if '+' ∈ d.flags then ['+'] else []

theorem campo_length (d : Direttiva) (segno cifre : List Char) :
    (d.campo segno cifre).length = max d.colonne (segno.length + cifre.length) := by
  unfold campo
  split
  · simp only [List.length_append, List.length_replicate]
    omega
  · split
    · simp only [List.length_append, List.length_replicate]
      omega
    · simp only [List.length_append, List.length_replicate]
      omega

theorem ampiezza_eq (d : Direttiva) (h : d.width ≠ []) : larghezza d.ampiezza = d.colonne := by
  have hlt : d.colonne < 2 ^ 31 := d.width_lt
  have hstrtou : strtou (d.width ++ []) 10 [] = (BitVec.ofNat 32 d.colonne, []) :=
    strtou_eq (cifre_dieci d.width_ok) (Nat.le_of_lt_succ (hlt.trans (by decide)))
      (fun h => absurd h (by decide)) (fun c hc => by cases hc) (by decide) (by decide)
  rw [List.append_nil] at hstrtou
  have hw : d.ampiezza = BitVec.ofNat 32 d.colonne := by
    rw [ampiezza, if_neg h, hstrtou]
  rw [hw, larghezza, toInt_ofNat_of_lt (Nat.le_of_lt_succ hlt), Int.toNat_natCast]

/-- The flags as `ucvt` sees them, which inverts `LEFT_PAD` first. -/
theorem bit_eq (d : Direttiva) :
    ((d.bit ^^^ LEFT_PAD) &&& ADD_PLUS ≠ 0 ↔ '+' ∈ d.flags) ∧
    ((d.bit ^^^ LEFT_PAD) &&& LEFT_PAD ≠ 0 ↔ '-' ∉ d.flags) ∧
    ((d.bit ^^^ LEFT_PAD) &&& SPACE_PAD ≠ 0 ↔
      d.width ≠ [] ∧ (d.width.head? ≠ some '0' ∨ '-' ∈ d.flags)) ∧
    ((d.bit ^^^ LEFT_PAD) &&& ZERO_PAD ≠ 0 ↔
      d.width ≠ [] ∧ d.width.head? = some '0' ∧ '-' ∉ d.flags) := by
  unfold bit riempie segni
  by_cases hp : '+' ∈ d.flags <;> by_cases hm : '-' ∈ d.flags <;> by_cases hw : d.width = [] <;>
    by_cases h0 : d.width.head? = some '0' <;> by_cases hprec : d.prec = none <;>
    simp only [hp, hm, hw, h0, hprec, if_true, if_false, ne_eq, not_true_eq_false, or_true,
      not_false_eq_true, true_or, or_self] <;> decide

/-- The digits that `ucvt` leaves in `tmp`. -/
theorem tmp_eq (v : Word) (base : Int) (meno : Prop) [Decidable meno] :
    (if v = 0 then ['0']
      else (Nat.digits base.natAbs (if meno then -v else v).toNat).map todigit).reverse =
      cifreDi base.natAbs (if meno then -v else v).toNat := by
  have hiff : v = 0 ↔ (if meno then -v else v).toNat = 0 := by
    have hz : ∀ w : Word, w.toNat = 0 ↔ w = 0 := fun w => by
      rw [← BitVec.toNat_inj]
      rfl
    rw [hz]
    split
    · exact BitVec.neg_eq_zero_iff.symm
    · exact Iff.rfl
  rw [cifreDi]
  simp only [hiff]

/-- `ucvt` with the flags and the width of a conversion. -/
theorem ucvt_campo (d : Direttiva) (v : Word) (base : Int) :
    ucvt v base (larghezza d.ampiezza) d.bit = d.campo (d.segno (base < 0 ∧ v.msb = true))
      (cifreDi base.natAbs (if base < 0 ∧ v.msb = true then -v else v).toNat) := by
  obtain ⟨hplus, hleft, hspace, hzero⟩ := bit_eq d
  have hright : ((d.bit ^^^ LEFT_PAD) &&& LEFT_PAD = 0) ↔ '-' ∈ d.flags :=
    not_iff_not.mp hleft
  have hcol : d.width = [] → d.colonne = 0 := by
    intro h
    rw [colonne, h]
    rfl
  have htmp := tmp_eq v base (base < 0 ∧ v.msb = true)
  have hlen := congrArg List.length htmp
  rw [List.length_reverse] at hlen
  have hsegno : (d.segno (base < 0 ∧ v.msb = true)).length =
      if '+' ∈ d.flags ∨ base < 0 ∧ v.msb = true then 1 else 0 := by
    unfold segno
    by_cases hm : base < 0 ∧ v.msb = true
    · simp [hm]
    · by_cases hp : '+' ∈ d.flags <;> simp [hm, hp]
  have hsegno' : (if base < 0 ∧ v.msb = true then ['-'] else if '+' ∈ d.flags then ['+'] else []) =
      d.segno (base < 0 ∧ v.msb = true) := by
    simp only [segno, decide_eq_true_eq]
  unfold ucvt campo
  simp only [hplus, hright, hleft, hspace, hzero, htmp, hlen, hsegno', ← hsegno]
  generalize d.segno _ = segno, cifreDi _ _ = cifre
  by_cases hw : d.width = []
  · simp [hw, hcol hw]
  · rw [d.ampiezza_eq hw, Nat.add_comm cifre.length]
    by_cases hm : '-' ∈ d.flags
    · simp [hw, hm]
    · by_cases h0 : d.width.head? = some '0'
      · simp [hw, hm, h0]
      · simp [hw, hm, h0]

/-- The sign of a `%d` is told by the number itself. -/
theorem dcvt_campo (d : Direttiva) (v : Word) : dcvt v 10 (larghezza d.ampiezza) d.bit =
    d.campo (d.segno (v.toInt < 0)) (cifreDi 10 v.toInt.natAbs) := by
  have hmeno : (-10 < (0 : Int) ∧ v.msb = true) ↔ v.toInt < 0 := by
    rw [BitVec.msb_eq_toInt, decide_eq_true_eq]
    exact and_iff_right (by decide)
  have habs : (if v.toInt < 0 then -v else v).toNat = v.toInt.natAbs := by
    have hv := v.isLt
    have hint := BitVec.toInt_eq_toNat_cond v
    by_cases h : v.toInt < 0
    · rw [if_pos h, BitVec.toNat_neg]
      omega
    · rw [if_neg h]
      omega
  rw [dcvt, ucvt_campo]
  simp only [hmeno, habs]
  rfl

theorem ucvt_campo_nat (d : Direttiva) (v : Word) (base : Nat) :
    ucvt v base (larghezza d.ampiezza) d.bit = d.campo (d.segno false) (cifreDi base v.toNat) := by
  have hmeno : ¬ ((base : Int) < 0 ∧ v.msb = true) := by
    rw [not_and]
    omega
  rw [ucvt_campo, if_neg hmeno, decide_eq_false hmeno, Int.natAbs_natCast]

/-- The text that a conversion makes of an argument, if it is of its kind. -/
def testo (R : Reali) (d : Direttiva) : Argomento → Option (List Char)
  | .intero v =>
    let n := (conSegno d.grandezza v).toInt
    match d.conv with
    | 'c' => some [Char.ofNat (v.setWidth 8).toNat]
    | 'd' => some (d.campo (d.segno (n < 0)) (cifreDi 10 n.natAbs))
    | 'i' => some (d.campo (d.segno (n < 0)) (cifreDi 10 n.natAbs))
    | 'u' => some (d.campo (d.segno false) (cifreDi 10 (senzaSegno d.grandezza v).toNat))
    | 'x' => some (d.campo (d.segno false) (cifreDi 16 (senzaSegno d.grandezza v).toNat))
    | 'p' => some (cifreDi 16 v.toNat)
    | _ => none
  | .stringa sp => if d.conv = 's' then some sp else none
  | .reale v =>
    match d.conv with
    | 'f' => some (R.fcvt v d.ampiezza d.decimali d.bit)
    | 'e' => some (R.ecvt v d.ampiezza d.decimali d.bit)
    | 'g' => some (R.gcvt v d.ampiezza d.decimali d.bit)
    | _ => none

end Direttiva

/-- The text of a piece and the arguments that are left. -/
def Pezzo.testi (R : Reali) : Pezzo → List Argomento → Option (List Char × List Argomento)
  | .testo l _, parms => some (l, parms)
  | .percento, parms => some (['%'], parms)
  | .direttiva _, [] => none
  | .direttiva d, a :: parms => (d.testo R a).map fun t => (t, parms)

/-- What a piece leaves in `l`, which only numbers set anew. -/
def Pezzo.lascia (l n : Nat) : Pezzo → Nat
  | .direttiva d => if d.conv = 'c' then l else if d.conv = 's' then l + n else n
  | _ => l

/-- What a piece is counted for above its length. -/
def Pezzo.inPiu (l : Nat) : Pezzo → Nat
  | .direttiva d => if d.conv = 's' then l else 0
  | _ => 0

/-- The text of a format, and what `vsprintf` returns above its length. -/
def stampa (R : Reali) : List Pezzo → Nat → List Argomento → Option (List Char × Nat)
  | [], _, _ => some ([], 0)
  | p :: ps, l, parms =>
    match p.testi R parms with
    | none => none
    | some (t, parms) =>
      (stampa R ps (p.lascia l t.length) parms).map fun (t', n) => (t ++ t', p.inPiu l + n)

section Pezzi

variable {R : Reali} {fmt : List Char} {s : Stampa}

/-- The loop has gone past the piece `p` with the text `t`. The variable `l` held `k`. -/
structure Passa (p : Pezzo) (t : List Char) (parms : List Argomento) (k : Nat) (s s' : Stampa) :
    Prop where
  parsing : s'.parsing = 0
  buf : s'.buf = s.buf ++ t
  scanned : s'.scanned = s.scanned + BitVec.ofNat 32 (t.length + p.inPiu k)
  l : s'.l = BitVec.ofNat 32 (p.lascia k t.length)
  parms : s'.parms = parms

/-- The text, the count and `l`, which holds `k`, are not those of the format. -/
def Stampa.Uguale (k : Nat) (s s' : Stampa) : Prop :=
  s'.buf = s.buf ∧ s'.scanned = s.scanned ∧ s'.l = BitVec.ofNat 32 k

variable {s' : Stampa} {d : Direttiva} {t : List Char} {c : Char} {k : Nat}

theorem passa_esce (h : s.Uguale k s') (hc : d.conv ≠ 'c') (hs : d.conv ≠ 's') :
    Passa (.direttiva d) t s'.parms k s (s'.esce t) where
  parsing := rfl
  buf := congrArg (· ++ t) h.1
  scanned := by simp [Pezzo.inPiu, hs, Stampa.esce, h.2.1]
  l := by simp [Pezzo.lascia, hc, hs, Stampa.esce]
  parms := rfl

theorem passa_carattere (h : s.Uguale k s') (hc : d.conv = 'c') :
    Passa (.direttiva d) [c] s'.parms k s (s'.carattere c) where
  parsing := rfl
  buf := congrArg (· ++ [c]) h.1
  scanned := by simp [Pezzo.inPiu, hc, Stampa.carattere, h.2.1]
  l := by simp [Pezzo.lascia, hc, Stampa.carattere, h.2.2]
  parms := rfl

theorem passa_stringa (h : s.Uguale k s') (hs : d.conv = 's') :
    Passa (.direttiva d) t s'.parms k s (s'.stringa t) where
  parsing := rfl
  buf := congrArg (· ++ t) h.1
  scanned := by
    simp only [Pezzo.inPiu, hs, Stampa.stringa, if_true, h.2.1, h.2.2]
    rw [← BitVec.ofNat_add, Nat.add_comm k]
  l := by
    simp only [Pezzo.lascia, hs, Stampa.stringa, if_true, h.2.2]
    exact (BitVec.ofNat_add k t.length).symm
  parms := rfl

theorem ucvt_puntatore (v : Word) (width : Nat) : ucvt v 16 width 0 = cifreDi 16 v.toNat := by
  have hno : ¬ ((16 : Int) < 0 ∧ v.msb = true) := fun h => absurd h.1 (by decide)
  have htmp := Direttiva.tmp_eq v 16 False
  have hplus : (0 ^^^ LEFT_PAD) &&& ADD_PLUS = 0 := rfl
  have hspace : (0 ^^^ LEFT_PAD) &&& SPACE_PAD = 0 := rfl
  have hzero : (0 ^^^ LEFT_PAD) &&& ZERO_PAD = 0 := rfl
  simp only [if_false] at htmp
  unfold ucvt
  simp only [hno, hplus, hspace, hzero, if_false, ne_eq, not_true_eq_false, or_self, and_false,
    false_and, List.replicate_zero, List.nil_append, List.append_nil, htmp]
  rfl

/-- The conversions find no argument of their kind. -/
theorem lettera_manca (d : Direttiva)
    (hs : d.conv = 's' → ∀ sp parms, s'.parms ≠ .stringa sp :: parms)
    (hi : d.conv ∈ ['c', 'd', 'i', 'u', 'x', 'p'] → s'.intero = .error .argomento)
    (hr : d.conv ∈ ['f', 'e', 'g'] → s'.reale = .error .argomento) :
    lettera R d.conv s' = .error .argomento := by
  have hintero : ∀ f : Word × Stampa → Stampa, s'.intero = .error .argomento →
      s'.intero.map f = .error .argomento := fun f h => by rw [h]; rfl
  have hreale : ∀ f : BitVec 64 × Stampa → Stampa, s'.reale = .error .argomento →
      s'.reale.map f = .error .argomento := fun f h => by rw [h]; rfl
  have hconv := d.conv_ok
  simp only [List.mem_cons, List.not_mem_nil, or_false] at hconv hi hr
  rcases hconv with h | h | h | h | h | h | h | h | h | h <;> rw [h] at hi hr ⊢
  · exact hintero _ (hi (by decide))
  · exact hintero _ (hi (by decide))
  · exact hintero _ (hi (by decide))
  · exact hintero _ (hi (by decide))
  · exact hintero _ (hi (by decide))
  · exact hintero _ (hi (by decide))
  · have hne := hs h
    cases hp : s'.parms with
    | nil => simp only [lettera, hp]
    | cons a parms =>
      cases a with
      | intero v => simp only [lettera, hp]
      | stringa sp => exact absurd hp (hne sp parms)
      | reale v => simp only [lettera, hp]
  · exact hreale _ (hr (by decide))
  · exact hreale _ (hr (by decide))
  · exact hreale _ (hr (by decide))

theorem lettera_intero (d : Direttiva) (v : Word) {parms : List Argomento}
    (hu : s.Uguale k s') (hp : s'.parms = .intero v :: parms) (hw : s'.w = d.ampiezza)
    (hf : s'.flag = d.bit) (hz : s'.size = d.grandezza) :
    match d.testo R (.intero v) with
    | none => lettera R d.conv s' = .error .argomento
    | some t => ∃ s1, Passa (.direttiva d) t parms k s s1 ∧ lettera R d.conv s' = .ok s1 := by
  have hi : s'.intero = .ok (v, { s' with parms }) := by
    rw [Stampa.intero, hp]
  have hu' : s.Uguale k { s' with parms } := hu
  have hmanca : d.conv ≠ 's' → d.conv ∉ ['c', 'd', 'i', 'u', 'x', 'p'] →
      lettera R d.conv s' = .error .argomento := by
    intro hs hc
    exact lettera_manca d (fun h => absurd h hs) (fun h => absurd h hc)
      fun _ => by rw [Stampa.reale, hp]
  have hconv := d.conv_ok
  simp only [List.mem_cons, List.not_mem_nil, or_false] at hconv
  unfold Direttiva.testo
  rcases hconv with h | h | h | h | h | h | h | h | h | h
  · rw [h]
    refine ⟨_, passa_carattere hu' h, ?_⟩
    simp only [lettera, hi]
    rfl
  · rw [h]
    refine ⟨_, passa_esce hu' (h ▸ by decide) (h ▸ by decide), ?_⟩
    simp only [lettera, hi, Except.map, hw, hf, hz, d.dcvt_campo]
  · rw [h]
    refine ⟨_, passa_esce hu' (h ▸ by decide) (h ▸ by decide), ?_⟩
    simp only [lettera, hi, Except.map, hw, hf, hz, d.dcvt_campo]
  · rw [h]
    refine ⟨_, passa_esce hu' (h ▸ by decide) (h ▸ by decide), ?_⟩
    have hcampo := d.ucvt_campo_nat (senzaSegno d.grandezza v) 10
    simp only [lettera, hi, Except.map, hw, hf, hz]
    exact congrArg _ (congrArg _ hcampo)
  · rw [h]
    refine ⟨_, passa_esce hu' (h ▸ by decide) (h ▸ by decide), ?_⟩
    have hcampo := d.ucvt_campo_nat (senzaSegno d.grandezza v) 16
    simp only [lettera, hi, Except.map, hw, hf, hz]
    exact congrArg _ (congrArg _ hcampo)
  · rw [h]
    refine ⟨_, passa_esce hu' (h ▸ by decide) (h ▸ by decide), ?_⟩
    simp only [lettera, hi, Except.map, ucvt_puntatore]
  · rw [h]
    change lettera R 's' s' = _
    simp only [lettera, hp]
  · rw [h] at hmanca ⊢
    exact hmanca (by decide) (by decide)
  · rw [h] at hmanca ⊢
    exact hmanca (by decide) (by decide)
  · rw [h] at hmanca ⊢
    exact hmanca (by decide) (by decide)

theorem lettera_stringa (d : Direttiva) (sp : List Char) {parms : List Argomento}
    (hu : s.Uguale k s') (hp : s'.parms = .stringa sp :: parms) :
    match d.testo R (.stringa sp) with
    | none => lettera R d.conv s' = .error .argomento
    | some t => ∃ s1, Passa (.direttiva d) t parms k s s1 ∧ lettera R d.conv s' = .ok s1 := by
  have hu' : s.Uguale k { s' with parms } := hu
  unfold Direttiva.testo
  by_cases h : d.conv = 's'
  · simp only [h, if_true]
    refine ⟨_, passa_stringa hu' h, ?_⟩
    simp only [lettera, hp]
  · simp only [h, if_false]
    exact lettera_manca d (fun hs => absurd hs h) (fun _ => by rw [Stampa.intero, hp])
      fun _ => by rw [Stampa.reale, hp]

theorem lettera_reale (d : Direttiva) (v : BitVec 64) {parms : List Argomento}
    (hu : s.Uguale k s') (hp : s'.parms = .reale v :: parms) (hw : s'.w = d.ampiezza)
    (hd : s'.prec = d.decimali) (hf : s'.flag = d.bit) :
    match d.testo R (.reale v) with
    | none => lettera R d.conv s' = .error .argomento
    | some t => ∃ s1, Passa (.direttiva d) t parms k s s1 ∧ lettera R d.conv s' = .ok s1 := by
  have hr : s'.reale = .ok (v, { s' with parms }) := by
    rw [Stampa.reale, hp]
  have hu' : s.Uguale k { s' with parms } := hu
  have hmanca : d.conv ∉ ['f', 'e', 'g'] → lettera R d.conv s' = .error .argomento := by
    intro h
    refine lettera_manca d (fun _ sp parms hs => ?_) (fun _ => by rw [Stampa.intero, hp])
      fun hc => absurd hc h
    rw [hp] at hs
    cases hs
  have hconv := d.conv_ok
  simp only [List.mem_cons, List.not_mem_nil, or_false] at hconv
  unfold Direttiva.testo
  rcases hconv with h | h | h | h | h | h | h | h | h | h <;> rw [h] at hmanca ⊢
  · exact hmanca (by decide)
  · exact hmanca (by decide)
  · exact hmanca (by decide)
  · exact hmanca (by decide)
  · exact hmanca (by decide)
  · exact hmanca (by decide)
  · exact hmanca (by decide)
  · refine ⟨_, passa_esce hu' (h ▸ by decide) (h ▸ by decide), ?_⟩
    simp only [lettera, hr, Except.map, hw, hf, hd]
  · refine ⟨_, passa_esce hu' (h ▸ by decide) (h ▸ by decide), ?_⟩
    simp only [lettera, hr, Except.map, hw, hf, hd]
  · refine ⟨_, passa_esce hu' (h ▸ by decide) (h ▸ by decide), ?_⟩
    simp only [lettera, hr, Except.map, hw, hf, hd]

/-- The last character of a conversion. -/
theorem lettera_conv (d : Direttiva) {s : Stampa} (p : Nat) (hk : s.l = BitVec.ofNat 32 k) :
    match (Pezzo.direttiva d).testi R s.parms with
    | none => lettera R d.conv { d.pronta s with parsing := p } = .error .argomento
    | some (t, parms) => ∃ s', Passa (.direttiva d) t parms k s s' ∧
        lettera R d.conv { d.pronta s with parsing := p } = .ok s' := by
  have hu : s.Uguale k { d.pronta s with parsing := p } := ⟨rfl, rfl, hk⟩
  cases hp : s.parms with
  | nil =>
    refine lettera_manca d (fun _ sp parms hs => ?_) (fun _ => ?_) fun _ => ?_
    · cases hp.symm.trans hs
    · simp only [Stampa.intero, Direttiva.pronta, hp]
    · simp only [Stampa.reale, Direttiva.pronta, hp]
  | cons a parms =>
    have htesti : (Pezzo.direttiva d).testi R (a :: parms) =
        (d.testo R a).map fun t => (t, parms) := rfl
    have hfine : ∀ o : Option (List Char), (match o with
        | none => lettera R d.conv { d.pronta s with parsing := p } = .error .argomento
        | some t => ∃ s1, Passa (.direttiva d) t parms k s s1 ∧
          lettera R d.conv { d.pronta s with parsing := p } = .ok s1) →
        match o.map fun t => (t, parms) with
        | none => lettera R d.conv { d.pronta s with parsing := p } = .error .argomento
        | some (t, parms) => ∃ s', Passa (.direttiva d) t parms k s s' ∧
          lettera R d.conv { d.pronta s with parsing := p } = .ok s' := by
      intro o h
      cases o <;> exact h
    rw [htesti]
    apply hfine
    cases a with
    | intero v => exact lettera_intero d v hu hp rfl rfl rfl
    | stringa sp => exact lettera_stringa d sp hu hp
    | reale v => exact lettera_reale d v hu hp rfl rfl rfl

/-- One piece of the format. -/
theorem ciclo_pezzo (R : Reali) (p : Pezzo) (fmt : List Char) (hs : s.parsing = 0)
    (hk : s.l = BitVec.ofNat 32 k) :
    match p.testi R s.parms with
    | none => ciclo R (p.formato ++ fmt) 0 s = .error .argomento
    | some (t, parms) => ∃ s', Passa p t parms k s s' ∧
        ciclo R (p.formato ++ fmt) 0 s = ciclo R fmt 0 s' := by
  cases p with
  | testo l ok =>
    refine ⟨{ s with buf := s.buf ++ l, scanned := s.scanned + BitVec.ofNat 32 l.length }, ?_,
      ciclo_testo ok hs⟩
    exact ⟨hs, rfl, rfl, hk, rfl⟩
  | percento =>
    refine ⟨s.aperta.carattere '%', ?_, ciclo_percento⟩
    exact ⟨rfl, rfl, rfl, hk, rfl⟩
  | direttiva d =>
    obtain ⟨p, hp, heq⟩ := ciclo_mezzo R d fmt s
    have happ : (Pezzo.direttiva d).formato ++ fmt = '%' :: d.mezzo ++ d.conv :: fmt := by
      simp [Pezzo.formato]
    have htoken : token R (d.conv :: fmt) { d.pronta s with parsing := p } =
        (lettera R d.conv { d.pronta s with parsing := p }).map fun s => (s, 0) :=
      if_neg (conv_ok' d).2
    have h := lettera_conv (R := R) d p hk
    rw [happ, heq]
    cases ht : (Pezzo.direttiva d).testi R s.parms with
    | none =>
      rw [ht] at h
      rw [show lettera R d.conv _ = _ from h] at htoken
      exact (direttive R).run_error (conv_ok' d).1 (decide_eq_true hp) htoken
    | some r =>
      rw [ht] at h
      obtain ⟨s', hpassa, hlettera⟩ := h
      rw [hlettera] at htoken
      exact ⟨s', hpassa, ciclo_ok (conv_ok' d).1 hp htoken⟩

end Pezzi

/-- The whole format, from any state outside a conversion. -/
theorem ciclo_pezzi {R : Reali} (ps : List Pezzo) {s : Stampa} {k : Nat} (hs : s.parsing = 0)
    (hk : s.l = BitVec.ofNat 32 k) : (ciclo R (formato ps) 0 s).map (fun s => (s.buf, s.scanned)) =
      match stampa R ps k s.parms with
      | none => .error .argomento
      | some (t, n) => .ok (s.buf ++ t, s.scanned + BitVec.ofNat 32 (t.length + n)) := by
  induction ps generalizing s k with
  | nil =>
    have hnil : ciclo R (formato []) 0 s = .ok s := by
      rw [formato, List.flatMap_nil, ciclo, Directives.run]
    rw [hnil]
    simp [stampa, Except.map]
  | cons p ps ih =>
    have hpezzo := ciclo_pezzo R p (formato ps) hs hk
    rw [formato, List.flatMap_cons, stampa]
    cases ht : p.testi R s.parms with
    | none =>
      rw [ht] at hpezzo
      exact congrArg (Except.map _) hpezzo
    | some r =>
      obtain ⟨t, parms⟩ := r
      rw [ht] at hpezzo
      obtain ⟨s', hpassa, hciclo⟩ := hpezzo
      have h := ih hpassa.parsing hpassa.l
      rw [hpassa.buf, hpassa.scanned, hpassa.parms] at h
      rw [show ciclo R (p.formato ++ List.flatMap Pezzo.formato ps) 0 s = _ from hciclo]
      refine h.trans ?_
      dsimp only
      cases stampa R ps (p.lascia k t.length) parms with
      | none => rfl
      | some r =>
        obtain ⟨t', n⟩ := r
        simp only [Option.map_some, List.append_assoc, List.length_append]
        refine congrArg (fun n => Except.ok (_, n)) ?_
        rw [BitVec.add_assoc, ← BitVec.ofNat_add]
        congr 2
        omega

section Esito

variable {R : Reali} {ps : List Pezzo} {parms : List Argomento}

/-- The state in which the loop begins. -/
theorem vsprintf_ciclo (fmt : List Char) : vsprintf R fmt parms =
    ((ciclo R fmt 0 ⟨[], 0, 0, 0, 0, STD_SIZE, 0, 0, parms⟩).map fun s => (s.buf, s.scanned)).map
      fun r => (r.1, r.2.toInt) := by
  unfold vsprintf
  cases ciclo R fmt 0 _ <;> rfl

theorem vsprintf_stampa {t : List Char} {n : Nat} (h : stampa R ps 0 parms = some (t, n)) :
    vsprintf R (formato ps) parms = .ok (t, int32 (t.length + n)) := by
  have hcount : ((0 : Word) + BitVec.ofNat 32 (t.length + n)).toInt = int32 (t.length + n) := by
    rw [show (0 : Word) + BitVec.ofNat 32 (t.length + n) = _ from BitVec.zero_add _,
      BitVec.toInt_ofNat']
    rfl
  rw [vsprintf_ciclo, ciclo_pezzi ps rfl rfl, h]
  exact congrArg (fun i => Except.ok (t, i)) hcount

theorem vsprintf_manca (h : stampa R ps 0 parms = none) :
    vsprintf R (formato ps) parms = .error .argomento := by
  rw [vsprintf_ciclo, ciclo_pezzi ps rfl rfl, h]
  rfl

end Esito

/-- `vsprintf` prints the pieces of the format one after the other, and fails only when an argument
is missing or of another kind. What it returns is above the length of the text by what `%s` found in
`l`, as far as an `int` can hold it. -/
theorem vsprintf_pezzi (R : Reali) (ps : List Pezzo) (parms : List Argomento) :
    vsprintf R (formato ps) parms =
      match stampa R ps 0 parms with
      | none => .error .argomento
      | some (t, n) => .ok (t, int32 (t.length + n)) := by
  cases h : stampa R ps 0 parms with
  | none => exact vsprintf_manca h
  | some r => exact vsprintf_stampa h

/-! ## The formats of the kernel -/

/-- The conversions of the kernel's texts: `%d`, `%x` and `%s`, and `%x` with zeros in a width of
one digit. -/
def Pezzo.Nucleo : Pezzo → Prop
  | .testo _ _ => True
  | .percento => False
  | .direttiva d => d.flags = [] ∧ d.prec = none ∧ d.size = none ∧
      (d.width = [] ∧ d.conv ∈ ['d', 'x', 's'] ∨
        (∃ c, cifraDecimale c ∧ d.width = ['0', c]) ∧ d.conv = 'x')

def argomento : Parametro → Argomento
  | .intero v => .intero v
  | .stringa sp => .stringa sp

section Nucleo

variable {R : Reali} {d : Direttiva} {l fmt : List Char} {parms : List Parametro}

theorem nucleo_testo (hl : '%' ∉ l) :
    Pitos.vsprintf (l ++ fmt) parms = l ++ Pitos.vsprintf fmt parms := by
  induction l with
  | nil => rfl
  | cons c l ih =>
    have hc : c ≠ '%' := fun hc => hl (hc ▸ List.mem_cons_self)
    have htesto :
        Pitos.vsprintf (c :: (l ++ fmt)) parms = c :: Pitos.vsprintf (l ++ fmt) parms := by
      apply Pitos.vsprintf.eq_6 <;> intros <;> exact hc ‹c = '%'›
    rw [List.cons_append, htesto, ih fun h => hl (List.mem_cons_of_mem _ h)]
    rfl

/-- Without flags and width `vsprintf` sets what the kernel's texts take for granted. -/
theorem nucleo_spoglia (hf : d.flags = []) (hp : d.prec = none) (hw : d.width = []) :
    larghezza d.ampiezza = 10 ∧ d.bit = 0 := by
  constructor
  · rw [Direttiva.ampiezza, if_pos hw]
    rfl
  · rw [Direttiva.bit, Direttiva.riempie, if_pos hw, if_pos hp, hf]
    rfl

theorem nucleo_zeri {c : Char} (hf : d.flags = []) (hp : d.prec = none) (hc : cifraDecimale c)
    (hw : d.width = ['0', c]) :
    larghezza d.ampiezza = c.toNat - 0x30 ∧ d.bit = ZERO_PAD := by
  have hne : d.width ≠ [] := hw ▸ List.cons_ne_nil _ _
  constructor
  · rw [d.ampiezza_eq hne, Direttiva.colonne, hw]
    have hval : tonumber c = c.toNat - '0'.toNat := if_pos hc
    have hzero : 10 * (10 * 0 + tonumber '0') = 0 := by decide
    rw [Radix.evalFrom_cons, Radix.evalFrom_cons, Radix.evalFrom_nil, hzero, hval, Nat.zero_add]
    rfl
  · have hno : ¬ (d.width.head? ≠ some '0' ∨ '-' ∈ d.flags) := by
      rw [hw, hf]
      simp
    rw [Direttiva.bit, Direttiva.riempie, if_neg hne, if_neg hno, if_pos hp, hf]
    rfl

theorem nucleo_direttiva (hd : (Pezzo.direttiva d).Nucleo) {a : Parametro} {t : List Char}
    (h : d.testo R (argomento a) = some t) :
    Pitos.vsprintf ((Pezzo.direttiva d).formato ++ fmt) (a :: parms) =
      t ++ Pitos.vsprintf fmt parms := by
  obtain ⟨hf, hp, hs, hkind⟩ := hd
  have hsize : d.grandezza = STD_SIZE := by
    rw [Direttiva.grandezza, hs]
  have hfmt : (Pezzo.direttiva d).formato ++ fmt = '%' :: (d.width ++ d.conv :: fmt) := by
    simp [Pezzo.formato, Direttiva.mezzo, Direttiva.precisione, hf, hp, hs]
  have hsegno : ∀ v, conSegno STD_SIZE v = v := fun v => rfl
  have hnat : ∀ v, senzaSegno STD_SIZE v = v := fun v => rfl
  rw [hfmt]
  rcases hkind with ⟨hw, hconv⟩ | ⟨⟨c, hc, hw⟩, hconv⟩
  · obtain ⟨hampiezza, hbit⟩ := nucleo_spoglia hf hp hw
    simp only [List.mem_cons, List.not_mem_nil, or_false] at hconv
    rw [hw, List.nil_append]
    rcases hconv with hconv | hconv | hconv <;> rw [hconv]
    · cases a with
      | intero v =>
        have hcampo := d.dcvt_campo v
        rw [hampiezza, hbit] at hcampo
        simp only [argomento, Direttiva.testo, hconv, hsize, hsegno, Option.some.injEq] at h
        rw [← h, ← hcampo]
        rfl
      | stringa sp => simp [argomento, Direttiva.testo, hconv] at h
    · cases a with
      | intero v =>
        have hcampo := d.ucvt_campo_nat v 16
        rw [hampiezza, hbit] at hcampo
        simp only [argomento, Direttiva.testo, hconv, hsize, hnat, Option.some.injEq] at h
        rw [← h, ← hcampo]
        rfl
      | stringa sp => simp [argomento, Direttiva.testo, hconv] at h
    · cases a with
      | intero v => simp [argomento, Direttiva.testo, hconv] at h
      | stringa sp =>
        simp only [argomento, Direttiva.testo, hconv, if_true, Option.some.injEq] at h
        rw [← h]
        rfl
  · obtain ⟨hampiezza, hbit⟩ := nucleo_zeri hf hp hc hw
    rw [hw, hconv]
    cases a with
    | intero v =>
      have hcampo := d.ucvt_campo_nat v 16
      rw [hampiezza, hbit] at hcampo
      simp only [argomento, Direttiva.testo, hconv, hsize, hnat, Option.some.injEq] at h
      rw [← h, ← hcampo]
      rfl
    | stringa sp => simp [argomento, Direttiva.testo, hconv] at h

theorem stampa_nucleo {ps : List Pezzo} (hps : ∀ p ∈ ps, p.Nucleo) {k : Nat} {t : List Char}
    {n : Nat} (h : stampa R ps k (parms.map argomento) = some (t, n)) :
    Pitos.vsprintf (formato ps) parms = t := by
  induction ps generalizing parms k t n with
  | nil =>
    have ht : [] = t := congrArg Prod.fst (Option.some.inj h)
    rw [← ht]
    rfl
  | cons p ps ih =>
    have hp := hps p List.mem_cons_self
    have hps' : ∀ p ∈ ps, p.Nucleo := fun p hp => hps p (List.mem_cons_of_mem _ hp)
    rw [formato, List.flatMap_cons]
    cases p with
    | testo l ok =>
      obtain ⟨⟨t', n'⟩, ht', heq⟩ := Option.map_eq_some_iff.mp h
      have hcons : l ++ t' = t := congrArg Prod.fst heq
      rw [← hcons]
      exact (nucleo_testo ok).trans (congrArg _ (ih hps' ht'))
    | percento => exact hp.elim
    | direttiva d =>
      cases parms with
      | nil => cases h
      | cons a parms =>
        rw [stampa, List.map_cons, Pezzo.testi] at h
        cases ht : d.testo R (argomento a) with
        | none =>
          rw [ht] at h
          cases h
        | some u =>
          rw [ht] at h
          obtain ⟨⟨t', n'⟩, ht', heq⟩ := Option.map_eq_some_iff.mp h
          have hcons : u ++ t' = t := congrArg Prod.fst heq
          rw [← hcons]
          exact (nucleo_direttiva hp ht).trans (congrArg _ (ih hps' ht'))

/-- The part of `vsprintf` with which the kernel's texts are modelled prints on its formats what the
whole function prints. -/
theorem vsprintf_nucleo {ps : List Pezzo} (hps : ∀ p ∈ ps, p.Nucleo) {t : List Char} {n : Int}
    (h : vsprintf R (formato ps) (parms.map argomento) = .ok (t, n)) :
    Pitos.vsprintf (formato ps) parms = t := by
  cases hs : stampa R ps 0 (parms.map argomento) with
  | none =>
    rw [vsprintf_manca hs] at h
    cases h
  | some r =>
    rw [vsprintf_stampa hs] at h
    have ht : r.1 = t := congrArg Prod.fst (Except.ok.inj h)
    rw [← ht]
    exact stampa_nucleo hps hs

end Nucleo

end Stdio

end Pitos
