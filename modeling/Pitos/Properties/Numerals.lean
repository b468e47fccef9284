import Pitos.Kernel.Strings
import Pitos.Lib.Numerals

/-!
# What `itoa` writes

The loop of `itoa` leaves in `tmp` the digits that the library of numerals knows, the least
significant one first, and the copy turns them round: `itoa_letto`.
-/

namespace Pitos

open Lib

namespace Itoa

variable {radix v : Word} {t : Temporaneo} {m : Mem} {sp : Word} {spazio k : Nat}

/-- The characters in `tmp`. -/
def Temporaneo.contenuto (t : Temporaneo) : List (BitVec 8) := (List.range t.tp).map t.tmp

theorem cifra_digit (i : Word) (hi : i.toNat < 36) : cifra i = Numeral.digit i.toNat := by
  have hall : ∀ k < 36, cifra (BitVec.ofNat 32 k) = Numeral.digit k := by decide
  have hsame : BitVec.ofNat 32 i.toNat = i := by simp
  have hdigit := hall i.toNat hi
  rwa [hsame] at hdigit

theorem resto_lt (hr : 2 ≤ radix.toNat) (hr' : radix.toNat ≤ 36) (v : Word) :
    (v % radix).toNat < 36 := by
  have hpos : 0 < radix.toNat := by omega
  rw [BitVec.toNat_umod]
  exact (Nat.mod_lt _ hpos).trans_le hr'

theorem contenuto_scrive (t : Temporaneo) (c : BitVec 8) :
    Temporaneo.contenuto { tmp := Function.update t.tmp t.tp c, tp := t.tp + 1 } =
      t.contenuto ++ [c] := by
  have hbelow : ∀ i ∈ List.range t.tp, Function.update t.tmp t.tp c i = t.tmp i := by
    intro i hi
    have hlt := List.mem_range.mp hi
    exact Function.update_of_ne (Nat.ne_of_lt hlt) _ _
  rw [Temporaneo.contenuto, List.range_succ, List.map_append, List.map_congr_left hbelow]
  simp [Temporaneo.contenuto]

/-! ## The loop -/

/-- One turn. -/
theorem estrai_giro (hgiro : v ≠ 0 ∨ t.tp = 0) : estrai radix (spazio + 1) v t =
    estrai radix spazio (v / radix)
      { tmp := Function.update t.tmp t.tp (cifra (v % radix)), tp := t.tp + 1 } := by
  rw [estrai, if_pos hgiro]

theorem estrai_fine (htp : t.tp ≠ 0) : estrai radix spazio 0 t = some t := by
  have hfine : ¬ ((0 : Word) ≠ 0 ∨ t.tp = 0) := by simp [htp]
  cases spazio <;>
  · rw [estrai]
    exact if_neg hfine

/-- The induction is on the room left in `tmp`, which is enough for the digits of `v`. -/
theorem estrai_digits (hr : 2 ≤ radix.toNat) (hr' : radix.toNat ≤ 36) (htp : t.tp ≠ 0)
    (hv : v.toNat < radix.toNat ^ spazio) : ∃ t', estrai radix spazio v t = some t' ∧
      t'.contenuto = t.contenuto ++ (Nat.digits radix.toNat v.toNat).map Numeral.digit := by
  induction spazio generalizing v t with
  | zero =>
    have hzero : v = 0 := by
      apply BitVec.eq_of_toNat_eq
      simpa using hv
    refine ⟨t, ?_, ?_⟩
    · rw [hzero]
      exact estrai_fine htp
    · simp [hzero]
  | succ n ih =>
    by_cases hzero : v = 0
    · refine ⟨t, ?_, ?_⟩
      · rw [hzero]
        exact estrai_fine htp
      · simp [hzero]
    · have hpos : 0 < v.toNat := by
        apply Nat.pos_of_ne_zero
        intro h
        exact hzero (BitVec.eq_of_toNat_eq h)
      have hdiv : (v / radix).toNat < radix.toNat ^ n := by
        rw [BitVec.toNat_udiv]
        apply Nat.div_lt_of_lt_mul
        rwa [← Nat.pow_succ']
      have hmod := resto_lt hr hr' v
      obtain ⟨t', hrun, hcont⟩ := ih (v := v / radix)
        (t := { tmp := Function.update t.tmp t.tp (cifra (v % radix)), tp := t.tp + 1 })
        (Nat.succ_ne_zero _) hdiv
      refine ⟨t', ?_, ?_⟩
      · rw [estrai_giro (Or.inl hzero)]
        exact hrun
      · rw [hcont, contenuto_scrive, cifra_digit _ hmod, Nat.digits_def' hr hpos, List.map_cons,
          BitVec.toNat_umod, BitVec.toNat_udiv, List.append_assoc]
        rfl

/-- From an empty `tmp`: a first digit is always written. -/
theorem estrai_numeral (hr : 2 ≤ radix.toNat) (hr' : radix.toNat ≤ 36) (v : Word)
    (iniziale : Nat → BitVec 8) :
    ∃ t', estrai radix TMP v { tmp := iniziale, tp := 0 } = some t' ∧
      t'.contenuto.reverse = Numeral.numeral radix.toNat v.toNat := by
  have hmod := resto_lt hr hr' v
  have hpow : 2 ^ 32 ≤ radix.toNat ^ 32 := Nat.pow_le_pow_left hr 32
  have hdiv : (v / radix).toNat < radix.toNat ^ 32 := by
    rw [BitVec.toNat_udiv]
    exact Nat.lt_of_le_of_lt (Nat.div_le_self _ _) (Nat.lt_of_lt_of_le v.isLt hpow)
  obtain ⟨t', hrun, hcont⟩ := estrai_digits (v := v / radix)
    (t := { tmp := Function.update iniziale 0 (cifra (v % radix)), tp := 0 + 1 }) hr hr'
    (Nat.succ_ne_zero _) hdiv
  refine ⟨t', ?_, ?_⟩
  · rw [TMP, estrai_giro (Or.inr rfl)]
    exact hrun
  · have hempty : Temporaneo.contenuto { tmp := iniziale, tp := 0 } = [] := rfl
    rw [contenuto_scrive { tmp := iniziale, tp := 0 }, hempty, cifra_digit _ hmod,
      BitVec.toNat_umod, BitVec.toNat_udiv] at hcont
    rw [hcont, Numeral.numeral]
    split
    · rename_i hzero
      simp [hzero]
    · rename_i hne
      rw [Nat.digits_def' hr (Nat.pos_of_ne_zero hne)]
      rfl

/-! ## The copy -/

/-- The characters are written in the opposite order. -/
theorem rovescia_writeBytes (tmp : Nat → BitVec 8) (n : Nat) (m : Mem) (sp : Word) :
    rovescia tmp n m sp =
      (m.writeBytes sp ((List.range n).map tmp).reverse, sp + BitVec.ofNat 32 n) := by
  induction n generalizing m sp with
  | zero => simp [rovescia, Mem.writeBytes]
  | succ n ih =>
    have hsp : sp + 1 + BitVec.ofNat 32 n = sp + BitVec.ofNat 32 (n + 1) := by bv_omega
    rw [rovescia, ih, hsp, List.range_succ, List.map_append, List.reverse_append]
    rfl

/-! ## The string -/

/-- What a string made of `value` is to be. -/
structure Numerale (radix value : Word) (l : List (BitVec 8)) : Prop where
  valore : Numeral.readInt radix.toNat l =
    some (if radix = 10 then value.toInt else (value.toNat : Int))
  canonico : Numeral.Canonical l
  cifre : (Numeral.unsigned l).length ≤ TMP

/-- The characters that are written before the `NUL`. -/
def testo (radix value : Word) : List (BitVec 8) :=
  if radix = 10 ∧ value.slt 0 then Numeral.minus :: Numeral.numeral radix.toNat (-value).toNat
  else Numeral.numeral radix.toNat value.toNat

/-- The negation is exact, at `INT_MIN` too. -/
theorem neg_toNat {value : Word} (hneg : value.slt 0) :
    (-value).toNat ≠ 0 ∧ value.toInt = -((-value).toNat : Int) := by
  have hlt : value.toInt < 0 := by simpa [BitVec.slt] using hneg
  have hint := BitVec.toInt_eq_toNat_cond value
  have hnat := BitVec.toNat_neg value
  omega

theorem testo_length (hr : 2 ≤ radix.toNat) (value : Word) : (testo radix value).length ≤ TMP := by
  have hpow : 2 ^ 32 ≤ radix.toNat ^ 32 := Nat.pow_le_pow_left hr 32
  have hlen : ∀ v : Word, (Numeral.numeral radix.toNat v.toNat).length ≤ 32 := by
    intro v
    exact Numeral.length_numeral_le hr (Nat.lt_of_lt_of_le v.isLt hpow) (by decide)
  unfold testo
  split
  · exact Nat.succ_le_succ (hlen _)
  · exact (hlen _).trans (by decide)

theorem testo_valore (hr : 2 ≤ radix.toNat) (hr' : radix.toNat ≤ 36) (value : Word) :
    Numeral.readInt radix.toNat (testo radix value) =
      some (if radix = 10 then value.toInt else (value.toNat : Int)) := by
  unfold testo
  split
  · rename_i hneg
    obtain ⟨hradix, hneg⟩ := hneg
    obtain ⟨_, hint⟩ := neg_toNat hneg
    rw [Numeral.readInt_minus hr hr', if_pos hradix, hint]
  · rename_i hpos
    rw [Numeral.readInt_numeral hr hr']
    split
    · rename_i hradix
      have hge : ¬ value.toInt < 0 := by
        intro hlt
        apply hpos
        exact ⟨hradix, by simpa [BitVec.slt] using hlt⟩
      have hint := BitVec.toInt_eq_toNat_cond value
      congr 1
      omega
    · rfl

theorem testo_canonico (hr : 2 ≤ radix.toNat) (hr' : radix.toNat ≤ 36) (value : Word) :
    Numeral.Canonical (testo radix value) := by
  unfold testo
  split
  · rename_i hneg
    exact Numeral.canonical_minus hr hr' (neg_toNat hneg.2).1
  · exact Numeral.canonical_numeral hr hr'

theorem numerale_testo (hr : 2 ≤ radix.toNat) (hr' : radix.toNat ≤ 36) (value : Word) :
    Numerale radix value (testo radix value) where
  valore := testo_valore hr hr' value
  canonico := testo_canonico hr hr' value
  cifre := (Numeral.length_unsigned_le _).trans (testo_length hr value)

theorem Numerale.unico {value value' : Word} {l : List (BitVec 8)} (h : Numerale radix value l)
    (h' : Numerale radix value' l) : value = value' := by
  have hsame := Option.some.inj (h.valore.symm.trans h'.valore)
  split at hsame
  · exact BitVec.eq_of_toInt_eq hsame
  · exact BitVec.eq_of_toNat_eq (Int.ofNat.inj hsame)

theorem testo_nul (hr : 2 ≤ radix.toNat) (hr' : radix.toNat ≤ 36) (value : Word) :
    0 ∉ testo radix value := by
  have hnum : ∀ v : Word, 0 ∉ Numeral.numeral radix.toNat v.toNat := by
    intro v h
    obtain ⟨k, hk, hzero⟩ := Numeral.mem_numeral hr hr' h
    exact Numeral.digit_ne_nul k hk hzero.symm
  unfold testo
  split
  · intro h
    rcases List.mem_cons.mp h with h | h
    · exact absurd h (by decide)
    · exact hnum _ h
  · exact hnum _

theorem radix_valida (hr : 2 ≤ radix.toNat) (hr' : radix.toNat ≤ 36) :
    ¬ ((36 : Word).slt radix ∨ radix.sle 1) := by
  have hint := BitVec.toInt_eq_toNat_cond radix
  have h36 : (36 : Word).toInt = 36 := rfl
  have h1 : (1 : Word).toInt = 1 := rfl
  simp only [BitVec.slt, BitVec.sle, decide_eq_true_eq, h36, h1]
  omega

/-- The characters of `tmp` and the `NUL`, whatever the sign. -/
theorem rovescia_nul (t : Temporaneo) (m : Mem) (sp : Word) :
    (rovescia t.tmp t.tp m sp).1.write8 (rovescia t.tmp t.tp m sp).2 0 =
      m.writeBytes sp (t.contenuto.reverse ++ [0]) := by
  have hlen : t.contenuto.reverse.length = t.tp := by simp [Temporaneo.contenuto]
  rw [rovescia_writeBytes, Mem.writeBytes_append, hlen]
  rfl

/-- The digits fit, and the call writes the text and its `NUL`, or nothing at address 0. -/
theorem itoa_eq (hr : 2 ≤ radix.toNat) (hr' : radix.toNat ≤ 36) (iniziale : Nat → BitVec 8)
    (value string : Word) (m : Mem) : itoa iniziale value string radix m =
      some (if string = 0 then (0, m)
        else (string, m.writeBytes string (testo radix value ++ [0]))) := by
  rw [itoa, if_neg (radix_valida hr hr'), testo]
  by_cases hneg : radix = 10 ∧ value.slt 0
  · obtain ⟨t, hrun, hcont⟩ := estrai_numeral hr hr' (-value) iniziale
    obtain ⟨rfl, hsign⟩ := hneg
    simp only [hsign, and_self, if_true]
    rw [hrun, Option.map_some, rovescia_nul, hcont]
    rfl
  · obtain ⟨t, hrun, hcont⟩ := estrai_numeral hr hr' value iniziale
    simp only [hneg, if_false]
    rw [hrun, Option.map_some, rovescia_nul, hcont]

theorem isString_testo (hr : 2 ≤ radix.toNat) (hr' : radix.toNat ≤ 36) (value string : Word)
    (m : Mem) : (m.writeBytes string (testo radix value ++ [0])).IsString string
      (testo radix value) := by
  have hlen := testo_length hr value
  apply Mem.isString_writeBytes
  · rw [List.length_append]
    exact (Nat.add_le_add_right hlen _).trans (by decide)
  · exact testo_nul hr hr' value

end Itoa

open Itoa in
/-- For every value and every radix from 2 to 36 the digits fit in `tmp`, and the string at a
`string` that is not null reads back as the value, signed in radix 10 and unsigned otherwise, without
a leading zero; no other value makes the same string in that radix. -/
theorem itoa_letto (iniziale : Nat → BitVec 8) (value string radix : Word) (m : Mem)
    (hr : 2 ≤ radix.toInt ∧ radix.toInt ≤ 36) :
    ∃ r m', itoa iniziale value string radix m = some (r, m') ∧
      (string ≠ 0 → r = string ∧ ∃ l, m'.IsString string l ∧ Numerale radix value l ∧
        ∀ (iniziale' : Nat → BitVec 8) (value' string' r' : Word) (m₀ m₁ : Mem), string' ≠ 0 →
          itoa iniziale' value' string' radix m₀ = some (r', m₁) → m₁.IsString string' l →
            value' = value) := by
  have hint := BitVec.toInt_eq_toNat_cond radix
  have hlt := radix.isLt
  have hlow : 2 ≤ radix.toNat := by omega
  have hhigh : radix.toNat ≤ 36 := by omega
  have hcall := itoa_eq hlow hhigh iniziale value string m
  by_cases hs : string = 0
  · rw [if_pos hs] at hcall
    exact ⟨_, _, hcall, fun hne => absurd hs hne⟩
  · rw [if_neg hs] at hcall
    have hnum := numerale_testo hlow hhigh value
    have htext := isString_testo hlow hhigh value string m
    refine ⟨_, _, hcall, fun _ => ⟨rfl, testo radix value, htext, hnum, ?_⟩⟩
    intro iniziale' value' string' r' m₀ m₁ hs' hcall' htext'
    rw [itoa_eq hlow hhigh, if_neg hs'] at hcall'
    obtain ⟨_, rfl⟩ := Prod.mk.inj (Option.some.inj hcall')
    have hnum' := numerale_testo hlow hhigh value'
    rw [← htext'.unique (isString_testo hlow hhigh value' string' m₀)] at hnum'
    exact hnum'.unico hnum

/-- `INT_MIN` in radix 10. -/
theorem itoa_letto_minimo : ∃ m' l, itoa (fun _ => 0) 0x80000000 0x200000 10 (fun _ => 0) =
    some (0x200000, m') ∧ m'.IsString 0x200000 l ∧
      Numeral.readInt 10 l = some (-2147483648) := by
  obtain ⟨r, m', hrun, hstring⟩ := itoa_letto (fun _ => 0) 0x80000000 0x200000 10 (fun _ => 0)
    (by decide)
  obtain ⟨rfl, l, htext, hnum, _⟩ := hstring (by decide)
  exact ⟨m', l, hrun, htext, hnum.valore⟩

end Pitos
