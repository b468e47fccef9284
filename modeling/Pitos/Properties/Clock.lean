import Pitos.Properties.Calendar

/-!
# Milliseconds and the measured frequency

`STAMP_TO_MILLIS` is a fraction of 32 bits, so the product with the cycles since the start has its
integer part in the upper half of 64 bits: the clock is right as long as the product fits
(`millis_esatti`). The frequency is measured over `TESTTICK` periods of the timer; what the
caller makes of a measure that is too fast, too slow or missing is in `misura_valida`.
-/

namespace Pitos

open Lib

namespace Systime

/-! ## The milliseconds -/

variable {rtc : Rtc} {giri n : Nat} {clock : Word} {stamp tick : BitVec 64} {s : Tempo}

theorem stampToMillis_toNat {v : Word} (h : stampToMillis clock = some v) :
    v.toNat = mille.toNat / clock.toNat % 2 ^ 32 := by
  unfold stampToMillis at h
  split at h
  · cases h
  · obtain rfl := Option.some.inj h
    have hclock : (clock.setWidth 64).toNat = clock.toNat :=
      BitVec.toNat_setWidth_of_le (by decide)
    rw [BitVec.toNat_setWidth, BitVec.toNat_udiv, hclock]

theorem getCmosTime_lt {r : BitVec 64} {tm : Tm} (h : getCmosTime rtc giri n = some (r, tm)) :
    r.toNat < 2 ^ 50 := by
  obtain ⟨⟨l, k⟩, _, hr⟩ := Option.bind_eq_some_iff.mp h
  obtain ⟨rfl, _⟩ := Prod.mk.inj (Option.some.inj hr)
  exact mktime_lt _ _ _ _ _ _

/-- What `init_boot_time` leaves in the variables. -/
theorem initBootTime_eq (h : initBootTime clock rtc giri n stamp = some s) :
    s.bootStamp = stamp ∧ s.bootMillis.toNat < 2 ^ 60 ∧
      s.stampToMillis.toNat = mille.toNat / clock.toNat % 2 ^ 32 := by
  obtain ⟨v, hv, h⟩ := Option.bind_eq_some_iff.mp h
  obtain ⟨⟨r, tm⟩, hr, h⟩ := Option.bind_eq_some_iff.mp h
  obtain rfl := Option.some.inj h
  refine ⟨rfl, ?_, stampToMillis_toNat hv⟩
  have hlt := getCmosTime_lt hr
  have h1000 : (1000 : BitVec 64).toNat = 1000 := rfl
  dsimp only
  rw [BitVec.toNat_mul, h1000, Nat.mod_eq_of_lt (by omega)]
  omega

theorem getCurrentMillis_toNat (hb : s.bootMillis.toNat < 2 ^ 60) (h : s.bootStamp ≤ tick) :
    (getCurrentMillis s tick).toNat = s.bootMillis.toNat +
      (tick.toNat - s.bootStamp.toNat) * s.stampToMillis.toNat % 2 ^ 64 / 2 ^ 32 := by
  have hfactor : (s.stampToMillis.setWidth 64).toNat = s.stampToMillis.toNat :=
    BitVec.toNat_setWidth_of_le (by decide)
  have hdiff : (tick - s.bootStamp).toNat = tick.toNat - s.bootStamp.toNat :=
    BitVec.toNat_sub_of_le h
  rw [getCurrentMillis, BitVec.toNat_add, BitVec.toNat_ushiftRight, BitVec.toNat_mul, hdiff,
    hfactor, Nat.shiftRight_eq_div_pow]
  have hlt := Nat.mod_lt ((tick.toNat - s.bootStamp.toNat) * s.stampToMillis.toNat)
    (by decide : 0 < 2 ^ 64)
  omega

/-- The upper half of a product is the quotient as long as the product fits. -/
theorem prodotto_intero {a b : Nat} :
    a * b % 2 ^ 64 / 2 ^ 32 = a * b / 2 ^ 32 ↔ a * b < 2 ^ 64 := by
  have hlt := Nat.mod_lt (a * b) (by decide : 0 < 2 ^ 64)
  omega

/-- The clock never goes back between two readings and shows the product exactly if and only
if the product with the cycles up to the later reading fits in 64 bits. -/
theorem millis_esatti (clock : Word) (rtc : Rtc) (giri n : Nat) (stamp t₁ t₂ : BitVec 64)
    (s : Tempo) (h : initBootTime clock rtc giri n stamp = some s) (h₁ : stamp ≤ t₁) (h₂ : t₁ ≤ t₂) :
    (getCurrentMillis s t₁ ≤ getCurrentMillis s t₂ ∧ ∀ t ∈ [t₁, t₂],
      (getCurrentMillis s t).toNat = s.bootMillis.toNat +
        (t.toNat - stamp.toNat) * s.stampToMillis.toNat / 2 ^ 32) ↔
      (t₂.toNat - stamp.toNat) * (mille.toNat / clock.toNat % 2 ^ 32) < 2 ^ 64 := by
  obtain ⟨rfl, hb, hfactor⟩ := initBootTime_eq h
  rw [← hfactor]
  have h1 := getCurrentMillis_toNat hb h₁
  have h2 := getCurrentMillis_toNat hb (BitVec.le_trans h₁ h₂)
  have hmono : (t₁.toNat - s.bootStamp.toNat) * s.stampToMillis.toNat ≤
      (t₂.toNat - s.bootStamp.toNat) * s.stampToMillis.toNat :=
    Nat.mul_le_mul_right _ (Nat.sub_le_sub_right h₂ _)
  constructor
  · intro hclock
    have hexact := hclock.2 t₂ (by simp)
    rw [h2] at hexact
    exact prodotto_intero.mp (Nat.add_left_cancel hexact)
  · intro hfits
    have hfirst := prodotto_intero.mpr (Nat.lt_of_le_of_lt hmono hfits)
    have hsecond := prodotto_intero.mpr hfits
    rw [hfirst] at h1
    rw [hsecond] at h2
    refine ⟨?_, ?_⟩
    · rw [BitVec.le_def, h1, h2]
      exact Nat.add_le_add_left (Nat.div_le_div_right hmono) _
    · intro t ht
      rcases List.mem_pair.mp ht with rfl | rfl
      · exact h1
      · exact h2

/-- At 1 GHz the clock goes back after 49 days and 17 hours. -/
theorem millis_tornano :
    ((initBootTime 999884840 (orologio marzo2000 mezzanotte) 1 0 0).map fun s =>
      decide (getCurrentMillis s 4296000000000000 < getCurrentMillis s 4294000000000000)) =
        some true := by
  decide +kernel

theorem millis_esatti_ora : ∃ s,
    initBootTime 999884840 (orologio marzo2000 mezzanotte) 1 0 5 = some s ∧
      getCurrentMillis s 7 ≤ getCurrentMillis s 3600000000000 := by
  have hsome : (initBootTime 999884840 (orologio marzo2000 mezzanotte) 1 0 5).isSome = true := by
    decide +kernel
  obtain ⟨s, hs⟩ := Option.isSome_iff_exists.mp hsome
  exact ⟨s, hs, ((millis_esatti _ _ _ _ _ 7 3600000000000 s hs (by decide) (by decide)).mpr
    (by decide)).1⟩

/-! ## The frequency of the processor -/

theorem append_toNat (h l : Word) : (h ++ l).toNat = h.toNat * 2 ^ 32 + l.toNat := by
  rw [BitVec.toNat_append, ← Nat.shiftLeft_add_eq_or_of_lt l.isLt, Nat.shiftLeft_eq]

/-- The two words of the difference of the counts. -/
theorem diff64bit_toNat (el eh sl sh : Word) :
    (diff64bit el eh sl sh).2.toNat * 2 ^ 32 + (diff64bit el eh sl sh).1.toNat =
      ((eh ++ el) - (sh ++ sl)).toNat := by
  rw [BitVec.toNat_sub, append_toNat, append_toNat]
  unfold diff64bit
  by_cases hborrow : el < sl
  · rw [if_pos hborrow]
    bv_omega
  · rw [if_neg hborrow]
    bv_omega

/-- The count is that of the readings up to the first with bit 5 set. -/
theorem conta_eq {porta : Nat → BitVec 8} {giri k i : Nat} {count : Word} (hk : k < giri)
    (hno : ∀ j < k, porta (i + j) &&& 0x20 = 0) (hyes : porta (i + k) &&& 0x20 ≠ 0) :
    conta porta giri i count = some (count + BitVec.ofNat 32 (k + 1)) := by
  induction k generalizing giri i count with
  | zero =>
    obtain ⟨g, rfl⟩ : ∃ g, giri = g + 1 := ⟨giri - 1, by omega⟩
    have hset : porta i &&& 0x20 ≠ 0 := hyes
    rw [conta, if_neg hset]
    rfl
  | succ k ih =>
    obtain ⟨g, rfl⟩ : ∃ g, giri = g + 1 := ⟨giri - 1, by omega⟩
    have hfirst : porta i &&& 0x20 = 0 := hno 0 (by omega)
    have hrest : conta porta g (i + 1) (count + 1) =
        some (count + 1 + BitVec.ofNat 32 (k + 1)) := by
      apply ih (by omega)
      · intro j hj
        have hnext := hno (j + 1) (by omega)
        rwa [Nat.add_comm j 1, ← Nat.add_assoc] at hnext
      · rwa [Nat.add_right_comm, Nat.add_assoc]
    have hsum : count + 1 + BitVec.ofNat 32 (k + 1) = count + BitVec.ofNat 32 (k + 1 + 1) := by
      bv_omega
    rw [conta, if_pos hfirst, hrest, hsum]

/-- The product of the measure, before it is cut to 32 bits. -/
def frequenza (k : Nat) : Nat := k / TESTTICK.toNat * TIMER_CLOCK_PER_SEC.toNat

/-- What is computed from the low word. -/
theorem frequenza_toNat (el : Word) :
    (el / TESTTICK * TIMER_CLOCK_PER_SEC).toNat = frequenza el.toNat % 2 ^ 32 := by
  rw [BitVec.toNat_mul, BitVec.toNat_udiv]
  rfl

/-- A product is never one of the three values that are not a frequency. -/
theorem frequenza_valida (el : Word) : ¬ Errore (el / TESTTICK * TIMER_CLOCK_PER_SEC) := by
  have hval := frequenza_toNat el
  have hfour : frequenza el.toNat % 2 ^ 32 % 4 = 0 := by
    have htick : TIMER_CLOCK_PER_SEC.toNat = 1193180 := rfl
    rw [frequenza, htick]
    omega
  rintro (h | h | h) <;>
  · rw [h] at hval
    simp at hval
    omega

/-- A value `v` measured from the low word `el` that is of use: a documented error or exact, not
0, and if it is an error nobody divides by it. -/
structure Corretta (v el : Word) : Prop where
  valore : Errore v ∨ v.toNat = frequenza el.toNat
  divide : ∃ w, stampToMillis v = some w
  frequenza : Errore v → stampToMillis v ≠ some ((mille / v.setWidth 64).setWidth 32)

/-- An error is divided by like a frequency. -/
theorem errore_usato {v el : Word} (h : Errore v) : ¬ Corretta v el := by
  intro hc
  have hne : v ≠ 0 := by
    rcases h with rfl | rfl | rfl <;> decide
  exact hc.frequenza h (if_neg hne)

theorem frequenza_corretta {el : Word} :
    Corretta (el / TESTTICK * TIMER_CLOCK_PER_SEC) el ↔
      59660 ≤ el.toNat ∧ el.toNat < 3600 * 59660 := by
  have hval := frequenza_toNat el
  have htick : frequenza el.toNat = el.toNat / 59660 * 1193180 := rfl
  constructor
  · intro hc
    have hexact := hc.valore.resolve_left (frequenza_valida el)
    obtain ⟨w, hw⟩ := hc.divide
    have hne : el / TESTTICK * TIMER_CLOCK_PER_SEC ≠ 0 := by
      intro hzero
      rw [hzero] at hw
      cases hw
    have hpos : (el / TESTTICK * TIMER_CLOCK_PER_SEC).toNat ≠ 0 := fun hzero =>
      hne (BitVec.eq_of_toNat_eq hzero)
    have hlt := (el / TESTTICK * TIMER_CLOCK_PER_SEC).isLt
    omega
  · rintro ⟨hle, hlt⟩
    have hsmall : frequenza el.toNat % 2 ^ 32 = frequenza el.toNat := Nat.mod_eq_of_lt (by omega)
    have hne : el / TESTTICK * TIMER_CLOCK_PER_SEC ≠ 0 := by
      intro hzero
      rw [hzero, hsmall, htick] at hval
      have hzero' : (0 : Word).toNat = 0 := rfl
      omega
    exact
      { valore := Or.inr (hval.trans hsmall)
        divide := ⟨_, if_neg hne⟩
        frequenza := fun h => absurd h (frequenza_valida el) }

/-- A measure and what is made of it are right if and only if the readings of port 0x61 were counted
and the cycles are at least `TESTTICK` and fewer than 3600 times that. -/
theorem misura_valida (porta : Nat → BitVec 8) (giri k : Nat) (sl sh el eh : Word) (hk : k < giri)
    (hno : ∀ j < k, porta j &&& 0x20 = 0) (hyes : porta k &&& 0x20 ≠ 0) :
    ∃ v, getCpuClock porta giri sl sh el eh = some v ∧
      (Corretta v (diff64bit el eh sl sh).1 ↔ (k + 1) % 2 ^ 32 ≠ 0 ∧
        59660 ≤ ((eh ++ el) - (sh ++ sl)).toNat ∧
        ((eh ++ el) - (sh ++ sl)).toNat < 3600 * 59660) := by
  have hsum : (0 : Word) + BitVec.ofNat 32 (k + 1) = BitVec.ofNat 32 (k + 1) := BitVec.zero_add _
  have hcount : conta porta giri 0 0 = some (BitVec.ofNat 32 (k + 1)) := by
    rw [← hsum]
    apply conta_eq hk
    · intro j hj
      rw [Nat.zero_add]
      exact hno j hj
    · rwa [Nat.zero_add]
  have hzero : BitVec.ofNat 32 (k + 1) = 0 ↔ (k + 1) % 2 ^ 32 = 0 := by
    rw [← BitVec.toNat_inj, BitVec.toNat_ofNat]
    rfl
  rw [← diff64bit_toNat el eh sl sh]
  simp only [getCpuClock, hcount, Option.bind_eq_bind, Option.bind_some]
  generalize diff64bit el eh sl sh = x
  obtain ⟨lo, hi⟩ := x
  dsimp only
  by_cases hmiss : BitVec.ofNat 32 (k + 1) = 0
  · rw [if_pos hmiss]
    refine ⟨-1, rfl, fun hc => absurd hc (errore_usato (Or.inl rfl)), fun hcond => ?_⟩
    exact absurd (hzero.mp hmiss) hcond.1
  · rw [if_neg hmiss]
    by_cases hfast : hi > 0
    · rw [if_pos hfast]
      have hpos : 0 < hi.toNat := hfast
      refine ⟨-3, rfl, fun hc => absurd hc (errore_usato (Or.inr (Or.inr rfl))), fun hcond => ?_⟩
      omega
    · rw [if_neg hfast]
      have hhi : hi.toNat = 0 := Nat.eq_zero_of_not_pos hfast
      refine ⟨_, rfl, ?_⟩
      rw [frequenza_corretta, hhi, Nat.zero_mul, Nat.zero_add]
      constructor
      · intro hc
        exact ⟨fun hwrap => hmiss (hzero.mpr hwrap), hc⟩
      · intro hcond
        exact hcond.2

/-- A processor of 4.3 GHz is measured as one of 0.5 MHz. -/
theorem misura_troncata : getCpuClock (fun _ => 0x20) 1 0 0 214776000 0 = some 480704 ∧
    frequenza (diff64bit 214776000 0 0 0).1.toNat = 4295448000 ∧ ¬ Errore 480704 := by
  decide

theorem misura_valida_1GHz : ∃ v, getCpuClock (fun _ => 0x20) 1 7 0 50000007 0 = some v ∧
    Corretta v (diff64bit 50000007 0 7 0).1 := by
  obtain ⟨v, hv, hiff⟩ := misura_valida (fun _ => 0x20) 1 0 7 0 50000007 0 (by decide)
    (fun j hj => absurd hj (Nat.not_lt_zero j)) (by decide)
  exact ⟨v, hv, hiff.mpr (by decide)⟩

end Systime

end Pitos
