import Pitos.Kernel.Systime
import Pitos.Lib.Calendar

/-!
# Dates and seconds

`mktime` counts the days from the first of March of the year 0, as whole years of 365 days, their
leap days and twelfths of 367 days (`giorni_rank`). What it takes away, the days up to 1970, is
taken away in 32 bits from the whole years alone: before March 1972 these are too few, and the
result is 2 ^ 32 days too large. `get_cmos_time` passes it the years from 1900, for which they are
always too few.
-/

namespace Pitos

open Lib

namespace Systime

/-! ## What `mktime` computes -/

/-- The sum that is made in 32 bits. -/
theorem somma {y m d : Word} (hy : y.toNat ≤ 9999) (hm : m.toNat ≤ 12) (hd : d.toNat ≤ 31) :
    (y / 4 - y / 100 + y / 400 + 367 * m / 12 + d).toNat =
      y.toNat / 4 - y.toNat / 100 + y.toNat / 400 + 367 * m.toNat / 12 + d.toNat := by
  have h4 : (y / 4).toNat = y.toNat / 4 := BitVec.toNat_udiv
  have h100 : (y / 100).toNat = y.toNat / 100 := BitVec.toNat_udiv
  have h400 : (y / 400).toNat = y.toNat / 400 := BitVec.toNat_udiv
  have h12 : (367 * m / 12).toNat = (367 * m).toNat / 12 := BitVec.toNat_udiv
  have hprod : (367 * m).toNat = 367 * m.toNat := by bv_omega
  rw [hprod] at h12
  have ha : (y / 4).toNat ≤ 9999 := by omega
  have hba : (y / 100).toNat ≤ (y / 4).toNat := by
    rw [h4, h100]
    exact Nat.div_le_div_left (by decide) (by decide)
  have hc : (y / 400).toNat ≤ 9999 := by omega
  have he : (367 * m / 12).toNat ≤ 367 := by omega
  have hsub : (y / 4 - y / 100).toNat = (y / 4).toNat - (y / 100).toNat :=
    BitVec.toNat_sub_of_le hba
  rw [BitVec.toNat_add, BitVec.toNat_add, BitVec.toNat_add, hsub, ← h4, ← h100, ← h400, ← h12]
  clear h4 h100 h400 h12
  omega

/-- `r *= k; r += v;` -/
theorem accumula {r k : BitVec 64} {v : Word} (h : r.toNat * k.toNat + v.toNat < 2 ^ 64) :
    (r * k + v.setWidth 64).toNat = r.toNat * k.toNat + v.toNat := by
  have hv : (v.setWidth 64).toNat = v.toNat := BitVec.toNat_setWidth_of_le (by decide)
  rw [BitVec.toNat_add, BitVec.toNat_mul, hv, Nat.mod_eq_of_lt (a := r.toNat * k.toNat) (by omega),
    Nat.mod_eq_of_lt h]

/-- The hours, minutes and seconds never leave the 64 bits. -/
theorem ore_toNat (a b hour min sec : Word) :
    ((((a.setWidth 64 + b.setWidth 64) * 24 + hour.setWidth 64) * 60 + min.setWidth 64) * 60 +
      sec.setWidth 64 : BitVec 64).toNat =
      (((a.toNat + b.toNat) * 24 + hour.toNat) * 60 + min.toNat) * 60 + sec.toNat := by
  have ha : (a.setWidth 64).toNat = a.toNat := BitVec.toNat_setWidth_of_le (by decide)
  have hb : (b.setWidth 64).toNat = b.toNat := BitVec.toNat_setWidth_of_le (by decide)
  have hdays : (a.setWidth 64 + b.setWidth 64 : BitVec 64).toNat = a.toNat + b.toNat := by
    rw [BitVec.toNat_add, ha, hb]
    omega
  have h24 : (24 : BitVec 64).toNat = 24 := rfl
  have h60 : (60 : BitVec 64).toNat = 60 := rfl
  have hhours := accumula (r := a.setWidth 64 + b.setWidth 64) (k := 24) (v := hour)
    (by rw [hdays, h24]; omega)
  rw [hdays, h24] at hhours
  have hminutes := accumula (r := (a.setWidth 64 + b.setWidth 64) * 24 + hour.setWidth 64)
    (k := 60) (v := min) (by rw [hhours, h60]; omega)
  rw [hhours, h60] at hminutes
  rw [accumula (by rw [hminutes, h60]; omega), hminutes, h60]

theorem mktime_lt (year mon day hour min sec : Word) :
    (mktime year mon day hour min sec).toNat < 2 ^ 50 := by
  unfold mktime
  generalize (if (mon - 2).sle 0 then (mon - 2 + 12, year - 1) else (mon - 2, year)) = p
  obtain ⟨m, y⟩ := p
  dsimp only
  rw [ore_toNat]
  omega

/-- The first of March begins the year. -/
def annoMarzo (y m : Nat) : Nat := if m ≤ 2 then y - 1 else y

def meseMarzo (m : Nat) : Nat := if m ≤ 2 then m + 10 else m - 2

theorem sposta {y m : Nat} (hy : 1 ≤ y) (hm : 1 ≤ m) (hm' : m ≤ 12) :
    (if (BitVec.ofNat 32 m - 2).sle 0 then
      (BitVec.ofNat 32 m - 2 + 12, BitVec.ofNat 32 y - 1)
      else (BitVec.ofNat 32 m - 2, BitVec.ofNat 32 y)) =
      (BitVec.ofNat 32 (meseMarzo m), BitVec.ofNat 32 (annoMarzo y m)) := by
  have hpred : BitVec.ofNat 32 y - 1 = BitVec.ofNat 32 (y - 1) := by
    obtain ⟨k, rfl⟩ : ∃ k, y = k + 1 := ⟨y - 1, by omega⟩
    rw [BitVec.ofNat_add, Nat.add_sub_cancel]
    exact BitVec.add_sub_cancel _ _
  rw [hpred]
  unfold annoMarzo meseMarzo
  interval_cases m <;> rfl

/-- What `mktime` counts before it multiplies by the hours. -/
def giorni (y m d : Nat) : Nat :=
  y / 4 - y / 100 + y / 400 + 367 * m / 12 + d + (365 * y + 2 ^ 32 - 719499) % 2 ^ 32

theorem mktime_toNat {y m d : Nat} (t : TimeOfDay) (hy : 1 ≤ y) (hy' : y ≤ 9999) (hm : 1 ≤ m)
    (hm' : m ≤ 12) (hd : d ≤ 31) :
    (mktime (BitVec.ofNat 32 y) (BitVec.ofNat 32 m) (BitVec.ofNat 32 d) (BitVec.ofNat 32 t.hour)
      (BitVec.ofNat 32 t.minute) (BitVec.ofNat 32 t.second)).toNat =
      giorni (annoMarzo y m) (meseMarzo m) d * 86400 + t.seconds := by
  obtain ⟨y', hyy⟩ : ∃ y', y' = annoMarzo y m := ⟨_, rfl⟩
  obtain ⟨m', hmm⟩ : ∃ m', m' = meseMarzo m := ⟨_, rfl⟩
  have hy'' : y' ≤ 9999 := by
    rw [hyy, annoMarzo]
    split <;> omega
  have hm'' : m' ≤ 12 := by
    rw [hmm, meseMarzo]
    split <;> omega
  have hback : ∀ {n : Nat}, n < 2 ^ 32 → (BitVec.ofNat 32 n).toNat = n := fun hn => by
    rw [BitVec.toNat_ofNat, Nat.mod_eq_of_lt hn]
  have hsum := somma (y := BitVec.ofNat 32 y') (m := BitVec.ofNat 32 m') (d := BitVec.ofNat 32 d)
    (by rw [hback] <;> omega) (by rw [hback] <;> omega) (by rw [hback] <;> omega)
  rw [hback (by omega : y' < 2 ^ 32), hback (by omega : m' < 2 ^ 32),
    hback (by omega : d < 2 ^ 32)] at hsum
  simp only [mktime, sposta hy hm hm', ← hyy, ← hmm]
  have hprod : (BitVec.ofNat 32 y' * 365 - 719499 : Word).toNat =
      (365 * y' + 2 ^ 32 - 719499) % 2 ^ 32 := by
    bv_omega
  have h1 := t.hour_lt
  have h2 := t.minute_lt
  have h3 := t.second_lt
  rw [ore_toNat, hsum, hprod, hback (by omega : t.hour < 2 ^ 32),
    hback (by omega : t.minute < 2 ^ 32), hback (by omega : t.second < 2 ^ 32), giorni,
    TimeOfDay.seconds]
  omega

/-! ## The days of the calendar -/

/-- The leap days of the years before `y` and of `y` itself. -/
theorem bisestili (y : Nat) :
    (y + 3) / 4 + (y + 399) / 400 + y / 100 + (if IsLeap y then 1 else 0) =
      y / 4 + y / 400 + (y + 99) / 100 + 1 := by
  have h4 : (y + 3) / 4 + (if y % 4 = 0 then 1 else 0) = y / 4 + 1 := by
    split <;> omega
  have h100 : (y + 99) / 100 + (if y % 100 = 0 then 1 else 0) = y / 100 + 1 := by
    split <;> omega
  have h400 : (y + 399) / 400 + (if y % 400 = 0 then 1 else 0) = y / 400 + 1 := by
    split <;> omega
  have hleap : (if IsLeap y then 1 else 0) + (if y % 100 = 0 then 1 else 0) =
      (if y % 4 = 0 then 1 else 0) + if y % 400 = 0 then 1 else 0 := by
    unfold IsLeap
    by_cases hy4 : y % 4 = 0 <;> by_cases hy100 : y % 100 = 0 <;>
      by_cases hy400 : y % 400 = 0 <;> simp [hy4, hy100, hy400] <;> omega
  omega

/-- January and February come at the end of the year before. -/
theorem gennaio {y m b l : Nat} (hy : 1 ≤ y) (hm : 1 ≤ m)
    (hyear : b + (y + 99) / 100 = 365 * y + (y + 3) / 4 + (y + 399) / 400)
    (hmonth : l + 0 = (367 * m - 362) / 12) :
    (y - 1) / 4 - (y - 1) / 100 + (y - 1) / 400 + 367 * (m + 10) / 12 + 365 * (y - 1) + 30 =
      b + l := by
  obtain ⟨k, rfl⟩ : ∃ k, y = k + 1 := ⟨y - 1, by omega⟩
  have htwelfths : 367 * (m + 10) / 12 = (367 * m - 362) / 12 + 336 := by omega
  rw [Nat.add_sub_cancel]
  omega

theorem dodicesimi {m : Nat} (hm : 3 ≤ m) :
    (367 * m - 362) / 12 = 367 * (m - 2) / 12 + 31 := by
  omega

theorem marzo {y m b l c : Nat} (hm : 3 ≤ m)
    (hyear : b + (y + 99) / 100 = 365 * y + (y + 3) / 4 + (y + 399) / 400)
    (hleap : (y + 3) / 4 + (y + 399) / 400 + y / 100 + c = y / 4 + y / 400 + (y + 99) / 100 + 1)
    (hmonth : l + (2 - c) = (367 * m - 362) / 12) (hc : c ≤ 1) :
    y / 4 - y / 100 + y / 400 + 367 * (m - 2) / 12 + 365 * y + 30 = b + l := by
  have hcenturies : y / 100 ≤ y / 4 := Nat.div_le_div_left (by decide) (by decide)
  rw [dodicesimi hm] at hmonth
  -- only sums of the quotients are left
  generalize (y + 3) / 4 = i, (y + 399) / 400 = j, (y + 99) / 100 = k', y / 4 = a, y / 100 = e,
    y / 400 = f, 367 * (m - 2) / 12 = g at *
  omega

/-- The days of a date, in years that begin in March. -/
theorem rank_marzo (d : Date) (h : 1 ≤ d.year) :
    annoMarzo d.year d.month / 4 - annoMarzo d.year d.month / 100 +
      annoMarzo d.year d.month / 400 + 367 * meseMarzo d.month / 12 + d.day +
      365 * annoMarzo d.year d.month + 29 = d.rank := by
  have hyear := Date.daysBeforeYear_eq d.year
  have hle := d.month_le
  have hpos := d.month_pos
  have hday := d.day_pos
  have hmonth := Date.daysBeforeMonth_eq (y := d.year) hpos (by omega)
  unfold Date.rank annoMarzo meseMarzo
  by_cases hm : d.month ≤ 2
  · rw [if_pos hm] at hmonth ⊢
    rw [if_pos hm]
    have hsum := gennaio h hpos hyear hmonth
    omega
  · rw [if_neg hm] at hmonth ⊢
    rw [if_neg hm]
    have hleap := bisestili d.year
    have hsum := marzo (by omega : 3 ≤ d.month) hyear hleap
      (by rw [← hmonth]; split <;> rfl) (by split <;> decide)
    clear hyear hmonth hleap
    omega

/-- `mktime` of a date and a time of day. -/
def mktimeDate (d : Date) (t : TimeOfDay) : BitVec 64 :=
  mktime (BitVec.ofNat 32 d.year) (BitVec.ofNat 32 d.month) (BitVec.ofNat 32 d.day)
    (BitVec.ofNat 32 t.hour) (BitVec.ofNat 32 t.minute) (BitVec.ofNat 32 t.second)

/-- The date is not before March 1972. -/
def DaMarzo1972 (d : Date) : Prop := 1973 ≤ d.year ∨ d.year = 1972 ∧ 3 ≤ d.month

instance (d : Date) : Decidable (DaMarzo1972 d) := inferInstanceAs (Decidable (_ ∨ _))

/-- `mktime` counts the seconds from 1970 exactly for the dates from March 1972 on. -/
theorem mktime_conta (d : Date) (t : TimeOfDay) (h : 1970 ≤ d.year) (h' : d.year ≤ 9999) :
    (mktimeDate d t).toNat = unixTime d t ↔ DaMarzo1972 d := by
  have hday : d.day ≤ 31 := d.day_le.trans (daysInMonth_le _ _)
  have hval := mktime_toNat (d := d.day) t (by omega : 1 ≤ d.year) h' d.month_pos d.month_le hday
  have hrank := rank_marzo d (by omega)
  have hle := Date.rank_epoch_le h
  rw [Date.rank_epoch] at hle
  rw [mktimeDate, hval, unixTime, Date.rank_epoch, giorni]
  have hmarzo : DaMarzo1972 d ↔ 1972 ≤ annoMarzo d.year d.month := by
    have hpos := d.month_pos
    unfold DaMarzo1972 annoMarzo
    split <;> omega
  have hanno : 1969 ≤ annoMarzo d.year d.month ∧ annoMarzo d.year d.month ≤ 9999 := by
    unfold annoMarzo
    split <;> omega
  rw [hmarzo]
  generalize annoMarzo d.year d.month = y, meseMarzo d.month = m at *
  generalize y / 4 - y / 100 + y / 400 + 367 * m / 12 + d.day = k at *
  constructor
  · intro heq
    by_contra hlt
    have hwrap : (365 * y + 2 ^ 32 - 719499) % 2 ^ 32 = 365 * y + 2 ^ 32 - 719499 :=
      Nat.mod_eq_of_lt (by omega)
    rw [hwrap] at heq
    omega
  · intro hge
    have hwrap : (365 * y + 2 ^ 32 - 719499) % 2 ^ 32 = 365 * y - 719499 := by omega
    rw [hwrap]
    omega

/-- The first instant of 1970. -/
def mezzanotte : TimeOfDay :=
  { hour := 0, minute := 0, second := 0, hour_lt := by decide, minute_lt := by decide,
    second_lt := by decide }

/-- The seconds of the first instant itself come out as 2 ^ 32 days. -/
theorem mktime_epoca :
    (mktimeDate Date.epoch mezzanotte).toNat ≠ unixTime Date.epoch mezzanotte := by
  have hzero : unixTime Date.epoch mezzanotte = 0 := by
    rw [unixTime, Nat.sub_self]
    rfl
  have hval : (mktimeDate Date.epoch mezzanotte).toNat = 2 ^ 32 * 86400 := by decide
  rw [hzero, hval]
  decide

/-- The first of March 2000. -/
def marzo2000 : Date := Date.first 2000 3 (by decide) (by decide)

theorem mktime_conta_2000 :
    (mktimeDate marzo2000 mezzanotte).toNat = unixTime marzo2000 mezzanotte :=
  (mktime_conta marzo2000 mezzanotte (by decide) (by decide)).mpr (by decide)

/-! ## The clock chip -/

/-- Two decimal digits in a register. -/
def bcd (k : Nat) : BitVec 8 := BitVec.ofNat 8 (16 * (k / 10) + k % 10)

theorem bcdToBin_bcd : ∀ k < 100, bcdToBin ((bcd k).setWidth 32) = BitVec.ofNat 32 k := by
  decide

/-- The registers hold the time, the date and the year without its century in BCD. -/
structure Segna (rtc : Rtc) (d : Date) (t : TimeOfDay) : Prop where
  sec : ∀ n, rtc n RTC_SECONDS = bcd t.second
  min : ∀ n, rtc n RTC_MINUTES = bcd t.minute
  hour : ∀ n, rtc n RTC_HOURS = bcd t.hour
  day : ∀ n, rtc n RTC_DAY_OF_MONTH = bcd d.day
  mon : ∀ n, rtc n RTC_MONTH = bcd d.month
  year : ∀ n, rtc n RTC_YEAR = bcd (d.year % 100)

variable {rtc : Rtc} {d : Date} {t : TimeOfDay} {giri n : Nat}

theorem Segna.decodifica (h : Segna rtc d t) : (lettura rtc n).bcdToBin =
    { sec := BitVec.ofNat 32 t.second, min := BitVec.ofNat 32 t.minute,
      hour := BitVec.ofNat 32 t.hour, day := BitVec.ofNat 32 d.day,
      mon := BitVec.ofNat 32 d.month, year := BitVec.ofNat 32 (d.year % 100) } := by
  have h1 := t.hour_lt
  have h2 := t.minute_lt
  have h3 := t.second_lt
  have h4 := d.month_le
  have h5 := d.day_le.trans (daysInMonth_le _ _)
  simp only [Lettura.bcdToBin, lettura, h.sec, h.min, h.hour, h.day, h.mon, h.year]
  rw [bcdToBin_bcd _ (by omega), bcdToBin_bcd _ (by omega), bcdToBin_bcd _ (by omega),
    bcdToBin_bcd _ (by omega), bcdToBin_bcd _ (by omega), bcdToBin_bcd _ (by omega)]

theorem Segna.leggi (h : Segna rtc d t) :
    leggi rtc (giri + 1) n = some (lettura rtc n, n + 7) := by
  have hsame : (lettura rtc n).sec = (rtc (n + 6) RTC_SECONDS).setWidth 32 := by
    rw [lettura, h.sec, h.sec]
  rw [Systime.leggi]
  exact if_neg (not_not_intro hsame)

/-- The century: years below 70 are those after 2000. -/
theorem anno_da_1900 {y : Nat} (hy : 1970 ≤ y) (hy' : y ≤ 2069) :
    (if BitVec.ofNat 32 (y % 100) < 70 then BitVec.ofNat 32 (y % 100) + 100
      else BitVec.ofNat 32 (y % 100)) = BitVec.ofNat 32 (y - 1900) := by
  have hlt : BitVec.ofNat 32 (y % 100) < 70 ↔ y % 100 < 70 := by
    rw [BitVec.lt_def, BitVec.toNat_ofNat, Nat.mod_eq_of_lt (by omega)]
    rfl
  split
  · rename_i h70
    rw [hlt] at h70
    have hy1900 : y - 1900 = y % 100 + 100 := by omega
    rw [hy1900, BitVec.ofNat_add]
    rfl
  · rename_i h70
    rw [hlt] at h70
    have hy1900 : y - 1900 = y % 100 := by omega
    rw [hy1900]

/-- What is passed as `year`: the years from 1900. -/
theorem Segna.getCmosTime (h : Segna rtc d t) (hy : 1970 ≤ d.year) (hy' : d.year ≤ 2069) :
    (getCmosTime rtc (giri + 1) n).map Prod.fst =
      some (mktime (BitVec.ofNat 32 (d.year - 1900)) (BitVec.ofNat 32 d.month)
        (BitVec.ofNat 32 d.day) (BitVec.ofNat 32 t.hour) (BitVec.ofNat 32 t.minute)
        (BitVec.ofNat 32 t.second)) := by
  rw [← anno_da_1900 hy hy']
  simp only [Systime.getCmosTime, h.leggi, Option.bind_eq_bind, Option.bind_some]
  rw [if_pos (Or.inr (by decide)), h.decodifica]
  rfl

/-- Counted from 1900 the days up to 1970 are always too many to be taken away. -/
theorem giorni_da_1900 {y m d : Nat} (h : 69 ≤ y) (h' : y ≤ 169) :
    2 ^ 32 - 719499 ≤ giorni y m d := by
  have hwrap : (365 * y + 2 ^ 32 - 719499) % 2 ^ 32 = 365 * y + 2 ^ 32 - 719499 :=
    Nat.mod_eq_of_lt (by omega)
  rw [giorni, hwrap]
  omega

/-- The days of a century are few. -/
theorem rank_le (h : 1 ≤ d.year) (h' : d.year ≤ 2069) : d.rank < 2 ^ 20 := by
  have hrank := rank_marzo d h
  have hday := d.day_le.trans (daysInMonth_le _ _)
  have hm := d.month_le
  have hanno : annoMarzo d.year d.month ≤ 2069 := by
    unfold annoMarzo
    split <;> omega
  have hmese : meseMarzo d.month ≤ 12 := by
    unfold meseMarzo
    split <;> omega
  omega

/-- `get_cmos_time` gives the seconds from 1970 for no date at all. -/
theorem cmos_mai (rtc : Rtc) (d : Date) (t : TimeOfDay) (giri n : Nat) (h : Segna rtc d t)
    (hy : 1970 ≤ d.year) (hy' : d.year ≤ 2069) :
    ∃ r tm, getCmosTime rtc (giri + 1) n = some (r, tm) ∧ r.toNat ≠ unixTime d t := by
  obtain ⟨⟨r, tm⟩, hr, hfst⟩ :=
    Option.map_eq_some_iff.mp (h.getCmosTime hy hy')
  refine ⟨r, tm, hr, ?_⟩
  have hday := d.day_le.trans (daysInMonth_le _ _)
  have hval := mktime_toNat (y := d.year - 1900) t (by omega) (by omega) d.month_pos d.month_le hday
  have hanno : 69 ≤ annoMarzo (d.year - 1900) d.month ∧
      annoMarzo (d.year - 1900) d.month ≤ 169 := by
    unfold annoMarzo
    split <;> omega
  have hmany := giorni_da_1900 (m := meseMarzo d.month) (d := d.day) hanno.1 hanno.2
  have hfew := rank_le (by omega : 1 ≤ d.year) hy'
  have hsec := t.seconds_lt
  have hr' : r = mktime (BitVec.ofNat 32 (d.year - 1900)) (BitVec.ofNat 32 d.month)
    (BitVec.ofNat 32 d.day) (BitVec.ofNat 32 t.hour) (BitVec.ofNat 32 t.minute)
    (BitVec.ofNat 32 t.second) := hfst
  rw [hr', hval, unixTime, Date.rank_epoch]
  omega

/-- A chip that is read between two updates, with this date and time in its registers. -/
def orologio (d : Date) (t : TimeOfDay) : Rtc := fun n a =>
  if a = RTC_SECONDS then bcd t.second
  else if a = RTC_MINUTES then bcd t.minute
  else if a = RTC_HOURS then bcd t.hour
  else if a = RTC_DAY_OF_MONTH then bcd d.day
  else if a = RTC_MONTH then bcd d.month
  else if a = RTC_YEAR then bcd (d.year % 100)
  else if a = RTC_FREQ_SELECT ∧ n = 0 then RTC_UIP
  else 0

theorem orologio_segna (d : Date) (t : TimeOfDay) : Segna (orologio d t) d t :=
  ⟨fun _ => rfl, fun _ => rfl, fun _ => rfl, fun _ => rfl, fun _ => rfl, fun _ => rfl⟩

/-- The first instant of 1970 is taken for one long after. -/
theorem cmos_epoca :
    (getCmosTime (orologio Date.epoch mezzanotte) 1 0).map (fun r => r.1.toNat) =
      some 371025216230400 ∧ unixTime Date.epoch mezzanotte = 0 := by
  constructor
  · decide +kernel
  · rw [unixTime, Nat.sub_self]
    rfl

theorem cmos_mai_2000 : ∃ r tm, getCmosTime (orologio marzo2000 mezzanotte) 1 0 = some (r, tm) ∧
    r.toNat ≠ unixTime marzo2000 mezzanotte :=
  cmos_mai _ _ _ 0 0 (orologio_segna _ _) (by decide) (by decide)

end Systime

end Pitos
