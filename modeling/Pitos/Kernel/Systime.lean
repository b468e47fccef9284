import Pitos.Lib.Memory

/-!
# The clock

`systime.c`, and `get_cpu_clock` of `mylib.c`. The clock chip, the timer and the time stamp counter
are parameters: what the chip answers at each access, what port 0x61 says at each reading, and
the counts read. The loops that wait for one of them get a number of turns.
-/

namespace Pitos

open Lib

namespace Systime

/-- The sums on `year`, `mon` and `day` are made in 32 bits, the rest in 64. -/
def mktime (year mon day hour min sec : Word) : BitVec 64 :=
  let mon := mon - 2
  -- 1..12 -> 11,12,1..10
  let (mon, year) := if mon.sle 0 then (mon + 12, year - 1) else (mon, year)
  let r := (year / 4 - year / 100 + year / 400 + 367 * mon / 12 + day).setWidth 64
  let r := r + (year * 365 - 719499).setWidth 64
  let r := r * 24
  let r := r + hour.setWidth 64
  let r := r * 60
  let r := r + min.setWidth 64
  let r := r * 60
  r + sec.setWidth 64

/-! ## The clock chip -/

abbrev RTC_SECONDS : BitVec 8 := 0
abbrev RTC_MINUTES : BitVec 8 := 2
abbrev RTC_HOURS : BitVec 8 := 4
abbrev RTC_DAY_OF_MONTH : BitVec 8 := 7
abbrev RTC_MONTH : BitVec 8 := 8
abbrev RTC_YEAR : BitVec 8 := 9
abbrev RTC_FREQ_SELECT : BitVec 8 := 10
abbrev RTC_CONTROL : BitVec 8 := 11
abbrev RTC_UIP : BitVec 8 := 0x80
abbrev RTC_DM_BINARY : BitVec 8 := 0x04
abbrev RTC_ALWAYS_BCD : BitVec 8 := 1

/-- The register with the given number at the `n`-th `CMOS_READ`. -/
abbrev Rtc := Nat → BitVec 8 → BitVec 8

/-- `BCD_TO_BIN(val)` -/
def bcdToBin (val : Word) : Word := (val &&& 15) + (val >>> 4) * 10

structure Lettura where
  sec : Word
  min : Word
  hour : Word
  day : Word
  mon : Word
  year : Word

/-- The fields of `struct tm` that are filled in. -/
structure Tm where
  tmSec : Word
  tmMin : Word
  tmHour : Word
  tmMon : Word
  tmMday : Word
  tmYear : Word

def Lettura.bcdToBin (l : Lettura) : Lettura :=
  { sec := Systime.bcdToBin l.sec, min := Systime.bcdToBin l.min, hour := Systime.bcdToBin l.hour,
    day := Systime.bcdToBin l.day, mon := Systime.bcdToBin l.mon,
    year := Systime.bcdToBin l.year }

/-- `for (i = 0; i < 1000000; i++) if (..) break;`: the turns left and the accesses made. -/
def aspetta (rtc : Rtc) (va : BitVec 8 → Bool) : Nat → Nat → Nat
  | 0, n => n
  | giri + 1, n => if va (rtc n RTC_FREQ_SELECT) then n + 1 else aspetta rtc va giri (n + 1)

/-- The accesses of one turn, the first of them the `n`-th. -/
def lettura (rtc : Rtc) (n : Nat) : Lettura :=
  { sec := (rtc n RTC_SECONDS).setWidth 32
    min := (rtc (n + 1) RTC_MINUTES).setWidth 32
    hour := (rtc (n + 2) RTC_HOURS).setWidth 32
    day := (rtc (n + 3) RTC_DAY_OF_MONTH).setWidth 32
    mon := (rtc (n + 4) RTC_MONTH).setWidth 32
    year := (rtc (n + 5) RTC_YEAR).setWidth 32 }

/-- `do { .. } while (sec != CMOS_READ(RTC_SECONDS))` -/
def leggi (rtc : Rtc) : Nat → Nat → Option (Lettura × Nat)
  | 0, _ => none
  | giri + 1, n =>
    let l := lettura rtc n
    if l.sec ≠ (rtc (n + 6) RTC_SECONDS).setWidth 32 then leggi rtc giri (n + 7)
    else some (l, n + 7)

/-- The time and what is stored for the caller. -/
def getCmosTime (rtc : Rtc) (giri n : Nat) : Option (BitVec 64 × Tm) := do
  let n := aspetta rtc (fun b => b &&& RTC_UIP ≠ 0) 1000000 n
  let n := aspetta rtc (fun b => b &&& RTC_UIP = 0) 1000000 n
  let (l, n) ← leggi rtc giri n
  let l := if rtc n RTC_CONTROL &&& RTC_DM_BINARY = 0 ∨ RTC_ALWAYS_BCD ≠ 0 then l.bcdToBin else l
  let year := if l.year < 70 then l.year + 100 else l.year
  return (mktime year l.mon l.day l.hour l.min l.sec,
    { tmSec := l.sec, tmMin := l.min, tmHour := l.hour + 9, tmMon := l.mon, tmMday := l.day,
      tmYear := year })

/-! ## The frequency of the processor -/

abbrev TESTTICK : Word := 59660
abbrev TIMER_CLOCK_PER_SEC : Word := 1193180

/-- The values of `get_cpu_clock` that its comment says are not a frequency: not set, slow, fast. -/
def Errore (v : Word) : Prop := v = -1 ∨ v = -2 ∨ v = -3

instance (v : Word) : Decidable (Errore v) := inferInstanceAs (Decidable (_ ∨ _))

/-- `subl` and `sbbl`. -/
def diff64bit (l1 h1 l2 h2 : Word) : Word × Word :=
  (l1 - l2, h1 - h2 - if l1 < l2 then 1 else 0)

/-- `do count++; while ((inb(0x61) & 0x20) == 0)`: the turns left, the readings made and the
count. -/
def conta (porta : Nat → BitVec 8) : Nat → Nat → Word → Option Word
  | 0, _, _ => none
  | giri + 1, i, count =>
    if porta i &&& 0x20 = 0 then conta porta giri (i + 1) (count + 1) else some (count + 1)

def getCpuClock (porta : Nat → BitVec 8) (giri : Nat) (sl sh el eh : Word) : Option Word := do
  let count ← conta porta giri 0 0
  if count = 0 then return -1
  let (el, eh) := diff64bit el eh sl sh
  if eh > 0 then return -3
  return el / TESTTICK * TIMER_CLOCK_PER_SEC

/-! ## The milliseconds -/

/-- The static variables. -/
structure Tempo where
  bootTime : BitVec 64
  bootStamp : BitVec 64
  bootMillis : BitVec 64
  stampToMillis : Word

/-- `1000 << 32` -/
def mille : BitVec 64 := 1000 <<< 32

/-- `t/get_cpu_clock()`, in 64 bits and stored in 32: the division traps on 0. -/
def stampToMillis (clock : Word) : Option Word :=
  if clock = 0 then none else some ((mille / clock.setWidth 64).setWidth 32)

/-- `clock` is what `get_cpu_clock` returned, `stamp` the count read. -/
def initBootTime (clock : Word) (rtc : Rtc) (giri n : Nat) (stamp : BitVec 64) : Option Tempo := do
  let stampToMillis ← stampToMillis clock
  let (bootTime, _) ← getCmosTime rtc giri n
  return { bootTime, bootStamp := stamp, bootMillis := bootTime * 1000, stampToMillis }

/-- `tick` is the count read. -/
def getCurrentMillis (s : Tempo) (tick : BitVec 64) : BitVec 64 :=
  let diff := tick - s.bootStamp
  ((diff * s.stampToMillis.setWidth 64) >>> 32) + s.bootMillis

end Systime

end Pitos
