import Nghttp2Asio.Decimal
import Nghttp2Asio.Library.Calendar

/-!
HTTP dates: `http_date` of util.cc and the two variants of `timegm` of timegm.c.
`gmtime_r` is a parameter; what is relied on is that it returns the broken-down time
of the proleptic Gregorian calendar.
-/
namespace Nghttp2Asio.HttpDate
open Util CheckedBuffer Decimal Calendar

/-- `struct tm`; `tmIsdst` is neither read nor written. -/
structure Tm where
  tmSec : Int
  tmMin : Int
  tmHour : Int
  tmMday : Int
  tmMon : Int
  tmYear : Int
  tmWday : Int
  tmYday : Int
  deriving DecidableEq, Repr

/-! The code. -/

def toUint32 (n : Int) : Nat := (n % 2 ^ 32).toNat

def cpydigLoop (buf : Bytes) (d n : Nat) : Nat → Option Bytes
  | 0 => some buf
  | k + 1 =>
    (write buf (d + k) (UInt8.ofNat (n % 10) + zero)).bind fun buf => cpydigLoop buf d (n / 10) k

/-- The loop of the source tests at its end, so with no digit it would write in front of
    the cursor; it is called for two and four digits only. -/
def cpydig (o : Output UInt8) (n len : Nat) : Option (Output UInt8) :=
  if len = 0 then none else (cpydigLoop o.buf o.p n len).map fun buf => ⟨buf, o.p + len⟩

def month : List Bytes :=
  [lit "Jan", lit "Feb", lit "Mar", lit "Apr", lit "May", lit "Jun", lit "Jul", lit "Aug", lit "Sep",
   lit "Oct", lit "Nov", lit "Dec"]

def dayOfWeek : List Bytes :=
  [lit "Sun", lit "Mon", lit "Tue", lit "Wed", lit "Thu", lit "Fri", lit "Sat"]

def entryAt (table : List Bytes) (i : Int) : Option Bytes := if 0 ≤ i then table[i.toNat]? else none

def comma : UInt8 := ','.toUInt8
def space : UInt8 := ' '.toUInt8
def colon : UInt8 := ':'.toUInt8

/-- The variant that writes to a buffer. A `gmtime_r` that fails leaves it as it is. -/
def httpDateAt (gmtimeR : Int → Option Tm) (res : Output UInt8) (t : Int) : Option (Output UInt8) :=
  match gmtimeR t with
  | none => some res
  | some tms => do
    let s ← entryAt dayOfWeek tms.tmWday
    let p ← res.append (s.take 3)
    let p ← p.push comma
    let p ← p.push space
    let p ← cpydig p (toUint32 tms.tmMday) 2
    let p ← p.push space
    let s ← entryAt month tms.tmMon
    let p ← p.append (s.take 3)
    let p ← p.push space
    let p ← cpydig p (toUint32 (tms.tmYear + 1900)) 4
    let p ← p.push space
    let p ← cpydig p (toUint32 tms.tmHour) 2
    let p ← p.push colon
    let p ← cpydig p (toUint32 tms.tmMin) 2
    let p ← p.push colon
    let p ← cpydig p (toUint32 tms.tmSec) 2
    p.append (lit " GMT")

def httpDate (gmtimeR : Int → Option Tm) (t : Int) : Option Bytes :=
  (httpDateAt gmtimeR ⟨List.replicate 29 0, 0⟩ t).map fun o => o.buf

example : httpDate (fun _ => some ⟨15, 31, 6, 27, 8, 114, 6, 269⟩) 1411799475 =
    some (lit "Sat, 27 Sep 2014 06:31:15 GMT") := by decide +kernel

def countLeapYear (y : Int) : Int :=
  let y := y - 1
  y.tdiv 4 - y.tdiv 100 + y.tdiv 400

def nghttp2Timegm (tm : Tm) : Int :=
  if tm.tmMon > 11 then -1
  else
    let numLeapYear := countLeapYear (tm.tmYear + 1900) - countLeapYear 1970
    let days := (tm.tmYear - 70) * 365 + numLeapYear + tm.tmYday
    (days * 24 + tm.tmHour) * 3600 + tm.tmMin * 60 + tm.tmSec

def isLeapYear (y : Int) : Bool := y.tmod 4 = 0 && (y.tmod 100 ≠ 0 || y.tmod 400 = 0)

def daysum : List Int := [0, 31, 59, 90, 120, 151, 181, 212, 243, 273, 304, 334]

def nghttp2TimegmWithoutYday (tm : Tm) : Int :=
  if tm.tmMon > 11 then -1
  else
    let numLeapYear := countLeapYear (tm.tmYear + 1900) - countLeapYear 1970
    let days := (tm.tmYear - 70) * 365 + numLeapYear + daysum.getD tm.tmMon.toNat 0 + tm.tmMday - 1
    let days := if tm.tmMon ≥ 2 ∧ isLeapYear (tm.tmYear + 1900) = true then days + 1 else days
    (days * 24 + tm.tmHour) * 3600 + tm.tmMin * 60 + tm.tmSec

/-! The calendar. -/

def epoch : Nat := daysBeforeYear 1970

def brokenDown (m : Moment) : Tm where
  tmSec := m.second
  tmMin := m.minute
  tmHour := m.hour
  tmMday := m.date.day
  tmMon := m.date.month
  tmYear := (m.date.year : Int) - 1900
  tmWday := ((m.date.dayNumber : Int) - epoch + 4) % 7
  tmYday := m.date.dayOfYear

def InYears (t : Int) (m : Moment) : Prop :=
  m.seconds epoch = t ∧ 1 ≤ m.date.year ∧ m.date.year ≤ 9999

/-- What is relied on of `gmtime_r`. -/
def Gregorian (gmtimeR : Int → Option Tm) : Prop :=
  ∀ t m, InYears t m → gmtimeR t = some (brokenDown m)

theorem epoch_eq : epoch = 719528 := by
  have years := daysBeforeYear_eq 1970
  unfold epoch
  omega

/-- The closed form of the source counts the days of the years. -/
theorem years_days {y : Nat} (positive : 1 ≤ y) :
    ((y : Int) - 1900 - 70) * 365 + (countLeapYear ((y : Int) - 1900 + 1900) - countLeapYear 1970) =
      (daysBeforeYear y : Int) - epoch := by
  have years := daysBeforeYear_eq y
  have start := epoch_eq
  have base : countLeapYear 1970 = 477 := by decide
  have shifted : (y : Int) - 1900 + 1900 - 1 = ((y - 1 : Nat) : Int) := by omega
  have count : countLeapYear ((y : Int) - 1900 + 1900) =
      ((y - 1) / 4 : Nat) - ((y - 1) / 100 : Nat) + ((y - 1) / 400 : Nat) := by
    simp only [countLeapYear, shifted]
    rw [Int.tdiv_eq_ediv_of_nonneg (by omega), Int.tdiv_eq_ediv_of_nonneg (by omega),
      Int.tdiv_eq_ediv_of_nonneg (by omega)]
    rfl
  have fourth : (y + 3) / 4 = (y - 1) / 4 + 1 := by omega
  have century : (y + 99) / 100 = (y - 1) / 100 + 1 := by omega
  have cycle : (y + 399) / 400 = (y - 1) / 400 + 1 := by omega
  rw [count, base, start]
  rw [fourth, century, cycle] at years
  generalize (y - 1) / 4 = a at *
  generalize (y - 1) / 100 = b at *
  generalize (y - 1) / 400 = c at *
  omega

theorem isLeapYear_eq (y : Nat) : isLeapYear y = isLeap y := by
  have rests : ∀ k : Nat, (y : Int).tmod k = ((y % k : Nat) : Int) := by
    intro k
    rw [Int.tmod_eq_emod_of_nonneg (by omega)]
    rfl
  rw [Bool.eq_iff_iff]
  simp only [isLeapYear, isLeap, Bool.and_eq_true, Bool.or_eq_true, decide_eq_true_eq]
  rw [show (4 : Int) = (4 : Nat) from rfl, show (100 : Int) = (100 : Nat) from rfl,
    show (400 : Int) = (400 : Nat) from rfl, rests, rests, rests]
  omega

theorem daysum_eq (leap : Bool) {m : Nat} (month_lt : m < 12) :
    daysum.getD m 0 + (if (m : Int) ≥ 2 ∧ leap = true then 1 else 0) = daysBeforeMonth leap m := by
  revert m leap
  decide

theorem nghttp2Timegm_eq (m : Moment) (positive : 1 ≤ m.date.year) :
    nghttp2Timegm (brokenDown m) = m.seconds epoch := by
  have years := years_days positive
  have months := m.date.month_lt
  unfold nghttp2Timegm
  rw [if_neg (by simp only [brokenDown]; omega)]
  simp only [brokenDown, years, Moment.seconds, Date.dayNumber]
  omega

theorem nghttp2TimegmWithoutYday_eq (m : Moment) (positive : 1 ≤ m.date.year) {tm : Tm}
    (read : { brokenDown m with tmWday := tm.tmWday, tmYday := tm.tmYday } = tm) :
    nghttp2TimegmWithoutYday tm = m.seconds epoch := by
  have years := years_days positive
  have months := m.date.month_lt
  have days := daysum_eq (isLeap m.date.year) months
  have leap : isLeapYear ((m.date.year : Int) - 1900 + 1900) = isLeap m.date.year := by
    rw [Int.sub_add_cancel, isLeapYear_eq]
  have first := m.date.day_pos
  unfold nghttp2TimegmWithoutYday
  rw [← read]
  simp only [brokenDown, leap, years, Moment.seconds, Date.dayNumber, Date.dayOfYear, Int.toNat_natCast]
  rw [if_neg (by omega)]
  split
  · rename_i after
    rw [if_pos after] at days
    omega
  · rename_i before
    rw [if_neg before] at days
    omega

/-! The text. -/

def padded (n : Nat) : Nat → Bytes
  | 0 => []
  | len + 1 => padded (n / 10) len ++ [digitChar (n % 10)]

theorem padded_length (n len : Nat) : (padded n len).length = len := by
  induction len generalizing n with
  | zero => rfl
  | succ len ih => rw [padded, List.length_append, ih, List.length_singleton]

theorem decimalValue_padded (n len : Nat) : decimalValue (padded n len) = n % 10 ^ len := by
  induction len generalizing n with
  | zero => simp [padded, decimalValue, Nat.mod_one]
  | succ len ih =>
    rw [padded, decimalValue_concat, ih, (digit_facts _ (Nat.mod_lt n (by omega))).1,
      Nat.pow_succ, Nat.mul_comm (10 ^ len) 10, Nat.mod_mul]
    omega

theorem cpydigLoop_eq (before gap after : Bytes) (n : Nat) :
    cpydigLoop (before ++ (gap ++ after)) before.length n gap.length =
      some (before ++ (padded n gap.length ++ after)) := by
  induction gap using List.reverseRecOn generalizing n after with
  | nil => rfl
  | append_singleton gap old ih =>
    have cells : before ++ (gap ++ [old] ++ after) = (before ++ gap) ++ old :: after := by simp
    rw [List.length_append, List.length_singleton, cpydigLoop, cells, ← List.length_append,
      write_middle, Option.bind_some, List.append_assoc, ih, padded]
    simp [digitChar]

theorem cpydig_writes (n : Nat) {len : Nat} (some_len : len ≠ 0) :
    Output.Writes (fun o => cpydig o n len) (padded n len) := by
  intro out rest room
  rw [padded_length] at room ⊢
  have gap : (rest.take len).length = len := by
    rw [List.length_take]
    omega
  have filled := cpydigLoop_eq out (rest.take len) (rest.drop len) n
  rw [List.take_append_drop, gap] at filled
  simp only [cpydig, some_len, ↓reduceIte, Output.over, filled, Option.map_some]
  rw [List.length_append, padded_length, List.append_assoc]

def dateText (wday : Bytes) (mday : Nat) (mon : Bytes) (year hour minute second : Nat) : Bytes :=
  wday ++ ([comma] ++ ([space] ++ (padded mday 2 ++ ([space] ++ (mon ++ ([space] ++ (padded year 4 ++
    ([space] ++ (padded hour 2 ++ ([colon] ++ (padded minute 2 ++ ([colon] ++ (padded second 2 ++
      lit " GMT")))))))))))))

theorem dateText_length {wday mon : Bytes} (wday_length : wday.length = 3) (mon_length : mon.length = 3)
    (mday year hour minute second : Nat) :
    (dateText wday mday mon year hour minute second).length = 29 := by
  have gmt : (lit " GMT").length = 4 := by decide
  simp only [dateText, List.length_append, List.length_singleton, padded_length, wday_length, mon_length,
    gmt]

theorem httpDateAt_writes {gmtimeR : Int → Option Tm} {t : Int} {tms : Tm} {wday mon : Bytes}
    (broken : gmtimeR t = some tms) (day : entryAt dayOfWeek tms.tmWday = some wday)
    (name : entryAt month tms.tmMon = some mon) (wday_length : wday.length = 3)
    (mon_length : mon.length = 3) :
    Output.Writes (fun o => httpDateAt gmtimeR o t)
      (dateText wday (toUint32 tms.tmMday) mon (toUint32 (tms.tmYear + 1900)) (toUint32 tms.tmHour)
        (toUint32 tms.tmMin) (toUint32 tms.tmSec)) := by
  have wday_all : wday.take 3 = wday := by rw [← wday_length, List.take_length]
  have mon_all : mon.take 3 = mon := by rw [← mon_length, List.take_length]
  have digits : ∀ n, Output.Writes (fun o => cpydig o n 2) (padded n 2) :=
    fun n => cpydig_writes n (by omega)
  have year : Output.Writes (fun o => cpydig o _ 4) _ :=
    cpydig_writes (toUint32 (tms.tmYear + 1900)) (by omega)
  unfold httpDateAt
  simp only [broken, day, name, Option.bind_eq_bind, Option.bind_some, wday_all, mon_all]
  exact (Output.append_writes wday).seq <| (Output.push_writes comma).seq <|
    (Output.push_writes space).seq <| (digits _).seq <| (Output.push_writes space).seq <|
    (Output.append_writes mon).seq <| (Output.push_writes space).seq <| year.seq <|
    (Output.push_writes space).seq <| (digits _).seq <| (Output.push_writes colon).seq <|
    (digits _).seq <| (Output.push_writes colon).seq <| (digits _).seq <|
    Output.append_writes (lit " GMT")

/-! Reading a date back by position. -/

def field (text : Bytes) (pos len : Nat) : Bytes := (text.drop pos).take len

def readDate (text : Bytes) : Tm where
  tmSec := decimalValue (field text 23 2)
  tmMin := decimalValue (field text 20 2)
  tmHour := decimalValue (field text 17 2)
  tmMday := decimalValue (field text 5 2)
  tmMon := month.idxOf (field text 8 3)
  tmYear := (decimalValue (field text 12 4) : Int) - 1900
  tmWday := 0
  tmYday := 0

theorem dateText_fields {wday mon : Bytes} (wday_length : wday.length = 3) (mon_length : mon.length = 3)
    (mday year hour minute second : Nat) :
    let text := dateText wday mday mon year hour minute second
    field text 5 2 = padded mday 2 ∧ field text 8 3 = mon ∧ field text 12 4 = padded year 4 ∧
      field text 17 2 = padded hour 2 ∧ field text 20 2 = padded minute 2 ∧
      field text 23 2 = padded second 2 := by
  obtain ⟨a, b, c, rfl⟩ := List.length_eq_three.mp wday_length
  obtain ⟨d, e, f, rfl⟩ := List.length_eq_three.mp mon_length
  exact ⟨rfl, rfl, rfl, rfl, rfl, rfl⟩

theorem month_facts : ∀ m < 12, ∃ mon, month[m]? = some mon ∧ mon.length = 3 ∧ month.idxOf mon = m := by
  have facts : ∀ m < 12, (month.getD m []).length = 3 ∧ month.idxOf (month.getD m []) = m := by
    decide +kernel
  intro m month_lt
  have inside : m < month.length := month_lt
  obtain ⟨length, index⟩ := facts m month_lt
  rw [List.getD_eq_getElem?_getD, List.getElem?_eq_getElem inside, Option.getD_some] at length index
  exact ⟨_, List.getElem?_eq_getElem inside, length, index⟩

theorem dayOfWeek_facts : ∀ d < 7, ∃ wday, dayOfWeek[d]? = some wday ∧ wday.length = 3 := by
  have facts : ∀ wday ∈ dayOfWeek, wday.length = 3 := by decide
  intro d day_lt
  have inside : d < dayOfWeek.length := day_lt
  exact ⟨_, List.getElem?_eq_getElem inside, facts _ (List.getElem_mem inside)⟩

theorem entryAt_nat (table : List Bytes) (i : Nat) : entryAt table i = table[i]? := by
  rw [entryAt, if_pos (by omega), Int.toNat_natCast]

theorem toUint32_nat {n : Nat} (small : n < 2 ^ 32) : toUint32 n = n := by
  unfold toUint32
  omega

theorem day_le_31 (d : Date) : d.day ≤ 31 := by
  have longest : ∀ leap, ∀ m < 12, monthLength leap m ≤ 31 := by decide
  exact Nat.le_trans d.day_le (longest _ _ d.month_lt)

theorem httpDate_spec {gmtimeR : Int → Option Tm} (documented : Gregorian gmtimeR) {t : Int} {m : Moment}
    (years : InYears t m) : ∃ text, Output.Writes (fun o => httpDateAt gmtimeR o t) text ∧
      text.length = 29 ∧ nghttp2TimegmWithoutYday (readDate text) = t := by
  have broken := documented t m years
  obtain ⟨time, first, last⟩ := years
  obtain ⟨mon, name, mon_length, mon_index⟩ := month_facts m.date.month m.date.month_lt
  obtain ⟨wday, day, wday_length⟩ :=
    dayOfWeek_facts (((m.date.dayNumber : Int) - epoch + 4) % 7).toNat (by omega)
  have day_entry : entryAt dayOfWeek (brokenDown m).tmWday = some wday := by
    have index : (brokenDown m).tmWday = ((((m.date.dayNumber : Int) - epoch + 4) % 7).toNat : Int) := by
      simp only [brokenDown]
      omega
    rw [index, entryAt_nat, day]
  have month_entry : entryAt month (brokenDown m).tmMon = some mon := by
    rw [← name, ← entryAt_nat]
    rfl
  have written := httpDateAt_writes broken day_entry month_entry wday_length mon_length
  refine ⟨_, written, dateText_length wday_length mon_length _ _ _ _ _, ?_⟩
  have days := day_le_31 m.date
  have hours := m.hour_lt
  have minutes := m.minute_lt
  have seconds := m.second_lt
  have year : toUint32 ((brokenDown m).tmYear + 1900) = m.date.year := by
    simp only [brokenDown, Int.sub_add_cancel]
    exact toUint32_nat (by omega)
  rw [year]
  simp only [brokenDown]
  rw [toUint32_nat (by omega), toUint32_nat (by omega), toUint32_nat (by omega), toUint32_nat (by omega)]
  obtain ⟨mday_field, mon_field, year_field, hour_field, minute_field, second_field⟩ :=
    dateText_fields wday_length mon_length m.date.day m.date.year m.hour m.minute m.second
  rw [nghttp2TimegmWithoutYday_eq m first, time]
  simp only [readDate, mday_field, mon_field, year_field, hour_field, minute_field, second_field,
    decimalValue_padded, mon_index, brokenDown]
  rw [Nat.mod_eq_of_lt (by omega), Nat.mod_eq_of_lt (by omega), Nat.mod_eq_of_lt (by omega),
    Nat.mod_eq_of_lt (by omega), Nat.mod_eq_of_lt (by omega)]

theorem httpDate_writes {gmtimeR : Int → Option Tm} {t : Int} {text : Bytes}
    (written : Output.Writes (fun o => httpDateAt gmtimeR o t) text) (length : text.length = 29) :
    httpDate gmtimeR t = some text ∧ ∀ res : Bytes, 29 ≤ res.length →
      httpDateAt gmtimeR ⟨res, 0⟩ t = some ⟨text ++ res.drop 29, 29⟩ := by
  have into : ∀ res : Bytes, 29 ≤ res.length →
      httpDateAt gmtimeR ⟨res, 0⟩ t = some ⟨text ++ res.drop 29, 29⟩ := by
    intro res room
    have result := written [] res (by omega)
    simp only [Output.over, List.nil_append, List.length_nil, length] at result
    exact result
  refine ⟨?_, into⟩
  rw [httpDate, into _ (by simp), Option.map_some]
  simp

theorem inYears_iff (t : Int) : (∃ m, InYears t m) ↔ -62135596800 ≤ t ∧ t ≤ 253402300799 := by
  have start := epoch_eq
  have one : daysBeforeYear 1 = 366 := by
    have years := daysBeforeYear_eq 1
    omega
  have last : daysBeforeYear 10000 = 3652425 := by
    have years := daysBeforeYear_eq 10000
    omega
  have range : ∀ m : Moment, 1 ≤ m.date.year ∧ m.date.year ≤ 9999 ↔
      366 ≤ m.date.dayNumber ∧ m.date.dayNumber < 3652425 := by
    intro m
    have low := m.date.year_lt_iff 1
    have high := m.date.year_lt_iff 10000
    omega
  constructor
  · rintro ⟨m, rfl, years⟩
    have days := (range m).mp years
    have hours := m.hour_lt
    have minutes := m.minute_lt
    have seconds := m.second_lt
    simp only [Moment.seconds]
    omega
  · rintro ⟨low, high⟩
    refine ⟨Moment.ofSeconds epoch t, Moment.seconds_ofSeconds epoch (by omega), (range _).mpr ?_⟩
    simp only [Moment.ofSeconds, Date.dayNumber_ofNumber]
    omega

/-- In the years 1 to 9999 `http_date` writes 29 bytes from which the time is read back,
    both variants of `timegm` give the time of its broken-down form, and so no two times
    have the same date. -/
theorem http_date_round_trip {gmtimeR : Int → Option Tm} (documented : Gregorian gmtimeR) :
    (∀ t, (∃ m, InYears t m) ↔ -62135596800 ≤ t ∧ t ≤ 253402300799) ∧
    (∀ t m, InYears t m → ∃ text, httpDate gmtimeR t = some text ∧ text.length = 29 ∧
      (∀ res : Bytes, 29 ≤ res.length →
        httpDateAt gmtimeR ⟨res, 0⟩ t = some ⟨text ++ res.drop 29, 29⟩) ∧
      nghttp2TimegmWithoutYday (readDate text) = t ∧
      ∃ tm, gmtimeR t = some tm ∧ nghttp2Timegm tm = t ∧ nghttp2TimegmWithoutYday tm = t) ∧
    ∀ t t' m m', InYears t m → InYears t' m' → httpDate gmtimeR t = httpDate gmtimeR t' → t = t' := by
  refine ⟨inYears_iff, ?_, ?_⟩
  · intro t m years
    obtain ⟨text, written, length, read⟩ := httpDate_spec documented years
    obtain ⟨whole, into⟩ := httpDate_writes written length
    refine ⟨text, whole, length, into, read, brokenDown m, documented t m years, ?_, ?_⟩
    · rw [nghttp2Timegm_eq m years.2.1, years.1]
    · rw [nghttp2TimegmWithoutYday_eq m years.2.1 rfl, years.1]
  · intro t t' m m' years years' same
    obtain ⟨text, written, length, read⟩ := httpDate_spec documented years
    obtain ⟨text', written', length', read'⟩ := httpDate_spec documented years'
    rw [(httpDate_writes written length).1, (httpDate_writes written' length').1,
      Option.some.injEq] at same
    rw [← read, ← read', same]

def gmtime (t : Int) : Option Tm := some (brokenDown (Moment.ofSeconds epoch t))

theorem gmtime_gregorian : Gregorian gmtime := by
  intro t m years
  have start := epoch_eq
  have range := (inYears_iff t).mp ⟨m, years⟩
  have same : Moment.ofSeconds epoch t = m := by
    apply Moment.seconds_injective epoch
    rw [Moment.seconds_ofSeconds epoch (by omega), years.1]
  rw [gmtime, same]

theorem http_date_leap_day : ∃ text, httpDate gmtime 951782400 = some text ∧ text.length = 29 ∧
    nghttp2TimegmWithoutYday (readDate text) = 951782400 := by
  obtain ⟨m, years⟩ := (inYears_iff 951782400).mpr (by omega)
  obtain ⟨text, whole, length, _, read, _⟩ := (http_date_round_trip gmtime_gregorian).2.1 _ m years
  exact ⟨text, whole, length, read⟩

end Nghttp2Asio.HttpDate
