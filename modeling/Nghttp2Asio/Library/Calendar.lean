import Mathlib.Algebra.GroupWithZero.Nat
import Mathlib.Data.List.Basic

/-!
The proleptic Gregorian calendar from the first day of year 0 on. The number of a day
is the sum of the lengths of the years and months before it; the closed form for the
years is derived from that.
-/
namespace Calendar

def isLeap (y : Nat) : Bool := y % 4 = 0 ∧ (y % 100 ≠ 0 ∨ y % 400 = 0)

def monthLengths (leap : Bool) : List Nat :=
  [31, if leap then 29 else 28, 31, 30, 31, 30, 31, 31, 30, 31, 30, 31]

def yearLength (y : Nat) : Nat := (monthLengths (isLeap y)).sum

def daysBeforeYear (y : Nat) : Nat := ((List.range y).map yearLength).sum

def monthLength (leap : Bool) (m : Nat) : Nat := (monthLengths leap).getD m 0

def daysBeforeMonth (leap : Bool) (m : Nat) : Nat := ((monthLengths leap).take m).sum

/-- A date; months count from 0 and days from 1. -/
structure Date where
  year : Nat
  month : Nat
  day : Nat
  month_lt : month < 12
  day_pos : 1 ≤ day
  day_le : day ≤ monthLength (isLeap year) month

def Date.dayOfYear (d : Date) : Nat := daysBeforeMonth (isLeap d.year) d.month + (d.day - 1)

def Date.dayNumber (d : Date) : Nat := daysBeforeYear d.year + d.dayOfYear

theorem yearLength_eq (y : Nat) : yearLength y = if isLeap y then 366 else 365 := by
  unfold yearLength
  cases isLeap y <;> rfl

theorem daysBeforeYear_succ (y : Nat) : daysBeforeYear (y + 1) = daysBeforeYear y + yearLength y := by
  simp [daysBeforeYear, List.range_succ]

theorem daysBeforeMonth_succ (leap : Bool) {m : Nat} (month : m < 12) :
    daysBeforeMonth leap (m + 1) = daysBeforeMonth leap m + monthLength leap m := by
  revert m leap
  decide

theorem daysBeforeMonth_twelve (y : Nat) : daysBeforeMonth (isLeap y) 12 = yearLength y := rfl

theorem monthLength_pos (leap : Bool) {m : Nat} (month : m < 12) : 1 ≤ monthLength leap m := by
  revert m leap
  decide

/-- A year is longer by a day every four years, except every hundred, except every four
    hundred. -/
theorem yearLength_count (y : Nat) : yearLength y + (if y % 100 = 0 then 1 else 0) =
    365 + (if y % 4 = 0 then 1 else 0) + (if y % 400 = 0 then 1 else 0) := by
  rw [yearLength_eq]
  by_cases fourth : y % 4 = 0
  · by_cases century : y % 100 = 0
    · by_cases cycle : y % 400 = 0 <;> simp [isLeap, fourth, century, cycle]
    · have other : y % 400 ≠ 0 := by omega
      simp [isLeap, fourth, century, other]
  · have no_century : y % 100 ≠ 0 := by omega
    have no_cycle : y % 400 ≠ 0 := by omega
    simp [isLeap, fourth, no_century, no_cycle]

theorem daysBeforeYear_eq (y : Nat) :
    daysBeforeYear y + (y + 99) / 100 = 365 * y + (y + 3) / 4 + (y + 399) / 400 := by
  induction y with
  | zero => rfl
  | succ y ih =>
    have fourth : (y + 1 + 3) / 4 = (y + 3) / 4 + if y % 4 = 0 then 1 else 0 := by split <;> omega
    have century : (y + 1 + 99) / 100 = (y + 99) / 100 + if y % 100 = 0 then 1 else 0 := by
      split <;> omega
    have cycle : (y + 1 + 399) / 400 = (y + 399) / 400 + if y % 400 = 0 then 1 else 0 := by
      split <;> omega
    have count := yearLength_count y
    rw [daysBeforeYear_succ, fourth, century, cycle]
    generalize (y + 3) / 4 = a at *
    generalize (y + 99) / 100 = b at *
    generalize (y + 399) / 400 = c at *
    omega

theorem Date.dayOfYear_lt (d : Date) : d.dayOfYear < yearLength d.year := by
  have length : ∀ leap m, m < 12 → daysBeforeMonth leap m + monthLength leap m ≤
      daysBeforeMonth leap 12 := by decide
  have month := length (isLeap d.year) d.month d.month_lt
  rw [daysBeforeMonth_twelve] at month
  have day := d.day_le
  have first := d.day_pos
  unfold dayOfYear
  omega

def Date.next (d : Date) : Date :=
  if inside : d.day < monthLength (isLeap d.year) d.month then
    ⟨d.year, d.month, d.day + 1, d.month_lt, Nat.le_add_left _ _, inside⟩
  else if more : d.month + 1 < 12 then
    ⟨d.year, d.month + 1, 1, more, Nat.le_refl _, monthLength_pos _ more⟩
  else ⟨d.year + 1, 0, 1, by decide, Nat.le_refl _, monthLength_pos _ (by decide)⟩

theorem Date.next_dayNumber (d : Date) : d.next.dayNumber = d.dayNumber + 1 := by
  have month := daysBeforeMonth_succ (isLeap d.year) d.month_lt
  have first := d.day_pos
  have last := d.day_le
  unfold next
  split
  · simp only [dayNumber, dayOfYear]
    omega
  split
  · simp only [dayNumber, dayOfYear]
    omega
  · have december : d.month + 1 = 12 := by
      have bound := d.month_lt
      omega
    have year := daysBeforeYear_succ d.year
    rw [← daysBeforeMonth_twelve, ← december] at year
    have start : ∀ leap, daysBeforeMonth leap 0 = 0 := by decide
    simp only [dayNumber, dayOfYear, start]
    omega

def Date.ofNumber : Nat → Date
  | 0 => ⟨0, 0, 1, by decide, by decide, by decide⟩
  | n + 1 => (ofNumber n).next

theorem Date.dayNumber_ofNumber (n : Nat) : (ofNumber n).dayNumber = n := by
  induction n with
  | zero => decide
  | succ n ih => rw [ofNumber, next_dayNumber, ih]

theorem daysBeforeYear_mono {x y : Nat} (earlier : x ≤ y) : daysBeforeYear x ≤ daysBeforeYear y := by
  induction earlier with
  | refl => exact Nat.le_refl _
  | step _ ih =>
    rw [Nat.succ_eq_add_one, daysBeforeYear_succ]
    omega

theorem Date.year_lt_iff (d : Date) (y : Nat) : d.year < y ↔ d.dayNumber < daysBeforeYear y := by
  have within := d.dayOfYear_lt
  have next := daysBeforeYear_succ d.year
  unfold dayNumber
  constructor
  · intro earlier
    have bound : daysBeforeYear (d.year + 1) ≤ daysBeforeYear y := daysBeforeYear_mono earlier
    omega
  · intro earlier
    by_contra later
    have bound := daysBeforeYear_mono (Nat.le_of_not_lt later)
    omega

theorem daysBeforeMonth_mono (leap : Bool) {m n : Nat} (earlier : m < n) (last : n < 12) :
    daysBeforeMonth leap m + monthLength leap m ≤ daysBeforeMonth leap n := by
  have all : ∀ leap, ∀ n < 12, ∀ m < n,
      daysBeforeMonth leap m + monthLength leap m ≤ daysBeforeMonth leap n := by decide
  exact all leap n last m earlier

theorem Date.dayNumber_injective {d e : Date} (same : d.dayNumber = e.dayNumber) : d = e := by
  have year : d.year = e.year := by
    have before := d.year_lt_iff e.year
    have after := e.year_lt_iff d.year
    unfold dayNumber at before after same
    omega
  have day_of_year : d.dayOfYear = e.dayOfYear := by
    unfold dayNumber at same
    rw [year] at same
    omega
  obtain ⟨y, m, day, month_lt, day_pos, day_le⟩ := d
  obtain ⟨y', m', day', month_lt', day_pos', day_le'⟩ := e
  simp only at year
  subst year
  simp only [dayOfYear] at day_of_year
  have month : m = m' := by
    rcases Nat.lt_trichotomy m m' with earlier | equal | later
    · have bound := daysBeforeMonth_mono (isLeap y) earlier month_lt'
      omega
    · exact equal
    · have bound := daysBeforeMonth_mono (isLeap y) later month_lt
      omega
  subst month
  obtain rfl : day = day' := by omega
  rfl

structure Moment where
  date : Date
  hour : Nat
  minute : Nat
  second : Nat
  hour_lt : hour < 24
  minute_lt : minute < 60
  second_lt : second < 60

def Moment.seconds (epoch : Nat) (m : Moment) : Int :=
  (((m.date.dayNumber : Int) - epoch) * 24 + m.hour) * 3600 + m.minute * 60 + m.second

def Moment.ofSeconds (epoch : Nat) (t : Int) : Moment where
  date := Date.ofNumber (t / 86400 + epoch).toNat
  hour := (t % 86400 / 3600).toNat
  minute := (t % 3600 / 60).toNat
  second := (t % 60).toNat
  hour_lt := by omega
  minute_lt := by omega
  second_lt := by omega

theorem Moment.seconds_ofSeconds (epoch : Nat) {t : Int} (start : -(epoch : Int) * 86400 ≤ t) :
    (ofSeconds epoch t).seconds epoch = t := by
  simp only [Moment.seconds, ofSeconds, Date.dayNumber_ofNumber]
  omega

theorem Moment.seconds_injective (epoch : Nat) {m n : Moment}
    (same : m.seconds epoch = n.seconds epoch) : m = n := by
  obtain ⟨d, hour, minute, second, hour_lt, minute_lt, second_lt⟩ := m
  obtain ⟨d', hour', minute', second', hour_lt', minute_lt', second_lt'⟩ := n
  simp only [seconds] at same
  obtain rfl : d = d' := Date.dayNumber_injective (by omega)
  obtain rfl : hour = hour' := by omega
  obtain rfl : minute = minute' := by omega
  obtain rfl : second = second' := by omega
  rfl

end Calendar
