import Mathlib.Data.List.Basic
import Mathlib.Tactic.NormNum

/-!
# Instants as text

`datetime.isoformat()` of a UTC instant and its inverse, over the proleptic calendar of the
Python library. An instant is the number of microseconds since the first of January of year 1.

The calendar is the library's own arithmetic: `_ord2ymd` divides the days into 400, 100, 4 and
1 years, and `_ymd2ord` adds them up again.
-/

namespace Wire

/-! ## The calendar -/

/-- `_is_leap`. -/
def isLeap (year : Nat) : Bool := decide (year % 4 = 0 ∧ (year % 100 ≠ 0 ∨ year % 400 = 0))

/-- `_days_before_year`. -/
def daysBeforeYear (year : Nat) : Nat :=
  (year - 1) * 365 + (year - 1) / 4 - (year - 1) / 100 + (year - 1) / 400

/-- `_DAYS_BEFORE_MONTH`. -/
def daysBefore : Nat → Nat
  | 2 => 31
  | 3 => 59
  | 4 => 90
  | 5 => 120
  | 6 => 151
  | 7 => 181
  | 8 => 212
  | 9 => 243
  | 10 => 273
  | 11 => 304
  | 12 => 334
  | _ => 0

/-- `_days_before_month`, in a leap year or not. -/
def daysBeforeMonth (leap : Bool) (month : Nat) : Nat :=
  daysBefore month + if 2 < month ∧ leap then 1 else 0

/-- `_days_in_month`. -/
def daysInMonth (leap : Bool) : Nat → Nat
  | 2 => if leap then 29 else 28
  | 4 | 6 | 9 | 11 => 30
  | _ => 31

/-- `_ymd2ord`. -/
def ymd2ord (year month day : Nat) : Nat :=
  daysBeforeYear year + daysBeforeMonth (isLeap year) month + day

/-- The month and the day of a day of the year; the estimate is one too large at times. -/
def monthDay (leap : Bool) (n : Nat) : Nat × Nat :=
  let month := (n + 50) / 32
  let month := if daysBeforeMonth leap month > n then month - 1 else month
  (month, n - daysBeforeMonth leap month + 1)

/-- The day after so many 400, 100, 4 and 1 years and days. -/
def yearMonthDay (n400 n100 n4 n1 n : Nat) : Nat × Nat × Nat :=
  let year := n400 * 400 + n100 * 100 + n4 * 4 + n1 + 1
  if n1 = 4 ∨ n100 = 4 then (year - 1, 12, 31)
  else (year, monthDay (decide (n1 = 3 ∧ (n4 ≠ 24 ∨ n100 = 3))) n)

/-- `_ord2ymd`. -/
def ord2ymd (ordinal : Nat) : Nat × Nat × Nat :=
  let n := ordinal - 1
  let n400 := n / 146097
  let n := n % 146097
  let n100 := n / 36524
  let n := n % 36524
  let n4 := n / 1461
  let n := n % 1461
  let n1 := n / 365
  let n := n % 365
  yearMonthDay n400 n100 n4 n1 n

theorem monthDay_spec : ∀ leap : Bool, ∀ n < 365,
    daysBeforeMonth leap (monthDay leap n).1 + (monthDay leap n).2 = n + 1
      ∧ (0 < (monthDay leap n).1 ∧ (monthDay leap n).1 ≤ 12)
      ∧ 0 < (monthDay leap n).2 ∧ (monthDay leap n).2 ≤ daysInMonth leap (monthDay leap n).1 := by
  decide +kernel

/-- Years, in centuries of four and so on. -/
theorem daysBeforeYear_eq {a b c d : Nat} (hb : b < 4) (hc : c < 25) (hd : d < 4) :
    daysBeforeYear (a * 400 + b * 100 + c * 4 + d + 1) = a * 146097 + b * 36524
      + c * 1461 + d * 365 := by
  have hyear : a * 400 + b * 100 + c * 4 + d + 1 - 1 = a * 400 + b * 100 + c * 4 + d := rfl
  have h₄ : (a * 400 + b * 100 + c * 4 + d) / 4 = a * 100 + b * 25 + c := by omega
  have h₁₀₀ : (a * 400 + b * 100 + c * 4 + d) / 100 = a * 4 + b := by omega
  have h₄₀₀ : (a * 400 + b * 100 + c * 4 + d) / 400 = a := by omega
  unfold daysBeforeYear
  rw [hyear, h₄, h₁₀₀, h₄₀₀]
  omega

/-- Every fourth year, but three of four centuries. -/
theorem isLeap_eq {a b c d : Nat} (hb : b < 4) (hc : c < 25) (hd : d < 4) :
    isLeap (a * 400 + b * 100 + c * 4 + d + 1) = decide (d = 3 ∧ (c ≠ 24 ∨ b = 3)) := by
  unfold isLeap
  refine decide_eq_decide.mpr ?_
  omega

/-- The last day of a leap year. -/
theorem ymd2ord_last {a b c : Nat} (hb : b < 4) (hc : c < 25) (hleap : c ≠ 24 ∨ b = 3) :
    ymd2ord (a * 400 + b * 100 + c * 4 + 3 + 1) 12 31 = a * 146097 + b * 36524
      + c * 1461 + 1461 := by
  have hmonth : daysBeforeMonth true 12 = 335 := rfl
  unfold ymd2ord
  rw [daysBeforeYear_eq hb hc (by decide), isLeap_eq hb hc (by decide), decide_eq_true
    ⟨rfl, hleap⟩, hmonth]

theorem ymd2ord_yearMonthDay {a b c d e : Nat} (hb : b < 4) (hc : c < 25) (hd : d < 4)
    (he : e < 365) :
    ymd2ord (yearMonthDay a b c d e).1 (yearMonthDay a b c d e).2.1 (yearMonthDay a b c d e).2.2
      = a * 146097 + b * 36524 + c * 1461 + d * 365 + (e + 1) := by
  obtain ⟨hday, -, -⟩ := monthDay_spec (decide (d = 3 ∧ (c ≠ 24 ∨ b = 3))) e he
  have hlast : ¬(d = 4 ∨ b = 4) := by omega
  unfold yearMonthDay
  dsimp only
  rw [if_neg hlast]
  unfold ymd2ord
  dsimp only
  rw [daysBeforeYear_eq hb hc hd, isLeap_eq hb hc hd, Nat.add_assoc, hday]

/-- The 366th day of a leap year. -/
theorem yearMonthDay_last (a b c e : Nat) :
    yearMonthDay a b c 4 e = (a * 400 + b * 100 + c * 4 + 3 + 1, 12, 31) := by
  unfold yearMonthDay
  dsimp only
  rw [if_pos (.inl rfl)]
  exact Prod.ext (Nat.add_sub_cancel _ 1) rfl

/-- The last day of 400 years. -/
theorem yearMonthDay_cycle (a : Nat) :
    yearMonthDay a 4 0 0 0 = (a * 400 + 3 * 100 + 24 * 4 + 3 + 1, 12, 31) := by
  unfold yearMonthDay
  dsimp only
  rw [if_pos (.inr rfl)]
  refine Prod.ext ?_ rfl
  show a * 400 + 4 * 100 + 0 * 4 + 0 + 1 - 1 = _
  rw [Nat.add_sub_cancel]

/-- A day is so many 400, 100, 4 and 1 years and days, and the last of them may be one too many. -/
theorem ord2ymd_eq {n : Nat} (h : 0 < n) : ∃ a b c d e,
    n = a * 146097 + b * 36524 + c * 1461 + d * 365 + (e + 1) ∧ ord2ymd n = yearMonthDay a b c d e
      ∧ e < 365 ∧ c < 25 ∧ (b < 4 ∨ b = 4 ∧ c = 0 ∧ d = 0 ∧ e = 0)
      ∧ (d < 4 ∨ d = 4 ∧ e = 0 ∧ (c ≠ 24 ∨ b = 3)) := by
  refine ⟨(n - 1) / 146097, (n - 1) % 146097 / 36524, (n - 1) % 146097 % 36524 / 1461,
    (n - 1) % 146097 % 36524 % 1461 / 365, (n - 1) % 146097 % 36524 % 1461 % 365, ?_, rfl,
    Nat.mod_lt _ (by decide), by omega, by omega, by omega⟩
  have h₁ := Nat.div_add_mod' (n - 1) 146097
  have h₂ := Nat.div_add_mod' ((n - 1) % 146097) 36524
  have h₃ := Nat.div_add_mod' ((n - 1) % 146097 % 36524) 1461
  have h₄ := Nat.div_add_mod' ((n - 1) % 146097 % 36524 % 1461) 365
  rw [← Nat.add_assoc, Nat.add_assoc _ (_ * 365), h₄, Nat.add_assoc _ (_ * 1461), h₃,
    Nat.add_assoc _ (_ * 36524), h₂,
    h₁, Nat.sub_add_cancel h]

/-- **The calendar is one to one**: a day has the number it was made of. -/
theorem ymd2ord_ord2ymd {n : Nat} (h : 0 < n) :
    ymd2ord (ord2ymd n).1 (ord2ymd n).2.1 (ord2ymd n).2.2 = n := by
  obtain ⟨a, b, c, d, e, hn, hord, he, hc, hb, hd⟩ := ord2ymd_eq h
  rw [hord, hn]
  rcases hb with hb | ⟨rfl, rfl, rfl, rfl⟩
  · rcases hd with hd | ⟨rfl, rfl, hleap⟩
    · exact ymd2ord_yearMonthDay hb hc hd he
    · rw [yearMonthDay_last]
      exact (ymd2ord_last (a := a) hb hc hleap).trans (by omega)
  · rw [yearMonthDay_cycle]
    exact (ymd2ord_last (a := a) (b := 3) (c := 24) (by decide) (by decide)
      (.inr rfl)).trans (by omega)

/-- `_check_date_fields`. -/
structure DateFields (year month day : Nat) : Prop where
  inYears : 0 < year ∧ year ≤ 9999
  inMonths : 0 < month ∧ month ≤ 12
  inDays : 0 < day ∧ day ≤ daysInMonth (isLeap year) month

instance (year month day : Nat) : Decidable (DateFields year month day) :=
  decidable_of_iff ((0 < year ∧ year ≤ 9999) ∧ (0 < month ∧ month ≤ 12)
      ∧ 0 < day ∧ day ≤ daysInMonth (isLeap year) month)
    ⟨fun h => ⟨h.1, h.2.1, h.2.2⟩, fun h => ⟨h.inYears, h.inMonths, h.inDays⟩⟩

/-- `date.max.toordinal()`: the last day of the year 9999. -/
def maxOrdinal : Nat := 3652059

/-- The days there are are dates. -/
theorem dateFields_ord2ymd {n : Nat} (h : 0 < n) (hn : n ≤ maxOrdinal) :
    DateFields (ord2ymd n).1 (ord2ymd n).2.1 (ord2ymd n).2.2 := by
  have hmax : n ≤ 3652059 := hn
  obtain ⟨a, b, c, d, e, hsum, hord, he, hc, hb, hd⟩ := ord2ymd_eq h
  rw [hord]
  have hlast : ∀ {a b c : Nat}, b < 4 → c < 25 → (c ≠ 24 ∨ b = 3) → a * 400 + b * 100 + c * 4
    + 3 + 1 ≤ 9999 →
      DateFields (a * 400 + b * 100 + c * 4 + 3 + 1) 12 31 :=
    fun _ _ _ hy => ⟨⟨Nat.succ_pos _, hy⟩, by decide, ⟨by decide, Nat.le_refl 31⟩⟩
  rcases hb with hb | ⟨rfl, rfl, rfl, rfl⟩
  · rcases hd with hd | ⟨rfl, rfl, hleap⟩
    · obtain ⟨-, hmonth, hday⟩ := monthDay_spec (decide (d = 3 ∧ (c ≠ 24 ∨ b = 3))) e he
      have hno : ¬(d = 4 ∨ b = 4) := by omega
      unfold yearMonthDay
      dsimp only
      rw [if_neg hno]
      refine ⟨⟨Nat.succ_pos _, by dsimp only; omega⟩, hmonth, ?_⟩
      dsimp only
      rw [isLeap_eq hb hc hd]
      exact hday
    · rw [yearMonthDay_last]
      exact hlast hb hc hleap (by omega)
  · rw [yearMonthDay_cycle]
    exact @hlast a 3 24 (by decide) (by decide) (.inr rfl) (by omega)

/-! ## The text -/

/-- `'%0kd' % n`. -/
def pad (k n : Nat) : List Char := (Nat.toDigits 10 n).leftpad k '0'

/-- The microseconds of a day. -/
def dayTicks : Nat := 86400000000

/-- `datetime.isoformat()` in UTC. -/
def isoformat (t : Nat) : List Char :=
  let date := ord2ymd (t / dayTicks + 1)
  let us := t % dayTicks
  pad 4 date.1 ++ '-' :: (pad 2 date.2.1 ++ '-'
    :: (pad 2 date.2.2 ++ 'T' :: (pad 2 (us / 3600000000)
    ++ ':' :: (pad 2 (us / 60000000 % 60) ++ ':' :: (pad 2 (us / 1000000 % 60)
      ++ ((if us % 1000000 = 0 then [] else '.' :: pad 6 (us % 1000000))
        ++ ['+', '0', '0', ':', '0', '0']))))))

/-- `k` digits. -/
def readPad (k : Nat) (cs : List Char) : Option (Nat × List Char) :=
  if (cs.take k).length = k ∧ (cs.take k).all Char.isDigit then
    some (Nat.ofDigitChars 10 (cs.take k) 0, cs.drop k)
  else none

/-- `k` digits, and a separator. -/
def readField (k : Nat) (sep : Char) (cs : List Char) : Option (Nat × List Char) :=
  (readPad k cs).bind fun x => if x.2.head? = some sep then some (x.1, x.2.tail) else none

/-- The microseconds, if there are any. -/
def readFraction (cs : List Char) : Option (Nat × List Char) :=
  if cs.head? = some '.' then readPad 6 cs.tail else some (0, cs)

/-- `datetime.fromisoformat` on the texts of that form. -/
def fromIsoformat (cs : List Char) : Option Nat :=
  (readField 4 '-' cs).bind fun year => (readField 2 '-' year.2).bind fun month =>
  (readField 2 'T' month.2).bind fun day => (readField 2 ':' day.2).bind fun hour =>
  (readField 2 ':' hour.2).bind fun minute => (readPad 2 minute.2).bind fun second =>
  (readFraction second.2).bind fun us =>
    if us.2 = ['+', '0', '0', ':', '0', '0'] ∧ DateFields year.1 month.1 day.1
      ∧ hour.1 < 24 ∧ minute.1 < 60
        ∧ second.1 < 60 then
      some ((ymd2ord year.1 month.1 day.1 - 1) * dayTicks
        + (hour.1 * 3600000000 + minute.1 * 60000000 + second.1 * 1000000 + us.1))
    else none

theorem readPad_pad {k n : Nat} (hk : 0 < k) (hn : n < 10 ^ k) (rest : List Char) :
    readPad k (pad k n ++ rest) = some (n, rest) := by
  have hlen : (pad k n).length = k := by
    have hle := (Nat.length_toDigits_le_iff (b := 10) (n := n) (by decide) hk).mpr hn
    simp only [pad, List.leftpad, List.length_append, List.length_replicate]
    omega
  have hdigits : (pad k n).all Char.isDigit = true := by
    rw [List.all_eq_true]
    intro c hc
    rcases List.mem_append.mp hc with hc | hc
    · rw [(List.mem_replicate.mp hc).2]
      rfl
    · exact Nat.isDigit_of_mem_toDigits (by decide) (by decide) hc
  have hvalue : Nat.ofDigitChars 10 (pad k n) 0 = n := by
    show Nat.ofDigitChars 10 (List.replicate _ '0' ++ Nat.toDigits 10 n) 0 = n
    rw [Nat.ofDigitChars_append, Nat.ofDigitChars_replicate_zero, Nat.mul_zero,
      Nat.ofDigitChars_ten_toDigits]
  have htake : (pad k n ++ rest).take k = pad k n := List.take_left' hlen
  have hdrop : (pad k n ++ rest).drop k = rest := List.drop_left' hlen
  rw [readPad, htake, hdrop, if_pos ⟨hlen, hdigits⟩, hvalue]

theorem readField_pad {k n : Nat} (hk : 0 < k) (hn : n < 10 ^ k) (sep : Char) (rest : List Char) :
    readField k sep (pad k n ++ sep :: rest) = some (n, rest) := by
  rw [readField, readPad_pad hk hn, Option.bind_some]
  exact if_pos rfl

/-- **An instant is read back from its text**, up to the end of the calendar. -/
theorem fromIsoformat_isoformat {t : Nat} (h : t < maxOrdinal * dayTicks) :
    fromIsoformat (isoformat t) = some t := by
  have hday : t / dayTicks < maxOrdinal := Nat.div_lt_of_lt_mul (by rwa [Nat.mul_comm])
  have hdate := dateFields_ord2ymd (n := t / dayTicks + 1) (Nat.succ_pos _) hday
  have hord := ymd2ord_ord2ymd (n := t / dayTicks + 1) (Nat.succ_pos _)
  have hus : t % dayTicks < 86400000000 := Nat.mod_lt t (by decide)
  have hsum := Nat.div_add_mod' t dayTicks
  unfold isoformat
  dsimp only
  generalize ord2ymd (t / dayTicks + 1) = date at hdate hord ⊢
  generalize t % dayTicks = us at hus hsum ⊢
  have hyear : date.1 < 10 ^ 4 := Nat.lt_succ_of_le hdate.inYears.2
  have hmonth : date.2.1 < 10 ^ 2 := Nat.lt_of_le_of_lt hdate.inMonths.2 (by decide)
  have hday : date.2.2 < 10 ^ 2 := by
    refine Nat.lt_of_le_of_lt hdate.inDays.2 ?_
    unfold daysInMonth
    repeat' split
    all_goals decide
  have hhour : us / 3600000000 < 10 ^ 2 := by omega
  have hfraction : readFraction ((if us % 1000000 = 0 then [] else '.' :: pad 6 (us % 1000000))
      ++ ['+', '0', '0', ':', '0', '0']) = some (us % 1000000, ['+', '0', '0', ':', '0', '0']) := by
    split
    · rename_i hzero
      rw [hzero]
      rfl
    · show readPad 6 (pad 6 (us % 1000000) ++ _) = _
      exact readPad_pad (by decide) (Nat.mod_lt us (by decide)) _
  unfold fromIsoformat
  rw [readField_pad (by decide) hyear, Option.bind_some]
  dsimp only
  rw [readField_pad (by decide) hmonth, Option.bind_some]
  dsimp only
  rw [readField_pad (by decide) hday, Option.bind_some]
  dsimp only
  rw [readField_pad (by decide) hhour, Option.bind_some]
  dsimp only
  rw [readField_pad (by decide) (by omega), Option.bind_some]
  dsimp only
  rw [readPad_pad (by decide) (by omega), Option.bind_some]
  dsimp only
  rw [hfraction, Option.bind_some]
  dsimp only
  rw [if_pos ⟨rfl, hdate, by omega, by omega, by omega⟩, hord, Nat.add_sub_cancel]
  have hticks : us / 3600000000 * 3600000000 + us / 60000000 % 60 * 60000000
    + us / 1000000 % 60 * 1000000
      + us % 1000000 = us := by omega
  rw [hticks, hsum]

end Wire
