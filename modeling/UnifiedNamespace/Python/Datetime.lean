/-
# `Python.Datetime` — `fromisoformat`, `astimezone(UTC)` and `strftime`

A `Datetime` carries the ranges that the `datetime` constructor checks, so one
that is out of range cannot be built.  An offset is `utcoffset()` in
microseconds, less than a day either way; `none` is a naive `datetime`.

`fromisoformat` takes the ISO 8601 formats the `datetime` module documents:
calendar and week dates with or without dashes, any one separator character, a
time with or without colons, a fraction cut to microseconds, `24:00` as midnight
of the next day, and `Z` or a signed offset.
-/
import UnifiedNamespace.Python.Str

namespace Py

/-! ## Dates -/

def isLeap (y : Nat) : Bool := decide (y % 4 = 0 ∧ (y % 100 ≠ 0 ∨ y % 400 = 0))

def daysInMonth (y m : Nat) : Nat :=
  if m = 2 then (if isLeap y then 29 else 28)
  else if m = 4 ∨ m = 6 ∨ m = 9 ∨ m = 11 then 30
  else 31

/-- The range `datetime` checks: `MINYEAR` to `MAXYEAR`. -/
def ValidDate (y m d : Nat) : Prop :=
  1 ≤ y ∧ y ≤ 9999 ∧ 1 ≤ m ∧ m ≤ 12 ∧ 1 ≤ d ∧ d ≤ daysInMonth y m

instance (y m d : Nat) : Decidable (ValidDate y m d) := inferInstanceAs (Decidable (_ ∧ _))

structure Date where
  year : Nat
  month : Nat
  day : Nat
  valid : ValidDate year month day
  deriving DecidableEq

def mkDate (y m d : Nat) : Option Date :=
  if h : ValidDate y m d then some ⟨y, m, d, h⟩ else none

/-- The day after; `none` past the last day of year 9999. -/
def Date.next (d : Date) : Option Date :=
  if d.day < daysInMonth d.year d.month then mkDate d.year d.month (d.day + 1)
  else if d.month < 12 then mkDate d.year (d.month + 1) 1
  else mkDate (d.year + 1) 1 1

/-- The day before; `none` before the first day of year 1. -/
def Date.prev (d : Date) : Option Date :=
  if 1 < d.day then mkDate d.year d.month (d.day - 1)
  else if 1 < d.month then mkDate d.year (d.month - 1) (daysInMonth d.year (d.month - 1))
  else mkDate (d.year - 1) 12 31

def Date.addDays : Nat → Date → Option Date
  | 0, d => some d
  | n + 1, d => d.next.bind (addDays n)

def Date.subDays : Nat → Date → Option Date
  | 0, d => some d
  | n + 1, d => d.prev.bind (subDays n)

def daysBeforeYear (y : Nat) : Nat := (y - 1) * 365 + (y - 1) / 4 - (y - 1) / 100 + (y - 1) / 400

/-- The weekday of 1 January, Monday being 0. -/
def firstWeekday (y : Nat) : Nat := daysBeforeYear y % 7

/-- `_isoweek_to_gregorian`. -/
def isoWeekDate (y week day : Nat) : Option Date :=
  let lastWeek :=
    if firstWeekday y = 3 ∨ (firstWeekday y = 2 ∧ isLeap y) then 53 else 52
  if 1 ≤ week ∧ week ≤ lastWeek ∧ 1 ≤ day ∧ day ≤ 7 then
    -- Week 1 is the one with the first Thursday.
    let offset := (week - 1) * 7 + (day - 1)
    (mkDate y 1 1).bind fun jan =>
      if firstWeekday y ≤ 3 then
        if firstWeekday y ≤ offset then jan.addDays (offset - firstWeekday y)
        else jan.subDays (firstWeekday y - offset)
      else jan.addDays (7 - firstWeekday y + offset)
  else none

/-! ## Datetimes -/

/-- The microseconds of a day. -/
def dayMicros : Nat := 86400000000

structure Datetime where
  date : Date
  hour : Nat
  minute : Nat
  second : Nat
  microsecond : Nat
  valid : hour < 24 ∧ minute < 60 ∧ second < 60 ∧ microsecond < 1000000
  deriving DecidableEq

/-- The first moment of a day. -/
def Date.midnight (date : Date) : Datetime := ⟨date, 0, 0, 0, 0, by decide⟩

theorem validDate_newYear2026 : ValidDate 2026 1 1 := by decide

def mkDatetime (date : Date) (h m s us : Nat) : Option Datetime :=
  if hv : h < 24 ∧ m < 60 ∧ s < 60 ∧ us < 1000000 then some ⟨date, h, m, s, us, hv⟩ else none

/-- Microseconds since midnight. -/
def Datetime.micros (t : Datetime) : Nat :=
  ((t.hour * 60 + t.minute) * 60 + t.second) * 1000000 + t.microsecond

/-- The time of day at `us` microseconds after midnight. -/
def Date.at (d : Date) (us : Nat) : Datetime where
  date := d
  hour := us / 3600000000 % 24
  minute := us / 60000000 % 60
  second := us / 1000000 % 60
  microsecond := us % 1000000
  valid := by
    refine ⟨?_, ?_, ?_, ?_⟩ <;> exact Nat.mod_lt _ (by norm_num)

/-- An aware or naive `datetime`: the fields and `utcoffset()`. -/
abbrev Zoned := Datetime × Option Int

/-- `value.astimezone(UTC)` of an aware value; `none` is `OverflowError`. -/
def astimezoneUtc (t : Datetime) (offset : Int) : Option Datetime :=
  if offset = 0 then some t
  else
    let us := (t.micros : Int) - offset
    if us < 0 then t.date.prev.map fun d => d.at (us + dayMicros).toNat
    else if us < dayMicros then some (t.date.at us.toNat)
    else t.date.next.map fun d => d.at (us - dayMicros).toNat

/-! ## `fromisoformat` -/

/-- `n` digits, all of them required. -/
def parseDigits : Nat → Str → Option (Nat × Str)
  | 0, s => some (0, s)
  | _ + 1, [] => none
  | n + 1, c :: rest =>
      if isDigit c then
        (parseDigits n rest).map fun p => ((c - 48) * 10 ^ n + p.1, p.2)
      else none

/-- `_find_isoformat_datetime_separator`, for at least seven characters. -/
def findSeparator (s : Str) : Option Nat :=
  if s.length = 7 then some 7
  else if s.getD 4 0 = 45 then
    if s.getD 5 0 = 87 then
      if s.length > 8 ∧ s.getD 8 0 = 45 then
        if s.length = 9 then none
        else if s.length > 10 ∧ isDigit (s.getD 10 0) then some 8
        else some 10
      else some 8
    else some 10
  else if s.getD 4 0 = 87 then
    let idx := 7 + ((s.drop 7).takeWhile isDigit).length
    if idx < 9 then some idx
    else if idx % 2 = 0 then some 7
    else some 8
  else some 8

/-- A dash where the format has dashes, nothing where it has none. -/
def dash (hasSep : Bool) (s : Str) : Option Str :=
  if hasSep then
    match s with
    | 45 :: rest => some rest
    | _ => none
  else some s

/-- `_parse_isoformat_date`. -/
def parseDate (s : Str) : Option Date :=
  (parseDigits 4 s).bind fun (year, s₁) =>
    let hasSep := decide (s₁.head? = some 45)
    let s₂ := if hasSep then s₁.tail else s₁
    match s₂ with
    | 87 :: s₃ =>
        (parseDigits 2 s₃).bind fun (week, s₄) =>
          if s₄ = [] then isoWeekDate year week 1
          else
            (dash hasSep s₄).bind fun s₅ =>
              (parseDigits 1 s₅).bind fun (day, s₆) =>
                if s₆ = [] then isoWeekDate year week day else none
    | _ =>
        (parseDigits 2 s₂).bind fun (month, s₃) =>
          (dash hasSep s₃).bind fun s₄ =>
            (parseDigits 2 s₄).bind fun (day, s₅) =>
              if s₅ = [] then mkDate year month day else none

/-- The fraction of a second, cut to microseconds. -/
def parseFraction : Str → Option Nat
  | [] => some 0
  | c :: ds =>
      if (c = 46 ∨ c = 44) ∧ ds ≠ [] ∧ ds.all isDigit then
        some (ofDecimal (ds.take 6) * 10 ^ (6 - ds.length))
      else none

/-- Hours, minutes, seconds and microseconds. -/
abbrev Hms := Nat × Nat × Nat × Nat

/-- A colon where the format has colons, nothing where it has none. -/
def colon (hasSep : Bool) (s : Str) : Option Str :=
  if hasSep then
    match s with
    | 58 :: rest => some rest
    | _ => none
  else some s

/-- `_parse_hh_mm_ss_ff`: `HH[:?MM[:?SS[{.,}fff[fff]]]]`. -/
def parseHms (s : Str) : Option Hms :=
  (parseDigits 2 s).bind fun (h, s₁) =>
    if s₁ = [] then some (h, 0, 0, 0)
    else
      let hasSep := decide (s₁.head? = some 58)
      (colon hasSep s₁).bind fun s₂ =>
        (parseDigits 2 s₂).bind fun (m, s₃) =>
          if s₃ = [] then some (h, m, 0, 0)
          else
            (colon hasSep s₃).bind fun s₄ =>
              (parseDigits 2 s₄).bind fun (sec, s₅) =>
                (parseFraction s₅).map fun us => (h, m, sec, us)

def isZoneStart (c : Nat) : Bool := decide (c = 43 ∨ c = 45 ∨ c = 90)

/-- The zone part of a time: its first sign or `Z`, and what follows. -/
def parseZone : Str → Option (Option Int)
  | [] => some none
  | 90 :: rest => if rest = [] then some (some 0) else none
  | sign :: rest =>
      (parseHms rest).bind fun (h, m, s, us) =>
        if h < 24 ∧ m < 60 ∧ s < 60 then
          let o : Int := (((h * 60 + m) * 60 + s) * 1000000 + us : Nat)
          some (some (if sign = 45 then -o else o))
        else none

/-- The datetime of a date and a parsed time; `24:00` is the next midnight. -/
def combine (d : Date) : Hms → Option Datetime
  | (h, m, s, us) =>
      if h = 24 then
        if m = 0 ∧ s = 0 ∧ us = 0 then d.next.bind fun d' => mkDatetime d' 0 0 0 0 else none
      else mkDatetime d h m s us

/-- `datetime.fromisoformat(s)`; `none` is `ValueError`. -/
def fromisoformat (s : Str) : Option Zoned :=
  if s.length < 7 then none
  else
    (findSeparator s).bind fun loc =>
      (parseDate (s.take loc)).bind fun d =>
        let time := s.drop (loc + 1)
        if time = [] then (mkDatetime d 0 0 0 0).map fun t => (t, none)
        else
          let clock := time.takeWhile fun c => !isZoneStart c
          let zone := time.dropWhile fun c => !isZoneStart c
          (parseHms clock).bind fun hms =>
            (parseZone zone).bind fun offset =>
              (combine d hms).map fun t => (t, offset)

/-! ## `strftime` -/

/-- `n` in `width` digits. -/
def padDigits : Nat → Nat → Str
  | 0, _ => []
  | width + 1, n => digitChar (n / 10 ^ width % 10) :: padDigits width n

def dateText (d : Date) : Str :=
  padDigits 4 d.year ++ 45 :: (padDigits 2 d.month ++ 45 :: padDigits 2 d.day)

def clockText (t : Datetime) : Str :=
  padDigits 2 t.hour ++ 58 :: (padDigits 2 t.minute ++ 58 :: (padDigits 2 t.second ++
    46 :: padDigits 6 t.microsecond))

/-- `value.strftime("%Y-%m-%dT%H:%M:%S.%f")`. -/
def isoText (t : Datetime) : Str := dateText t.date ++ 84 :: clockText t

/-! ## Round trip -/

theorem digit_padDigits {width n c : Nat} (h : c ∈ padDigits width n) : isDigit c = true := by
  induction width with
  | zero => simp [padDigits] at h
  | succ width ih =>
      simp only [padDigits, List.mem_cons] at h
      rcases h with rfl | h
      · exact isDigit_digitChar (Nat.mod_lt _ (by norm_num))
      · exact ih h

theorem length_padDigits (width n : Nat) : (padDigits width n).length = width := by
  induction width with
  | zero => rfl
  | succ width ih => rw [padDigits, List.length_cons, ih]

theorem parseDigits_padDigits (width n : Nat) (rest : Str) :
    parseDigits width (padDigits width n ++ rest) = some (n % 10 ^ width, rest) := by
  induction width with
  | zero => simp [parseDigits, padDigits, Nat.mod_one]
  | succ width ih =>
      have hd : isDigit (digitChar (n / 10 ^ width % 10)) = true :=
        isDigit_digitChar (Nat.mod_lt _ (by norm_num))
      simp only [padDigits, List.cons_append, parseDigits, hd, if_true, ih, Option.map_some]
      rw [Nat.mod_pow_succ, digitChar, Nat.add_sub_cancel, Nat.mul_comm, Nat.add_comm]

theorem parseDigits_of_lt {width n : Nat} (h : n < 10 ^ width) (rest : Str) :
    parseDigits width (padDigits width n ++ rest) = some (n, rest) := by
  rw [parseDigits_padDigits, Nat.mod_eq_of_lt h]

theorem daysInMonth_le (y m : Nat) : daysInMonth y m ≤ 31 := by
  unfold daysInMonth
  split_ifs <;> omega

theorem parseDate_dateText (d : Date) : parseDate (dateText d) = some d := by
  obtain ⟨y, m, day, hv⟩ := d
  have hdim := daysInMonth_le y m
  have hy : y < 10 ^ 4 := by have := hv.2.1; omega
  have hm : m < 10 ^ 2 := by have := hv.2.2.2.1; omega
  have hday : day < 10 ^ 2 := by have := hv.2.2.2.2.2; omega
  have hW : digitChar (m / 10 ^ 1 % 10) ≠ 87 := by
    have := Nat.mod_lt (m / 10 ^ 1) (show 0 < 10 by norm_num)
    simp only [digitChar]
    omega
  have hweek : ∀ s₃ : Str, padDigits 2 m ++ 45 :: padDigits 2 day ≠ 87 :: s₃ :=
    fun s₃ h => hW (List.cons.inj h).1
  have emonth := parseDigits_of_lt hm (45 :: padDigits 2 day)
  have eday := parseDigits_of_lt hday []
  rw [List.append_nil] at eday
  rw [parseDate, dateText, parseDigits_of_lt hy]
  simp only [Option.bind_some, List.head?_cons, decide_true, if_true, List.tail_cons]
  rw [emonth]
  simp [dash, eday, mkDate, hv]

theorem parseHms_clockText (t : Datetime) :
    parseHms (clockText t) = some (t.hour, t.minute, t.second, t.microsecond) := by
  obtain ⟨hh, hm, hs, hus⟩ := t.valid
  have eus : ofDecimal (padDigits 6 t.microsecond) = t.microsecond := by
    simp only [padDigits, ofDecimal, List.foldl_cons, List.foldl_nil, digitChar,
      Nat.add_sub_cancel]
    omega
  have efrac : parseFraction (46 :: padDigits 6 t.microsecond) = some t.microsecond := by
    have hall : (padDigits 6 t.microsecond).all isDigit = true :=
      List.all_eq_true.mpr fun _ h => digit_padDigits h
    have hlen := length_padDigits 6 t.microsecond
    have hne : padDigits 6 t.microsecond ≠ [] := by
      intro h
      rw [h] at hlen
      cases hlen
    have htake : (padDigits 6 t.microsecond).take 6 = padDigits 6 t.microsecond :=
      List.take_of_length_le (by omega)
    rw [parseFraction, if_pos ⟨Or.inl rfl, hne, hall⟩, htake, eus, hlen, Nat.sub_self, pow_zero,
      Nat.mul_one]
  unfold parseHms clockText
  rw [parseDigits_of_lt (show t.hour < 10 ^ 2 by omega)]
  simp only [Option.bind_some, reduceCtorEq, if_false, List.head?_cons, decide_true, colon, if_true]
  rw [parseDigits_of_lt (show t.minute < 10 ^ 2 by omega)]
  simp only [Option.bind_some, reduceCtorEq, if_false]
  rw [parseDigits_of_lt (show t.second < 10 ^ 2 by omega)]
  simp only [Option.bind_some, efrac, Option.map_some]

theorem isZoneStart_digit {c : Nat} (h : isDigit c = true) : isZoneStart c = false := by
  rw [isDigit_iff] at h
  exact decide_eq_false (by omega)

theorem isZoneStart_clockText {t : Datetime} {c : Nat} (h : c ∈ clockText t) :
    isZoneStart c = false := by
  simp only [clockText, List.mem_append, List.mem_cons] at h
  rcases h with h | rfl | h | rfl | h | rfl | h
  · exact isZoneStart_digit (digit_padDigits h)
  · rfl
  · exact isZoneStart_digit (digit_padDigits h)
  · rfl
  · exact isZoneStart_digit (digit_padDigits h)
  · rfl
  · exact isZoneStart_digit (digit_padDigits h)

theorem length_dateText (d : Date) : (dateText d).length = 10 := by
  simp [dateText, length_padDigits]

theorem findSeparator_dateText (d : Date) (rest : Str) :
    findSeparator (dateText d ++ 84 :: rest) = some 10 := by
  have hW : digitChar (d.month / 10 % 10) ≠ 87 := by
    have := Nat.mod_lt (d.month / 10) (show 0 < 10 by norm_num)
    simp only [digitChar]
    omega
  simp [findSeparator, dateText, padDigits, hW]

/-- The text of a UTC time reads back as that time at offset zero. -/
theorem fromisoformat_isoText (t : Datetime) :
    fromisoformat (isoText t ++ lit "+00:00") = some (t, some 0) := by
  have hlen := length_dateText t.date
  have etext : isoText t ++ lit "+00:00" = dateText t.date ++ 84 :: (clockText t ++ lit "+00:00") := by
    simp [isoText]
  have etake : (dateText t.date ++ 84 :: (clockText t ++ lit "+00:00")).take 10 = dateText t.date := by
    rw [← hlen, List.take_left]
  have edrop : (dateText t.date ++ 84 :: (clockText t ++ lit "+00:00")).drop 11
      = clockText t ++ lit "+00:00" := by
    rw [← List.drop_drop (i := 1) (j := 10), ← hlen, List.drop_left]
    rfl
  have hclock : ∀ c ∈ clockText t, (!isZoneStart c) = true := by
    intro c hc
    rw [isZoneStart_clockText hc]
    rfl
  have eclock : (clockText t ++ lit "+00:00").takeWhile (fun c => !isZoneStart c) = clockText t := by
    rw [List.takeWhile_append_of_pos hclock]
    simp [lit, isZoneStart]
  have ezone : (clockText t ++ lit "+00:00").dropWhile (fun c => !isZoneStart c) = lit "+00:00" := by
    rw [List.dropWhile_append_of_pos hclock]
    simp [lit, isZoneStart]
  have hz : parseZone (lit "+00:00") = some (some 0) := by decide
  have ecomb : combine t.date (t.hour, t.minute, t.second, t.microsecond) = some t := by
    have h24 : t.hour ≠ 24 := by have := t.valid.1; omega
    rw [combine, if_neg h24, mkDatetime, dif_pos t.valid]
  have hlong : ¬ (dateText t.date ++ 84 :: (clockText t ++ lit "+00:00")).length < 7 := by
    rw [List.length_append, hlen]
    omega
  have hne : clockText t ++ lit "+00:00" ≠ [] := by simp [lit]
  rw [etext, fromisoformat, if_neg hlong, findSeparator_dateText]
  simp only [Option.bind_some, etake, parseDate_dateText, edrop, if_neg hne, eclock, ezone,
    parseHms_clockText, hz, ecomb, Option.map_some]

/-- `value.replace("Z", "+00:00")`. -/
def replaceZ (s : Str) : Str := s.flatMap fun c => if c = 90 then lit "+00:00" else [c]

theorem replaceZ_isoText (t : Datetime) :
    replaceZ (isoText t ++ [90]) = isoText t ++ lit "+00:00" := by
  have hkeep : ∀ s : Str, (∀ c ∈ s, c ≠ 90) → replaceZ s = s := by
    intro s
    induction s with
    | nil => intro _; rfl
    | cons c s ih =>
        intro h
        have hc : c ≠ 90 := h c (by simp)
        have := ih fun x hx => h x (by simp [hx])
        simp only [replaceZ, List.flatMap_cons, if_neg hc] at this ⊢
        rw [this]
        rfl
  have hdigit : ∀ {w n c : Nat}, c ∈ padDigits w n → c ≠ 90 := by
    intro w n c h e
    have := digit_padDigits h
    rw [isDigit_iff] at this
    omega
  have hiso : ∀ c ∈ isoText t, c ≠ 90 := by
    intro c hc
    simp only [isoText, dateText, clockText, List.mem_append, List.mem_cons] at hc
    rcases hc with (h | rfl | h | rfl | h) | rfl | h | rfl | h | rfl | h | rfl | h
    all_goals first | exact hdigit h | decide
  rw [← hkeep (isoText t) hiso]
  simp only [replaceZ, List.flatMap_append]
  congr 1
  have := hkeep (isoText t) hiso
  simp only [replaceZ] at this
  rw [this, this]

end Py
