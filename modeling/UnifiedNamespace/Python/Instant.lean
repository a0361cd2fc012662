/-
# `Python.Instant` — aware UTC datetimes as instants

A `datetime` with tzinfo UTC, as the database driver returns it, is its number of
microseconds since 1970, an integer.  `isoformat` is the text that keys and fingerprints are
built from; different instants have different texts (`isoformat_injective`).

The calendar is the proleptic Gregorian one.  `datetime` stops at the years 1 and
9999; past them the text here has a signed year, which no `datetime` prints.
-/
import UnifiedNamespace.Python.Datetime

namespace Py

/-- The microseconds of a `timedelta`. -/
def seconds (n : ℤ) : ℤ := n * 1000000

def minutes (n : ℤ) : ℤ := n * 60000000

def hours (n : ℤ) : ℤ := n * 3600000000

def days (n : ℤ) : ℤ := n * 86400000000

/-! ## The calendar -/

/-- A year, a month and a day. -/
structure Civil where
  year : ℤ
  month : ℤ
  day : ℤ
  deriving DecidableEq

/-- A day of an era of 400 years that starts in March: the centuries, the leap cycles and the years
before it, and the day of its year. -/
structure EraDay where
  century : ℤ
  cycle : ℤ
  year : ℤ
  day : ℤ

def eraDay (doe : ℤ) : EraDay :=
  let century := min (doe / 36524) 3
  let doc := doe - 36524 * century
  let doq := doc % 1461
  { century, cycle := doc / 1461, year := min (doq / 365) 3, day := doq - 365 * min (doq / 365) 3 }

/-- The date `n` days after 1970-01-01. -/
def civilOfDays (n : ℤ) : Civil :=
  let e := eraDay ((n + 719468) % 146097)
  let mp := (5 * e.day + 2) / 153
  let month := if mp < 10 then mp + 3 else mp - 9
  { year := 400 * ((n + 719468) / 146097) + 100 * e.century + 4 * e.cycle + e.year +
      if month ≤ 2 then 1 else 0
    month := month
    day := e.day - (153 * mp + 2) / 5 + 1 }

theorem eraDay_bounds {doe : ℤ} (h : 0 ≤ doe ∧ doe < 146097) :
    (0 ≤ (eraDay doe).century ∧ (eraDay doe).century ≤ 3) ∧
      (0 ≤ (eraDay doe).cycle ∧ (eraDay doe).cycle ≤ 24) ∧
      (0 ≤ (eraDay doe).year ∧ (eraDay doe).year ≤ 3) ∧
      0 ≤ (eraDay doe).day ∧ (eraDay doe).day ≤ 365 := by
  simp only [eraDay]
  omega

theorem eraDay_sum (doe : ℤ) :
    doe = 36524 * (eraDay doe).century + 1461 * (eraDay doe).cycle + 365 * (eraDay doe).year +
      (eraDay doe).day := by
  simp only [eraDay]
  omega

theorem civilOfDays_bounds (n : ℤ) :
    (1 ≤ (civilOfDays n).month ∧ (civilOfDays n).month ≤ 12) ∧
      1 ≤ (civilOfDays n).day ∧ (civilOfDays n).day ≤ 31 := by
  obtain ⟨-, -, -, hday⟩ := @eraDay_bounds ((n + 719468) % 146097) (by omega)
  simp only [civilOfDays]
  split <;> omega

theorem civilOfDays_injective {n k : ℤ} (h : civilOfDays n = civilOfDays k) : n = k := by
  have hn := @eraDay_bounds ((n + 719468) % 146097) (by omega)
  have hk := @eraDay_bounds ((k + 719468) % 146097) (by omega)
  have hsum := eraDay_sum ((n + 719468) % 146097)
  have hsum' := eraDay_sum ((k + 719468) % 146097)
  simp only [civilOfDays, Civil.mk.injEq] at h
  obtain ⟨hyear, hmonth, hday⟩ := h
  generalize eraDay ((n + 719468) % 146097) = e at *
  generalize eraDay ((k + 719468) % 146097) = f at *
  have hmp : (5 * e.day + 2) / 153 = (5 * f.day + 2) / 153 := by
    clear hyear hday
    split at hmonth <;> split at hmonth <;> omega
  rw [hmp] at hyear hday
  have hyears : 400 * ((n + 719468) / 146097) + 100 * e.century + 4 * e.cycle + e.year =
      400 * ((k + 719468) / 146097) + 100 * f.century + 4 * f.cycle + f.year := by omega
  have hdays : e.day = f.day := by omega
  clear hyear hmonth hday hmp
  have hera : (n + 719468) / 146097 = (k + 719468) / 146097 := by omega
  have hcentury : e.century = f.century := by omega
  have hcycle : e.cycle = f.cycle := by omega
  omega

/-! ## Text -/

/-- Four digits in the years that `datetime` has. -/
def yearText (y : ℤ) : Str :=
  if 0 ≤ y ∧ y < 10000 then padDigits 4 y.toNat
  else (if y < 0 then 45 else 43) :: decimal y.natAbs

def civilText (c : Civil) : Str :=
  yearText c.year ++ 45 :: (padDigits 2 c.month.toNat ++ 45 :: padDigits 2 c.day.toNat)

/-- The microseconds only when there are some. -/
def timeText (us : Nat) : Str :=
  padDigits 2 (us / 3600000000) ++ 58 :: (padDigits 2 (us / 60000000 % 60) ++
    58 :: (padDigits 2 (us / 1000000 % 60) ++
      if us % 1000000 = 0 then [] else 46 :: padDigits 6 (us % 1000000)))

/-- `value.isoformat()` of an aware UTC datetime. -/
def isoformat (t : ℤ) : Str :=
  civilText (civilOfDays (t / 86400000000)) ++
    84 :: (timeText (t % 86400000000).toNat ++ lit "+00:00")

example : isoformat 0 = lit "1970-01-01T00:00:00+00:00" := by decide

example : isoformat (days 20709 + hours 6 + 1) = lit "2026-09-13T06:00:00.000001+00:00" := by decide

theorem padDigits_injective {width a b : Nat} (ha : a < 10 ^ width) (hb : b < 10 ^ width)
    (h : padDigits width a = padDigits width b) : a = b := by
  have hp := parseDigits_of_lt ha []
  rw [h, parseDigits_of_lt hb []] at hp
  exact (Prod.mk.inj (Option.some.inj hp)).1.symm

theorem yearText_injective {y z : ℤ} (h : yearText y = yearText z) : y = z := by
  have hsign : ∀ {c n : Nat} {s : Str}, isDigit c = false → padDigits 4 n ≠ c :: s := by
    intro c n s hc he
    have hd := @digit_padDigits 4 n c (he ▸ List.mem_cons_self)
    rw [hc] at hd
    cases hd
  have habs : ∀ {a b : Nat}, decimal a = decimal b → a = b := by
    intro a b he
    rw [← ofDecimal_decimal a, he, ofDecimal_decimal]
  have hmark : ∀ x : ℤ, isDigit (if x < 0 then 45 else 43) = false := by
    intro x
    split <;> rfl
  unfold yearText at h
  by_cases hy : 0 ≤ y ∧ y < 10000 <;> by_cases hz : 0 ≤ z ∧ z < 10000
  · rw [if_pos hy, if_pos hz] at h
    have := padDigits_injective (by omega) (by omega) h
    omega
  · rw [if_pos hy, if_neg hz] at h
    exact absurd h (hsign (hmark z))
  · rw [if_neg hy, if_pos hz] at h
    exact absurd h.symm (hsign (hmark y))
  · rw [if_neg hy, if_neg hz] at h
    obtain ⟨hc, hd⟩ := List.cons.inj h
    have := habs hd
    split at hc <;> split at hc <;> omega

theorem civilText_injective {n k : ℤ}
    (h : civilText (civilOfDays n) = civilText (civilOfDays k)) : n = k := by
  obtain ⟨⟨hm, hm'⟩, hd, hd'⟩ := civilOfDays_bounds n
  obtain ⟨⟨hk, hk'⟩, he, he'⟩ := civilOfDays_bounds k
  obtain ⟨hyear, hrest⟩ := List.append_inj' h (by simp [length_padDigits])
  obtain ⟨hmonth, hday⟩ := List.append_inj (List.cons.inj hrest).2 (by simp [length_padDigits])
  have hmonth' := padDigits_injective (by omega) (by omega) hmonth
  have hday' := padDigits_injective (by omega) (by omega) (List.cons.inj hday).2
  refine civilOfDays_injective ?_
  have hyear' := yearText_injective hyear
  have hcivil : ∀ {c e : Civil}, c.year = e.year → c.month = e.month → c.day = e.day → c = e := by
    intro c e h₁ h₂ h₃
    cases c
    cases e
    rw [Civil.mk.injEq]
    exact ⟨h₁, h₂, h₃⟩
  exact hcivil hyear' (by omega) (by omega)

theorem timeText_injective {a b : Nat} (ha : a < 86400000000) (hb : b < 86400000000)
    (h : timeText a = timeText b) : a = b := by
  obtain ⟨hhour, h⟩ := List.append_inj h (by simp [length_padDigits])
  obtain ⟨hminute, h⟩ := List.append_inj (List.cons.inj h).2 (by simp [length_padDigits])
  obtain ⟨hsecond, h⟩ := List.append_inj (List.cons.inj h).2 (by simp [length_padDigits])
  have hhour' := padDigits_injective (by omega) (by omega) hhour
  have hminute' := padDigits_injective (by omega) (by omega) hminute
  have hsecond' := padDigits_injective (by omega) (by omega) hsecond
  have hmicro : a % 1000000 = b % 1000000 := by
    split at h <;> split at h
    · omega
    · cases h
    · cases h
    · exact padDigits_injective (by omega) (by omega) (List.cons.inj h).2
  omega

/-- There is a full stop exactly when there are microseconds. -/
theorem mem_timeText (us : Nat) : 46 ∈ timeText us ↔ us % 1000000 ≠ 0 := by
  have hpad : ∀ width n, 46 ∉ padDigits width n := by
    intro width n hm
    exact absurd (digit_padDigits hm) (by decide)
  unfold timeText
  split <;> simp_all

theorem notMem_civilText (c : Civil) : 46 ∉ civilText c := by
  have hpad : ∀ width n, 46 ∉ padDigits width n := by
    intro width n hm
    exact absurd (digit_padDigits hm) (by decide)
  have hdec : ∀ n, 46 ∉ decimal n := by
    intro n hm
    exact absurd (isDigit_of_mem_decimal hm) (by decide)
  unfold civilText yearText
  split <;> simp [hpad, hdec]
  split <;> simp

theorem length_timeText (us : Nat) :
    (timeText us).length = if us % 1000000 = 0 then 8 else 15 := by
  unfold timeText
  split <;> simp [length_padDigits]

theorem isoformat_injective {s t : ℤ} (h : isoformat s = isoformat t) : s = t := by
  have hmod : ∀ r : ℤ, (r % 86400000000).toNat < 86400000000 := by
    intro r
    omega
  -- both or neither have microseconds, so the times have one length
  have hlen : (timeText (s % 86400000000).toNat).length =
      (timeText (t % 86400000000).toNat).length := by
    have hmem : ∀ r : ℤ, 46 ∈ isoformat r ↔ (r % 86400000000).toNat % 1000000 ≠ 0 := by
      intro r
      simp [isoformat, notMem_civilText, mem_timeText, lit]
    have hiff := (hmem s).symm.trans (h ▸ hmem t)
    rw [not_iff_not] at hiff
    rw [length_timeText, length_timeText]
    simp only [hiff]
  obtain ⟨hdate, htime⟩ := List.append_inj' h (by simp [hlen])
  have hday := civilText_injective hdate
  have hus := timeText_injective (hmod s) (hmod t)
    (List.append_cancel_right (List.cons.inj htime).2)
  omega

end Py
