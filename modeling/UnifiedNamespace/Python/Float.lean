/-
# `Python.Float` — IEEE binary64 as the rationals it holds

A finite Python `float` is a sign and a magnitude, and a magnitude is a rational
of the form `m · 2^e` with `m < 2^53` and `e ≥ -1074`, below `2^1024`.  Every
operation the development needs (reading a literal, converting an integer,
dividing) is the exact rational result followed by one rounding, `roundMag`:
nearest, ties to even.

What the rest uses: rounding fixes what is already a double
(`IsDouble.roundMag_eq`), integers below `2^53` are doubles, and for `q ≥ 1`
rounding stays within a factor of two (`half_le_roundMag`, `roundMag_le_two`).
`repr` prints the shortest digits that read back, and `reprDigits_value` says
that they do.
-/
import UnifiedNamespace.Python.Str

namespace Py

/-! ## The doubles among the rationals -/

/-- `q` is the magnitude of a finite double. -/
def IsDouble (q : ℚ) : Prop :=
  (∃ (m : ℕ) (e : ℤ), m < 2 ^ 53 ∧ -1074 ≤ e ∧ q = m * (2 : ℚ) ^ e) ∧ q < 2 ^ 1024

/-- Nearest integer, ties to even. -/
def roundHalfEven (q : ℚ) : ℤ :=
  let r := q - ⌊q⌋
  if r < 1 / 2 then ⌊q⌋
  else if 1 / 2 < r then ⌊q⌋ + 1
  else if ⌊q⌋ % 2 = 0 then ⌊q⌋ else ⌊q⌋ + 1

/-- The exponent of the last place of the double nearest to `q`. -/
def ulpExp (q : ℚ) : ℤ := max (-1074) (Int.log 2 q - 52)

/-- A non-negative rational rounded to 53 significant bits. -/
def roundMag (q : ℚ) : ℚ := roundHalfEven (q / (2 : ℚ) ^ ulpExp q) * (2 : ℚ) ^ ulpExp q

theorem two_zpow_pos (e : ℤ) : (0 : ℚ) < (2 : ℚ) ^ e := zpow_pos (by norm_num) e

theorem roundHalfEven_intCast (n : ℤ) : roundHalfEven n = n := by
  simp [roundHalfEven]

theorem floor_le_roundHalfEven (q : ℚ) : ⌊q⌋ ≤ roundHalfEven q := by
  unfold roundHalfEven
  dsimp only
  split_ifs <;> omega

theorem roundHalfEven_le_floor_add_one (q : ℚ) : roundHalfEven q ≤ ⌊q⌋ + 1 := by
  unfold roundHalfEven
  dsimp only
  split_ifs <;> omega

theorem roundHalfEven_nonneg {q : ℚ} (h : 0 ≤ q) : 0 ≤ roundHalfEven q :=
  le_trans (Int.floor_nonneg.mpr h) (floor_le_roundHalfEven q)

/-- A value below an integer never rounds above it. -/
theorem roundHalfEven_le_of_lt {q : ℚ} {n : ℤ} (h : q < n) : roundHalfEven q ≤ n := by
  have h1 : ⌊q⌋ < n := Int.floor_lt.mpr h
  have h2 := roundHalfEven_le_floor_add_one q
  omega

theorem lt_two_zpow_ulpExp (q : ℚ) : q < (2 : ℚ) ^ (ulpExp q + 53) := by
  have h := Int.lt_zpow_succ_log_self (b := 2) (by norm_num) q
  refine lt_of_lt_of_le (by simpa using h) ?_
  apply zpow_le_zpow_right₀ (by norm_num)
  unfold ulpExp
  omega

theorem scaled_lt (q : ℚ) : q / (2 : ℚ) ^ ulpExp q < 2 ^ 53 := by
  rw [div_lt_iff₀ (two_zpow_pos _)]
  have h := lt_two_zpow_ulpExp q
  rwa [zpow_add₀ (by norm_num), mul_comm] at h

theorem roundMag_nonneg {q : ℚ} (h : 0 ≤ q) : 0 ≤ roundMag q := by
  have h1 : 0 ≤ q / (2 : ℚ) ^ ulpExp q := div_nonneg h (two_zpow_pos _).le
  have h2 : (0 : ℚ) ≤ roundHalfEven (q / (2 : ℚ) ^ ulpExp q) := by
    exact_mod_cast roundHalfEven_nonneg h1
  exact mul_nonneg h2 (two_zpow_pos _).le

/-- The result of rounding is a double, unless it overflowed. -/
theorem isDouble_roundMag {q : ℚ} (h : 0 ≤ q) (hlt : roundMag q < 2 ^ 1024) :
    IsDouble (roundMag q) := by
  refine ⟨?_, hlt⟩
  have hx : 0 ≤ q / (2 : ℚ) ^ ulpExp q := div_nonneg h (two_zpow_pos _).le
  have hn := roundHalfEven_nonneg hx
  have hle : roundHalfEven (q / (2 : ℚ) ^ ulpExp q) ≤ 2 ^ 53 :=
    roundHalfEven_le_of_lt (by exact_mod_cast scaled_lt q)
  have he : -1074 ≤ ulpExp q := le_max_left _ _
  obtain ⟨m, hm⟩ := Int.eq_ofNat_of_zero_le hn
  rcases lt_or_eq_of_le hle with hlt53 | heq
  · refine ⟨m, ulpExp q, ?_, he, ?_⟩
    · omega
    · simp only [roundMag, hm]
      norm_cast
  · -- rounding up to the next power of two
    refine ⟨2 ^ 52, ulpExp q + 1, by norm_num, by omega, ?_⟩
    simp only [roundMag, heq]
    rw [zpow_add₀ (by norm_num)]
    push_cast
    ring

/-- The last place of a double is no finer than the place `ulpExp` picks. -/
theorem ulpExp_le {m : ℕ} {e : ℤ} (hm : m < 2 ^ 53) (he : -1074 ≤ e) (hm0 : m ≠ 0) :
    ulpExp (m * (2 : ℚ) ^ e) ≤ e := by
  have hpos : (0 : ℚ) < m * (2 : ℚ) ^ e :=
    mul_pos (by exact_mod_cast Nat.pos_of_ne_zero hm0) (two_zpow_pos e)
  have hlog : Int.log 2 ((m : ℚ) * (2 : ℚ) ^ e) < e + 53 := by
    rw [← Int.lt_zpow_iff_log_lt (by norm_num) hpos]
    have : (m : ℚ) < 2 ^ 53 := by exact_mod_cast hm
    push_cast
    rw [zpow_add₀ (by norm_num), mul_comm]
    exact mul_lt_mul_of_pos_left (by exact_mod_cast this) (two_zpow_pos e)
  unfold ulpExp
  omega

/-- Rounding fixes what is already a double. -/
theorem IsDouble.roundMag_eq {q : ℚ} (h : IsDouble q) : roundMag q = q := by
  obtain ⟨⟨m, e, hm, he, rfl⟩, -⟩ := h
  by_cases hm0 : m = 0
  · subst hm0
    have h0 : roundHalfEven 0 = 0 := by exact_mod_cast roundHalfEven_intCast 0
    simp [roundMag, h0]
  · have hle := ulpExp_le hm he hm0
    obtain ⟨k, hk⟩ := Int.eq_ofNat_of_zero_le (sub_nonneg.mpr hle)
    have hsplit : (m : ℚ) * (2 : ℚ) ^ e / (2 : ℚ) ^ ulpExp (m * (2 : ℚ) ^ e)
        = ((m * 2 ^ k : ℤ) : ℚ) := by
      rw [mul_div_assoc, ← zpow_sub₀ (by norm_num), hk]
      push_cast
      norm_cast
    unfold roundMag
    rw [hsplit, roundHalfEven_intCast, ← hsplit, div_mul_cancel₀ _ (two_zpow_pos _).ne']

theorem isDouble_natCast {n : ℕ} (h : n < 2 ^ 53) : IsDouble n := by
  refine ⟨⟨n, 0, h, by norm_num, by simp⟩, ?_⟩
  have h1 : (n : ℚ) < 2 ^ 53 := by exact_mod_cast h
  exact lt_trans h1 (pow_lt_pow_right₀ (by norm_num) (by norm_num))

/-- From `1` on the scaled value has 53 bits. -/
theorem le_scaled {q : ℚ} (h : 1 ≤ q) : 2 ^ 52 ≤ q / (2 : ℚ) ^ ulpExp q := by
  have hpos : 0 < q := lt_of_lt_of_le (by norm_num) h
  have hlog : 0 ≤ Int.log 2 q := by
    have : Int.log 2 (1 : ℚ) ≤ Int.log 2 q := Int.log_mono_right (by norm_num) h
    simpa using this
  have he : ulpExp q = Int.log 2 q - 52 := by
    unfold ulpExp
    omega
  rw [le_div_iff₀ (two_zpow_pos _), he, ← zpow_natCast, ← zpow_add₀ (by norm_num)]
  have := Int.zpow_log_le_self (b := 2) (by norm_num) hpos
  simpa using this

theorem half_le_roundMag {q : ℚ} (h : 1 ≤ q) : q / 2 ≤ roundMag q := by
  have hs := le_scaled h
  set x := q / (2 : ℚ) ^ ulpExp q with hx
  have hq : q = x * (2 : ℚ) ^ ulpExp q := (div_mul_cancel₀ q (two_zpow_pos _).ne').symm
  have h1 : (⌊x⌋ : ℚ) ≤ roundHalfEven x := by exact_mod_cast floor_le_roundHalfEven x
  have h2 := Int.sub_one_lt_floor x
  have h3 : x / 2 ≤ roundHalfEven x := by linarith
  calc q / 2 = x / 2 * (2 : ℚ) ^ ulpExp q := by rw [div_mul_eq_mul_div, ← hq]
    _ ≤ roundMag q := mul_le_mul_of_nonneg_right h3 (two_zpow_pos _).le

theorem roundMag_le_two {q : ℚ} (h : 1 ≤ q) : roundMag q ≤ 2 * q := by
  have hs := le_scaled h
  set x := q / (2 : ℚ) ^ ulpExp q with hx
  have hq : q = x * (2 : ℚ) ^ ulpExp q := (div_mul_cancel₀ q (two_zpow_pos _).ne').symm
  have h1 : (roundHalfEven x : ℚ) ≤ ⌊x⌋ + 1 := by
    exact_mod_cast roundHalfEven_le_floor_add_one x
  have h2 := Int.floor_le x
  have h3 : (roundHalfEven x : ℚ) ≤ 2 * x := by linarith
  calc roundMag q ≤ 2 * x * (2 : ℚ) ^ ulpExp q :=
        mul_le_mul_of_nonneg_right h3 (two_zpow_pos _).le
    _ = 2 * q := by rw [mul_assoc, ← hq]

/-! ## Floats -/

/-- The magnitude of a finite double. -/
structure Double where
  mag : ℚ
  isDouble : IsDouble mag

/-- A Python `float`. -/
inductive PyFloat where
  | nan
  | inf (neg : Bool)
  | fin (neg : Bool) (mag : Double)

@[ext] theorem Double.ext {a b : Double} (h : a.mag = b.mag) : a = b := by
  cases a; cases b
  simpa using h

instance : DecidableEq Double := fun a b =>
  decidable_of_iff (a.mag = b.mag) ⟨Double.ext, fun h => h ▸ rfl⟩

deriving instance DecidableEq for PyFloat

theorem Double.mag_nonneg (d : Double) : 0 ≤ d.mag := by
  obtain ⟨⟨⟨m, e, -, -, h⟩, -⟩, hm⟩ : ∃ h : IsDouble d.mag, d.isDouble = h := ⟨d.isDouble, rfl⟩
  rw [h]
  exact mul_nonneg (by positivity) (two_zpow_pos e).le

/-- The double nearest to a non-negative rational; `none` on overflow. -/
def toDouble (q : ℚ) : Option Double :=
  if h : 0 ≤ q ∧ roundMag q < 2 ^ 1024 then
    some ⟨roundMag q, isDouble_roundMag h.1 h.2⟩
  else none

theorem toDouble_mag (d : Double) : toDouble d.mag = some d := by
  have hr := d.isDouble.roundMag_eq
  have hlt : roundMag d.mag < 2 ^ 1024 := by
    rw [hr]
    exact d.isDouble.2
  rw [toDouble, dif_pos ⟨d.mag_nonneg, hlt⟩]
  exact congrArg some (Double.ext hr)

theorem toDouble_eq_some {q : ℚ} {d : Double} (h : toDouble q = some d) :
    d.mag = roundMag q := by
  unfold toDouble at h
  split at h
  · cases h; rfl
  · cases h

/-- `float(n)` of an integer; `none` is `OverflowError`. -/
def floatOfInt (n : Int) : Option PyFloat :=
  (toDouble n.natAbs).map (.fin (decide (n < 0)))

/-- `float(s)` of a literal `int.frac` with exponent `exp`: overflow reads as infinity. -/
def floatOfDecimal (neg : Bool) (int frac : Str) (exp : Int) : PyFloat :=
  match toDouble (ofDecimal (int ++ frac) * (10 : ℚ) ^ (exp - frac.length)) with
  | some d => .fin neg d
  | none => .inf neg

/-! ## `repr`: the shortest digits that read back -/

/-- The `n`-digit decimals around `q`: `(c, s)` stands for `c · 10^s`. -/
def neighbours (q : ℚ) (n : Nat) : List (Nat × Int) :=
  let s := Int.log 10 q - n + 1
  let c := ⌊q / (10 : ℚ) ^ s⌋.toNat
  let lo : ℚ := c * (10 : ℚ) ^ s
  let hi : ℚ := (c + 1 : ℕ) * (10 : ℚ) ^ s
  if q - lo ≤ hi - q then [(c, s), (c + 1, s)] else [(c + 1, s), (c, s)]

/-- The nearest `n`-digit decimal that reads back as `d`. -/
def readsBack (d : Double) (n : Nat) : Option (Nat × Int) :=
  (neighbours d.mag n).find? fun p => decide (p.1 ≠ 0 ∧ toDouble (p.1 * (10 : ℚ) ^ p.2) = some d)

/-- All digits of `q` down to the place `10^-k`. -/
def exactDigits (k : Nat) (q : ℚ) : Nat × Int := ((q * 2 ^ k).num.toNat * 5 ^ k, -k)

/-- The digits `repr` prints.  Seventeen always suffice, so the exact
expansion is never reached; it makes the read-back property immediate. -/
def reprDigits (d : Double) : Nat × Int :=
  ((List.range' 1 17).findSome? (readsBack d)).getD (exactDigits 1074 d.mag)

/-- Trailing zeros moved into the exponent; `fuel` bounds how many. -/
def stripZeros : Nat → Nat × Int → Nat × Int
  | 0, p => p
  | fuel + 1, (c, s) => if c % 10 = 0 then stripZeros fuel (c / 10, s + 1) else (c, s)

theorem stripZeros_value : ∀ (fuel : Nat) (p : Nat × Int),
    ((stripZeros fuel p).1 : ℚ) * (10 : ℚ) ^ (stripZeros fuel p).2 = p.1 * (10 : ℚ) ^ p.2
  | 0, _ => rfl
  | fuel + 1, (c, s) => by
      unfold stripZeros
      split
      · rename_i h
        rw [stripZeros_value fuel]
        have hc : (c : ℚ) = 10 * (c / 10 : ℕ) := by
          exact_mod_cast (Nat.mul_div_cancel' (Nat.dvd_of_mod_eq_zero h)).symm
        rw [zpow_add₀ (by norm_num), zpow_one, hc]
        push_cast
        ring_nf
      · rfl

theorem stripZeros_ne_zero : ∀ (fuel : Nat) (p : Nat × Int), p.1 ≠ 0 → (stripZeros fuel p).1 ≠ 0
  | 0, _, h => h
  | fuel + 1, (c, s), h => by
      unfold stripZeros
      split
      · rename_i hc
        exact stripZeros_ne_zero fuel _ (by simp only at h ⊢; omega)
      · exact h

/-- `k` binary places are `k` decimal places. -/
theorem exactDigits_value {k m : ℕ} {e : ℤ} (he : -k ≤ e) :
    ((exactDigits k (m * (2 : ℚ) ^ e)).1 : ℚ) * (10 : ℚ) ^ (exactDigits k (m * (2 : ℚ) ^ e)).2
      = m * (2 : ℚ) ^ e := by
  obtain ⟨j, hj⟩ := Int.eq_ofNat_of_zero_le (show (0 : ℤ) ≤ e + k by omega)
  have hint : (m : ℚ) * (2 : ℚ) ^ e * 2 ^ k = ((m * 2 ^ j : ℕ) : ℚ) := by
    rw [mul_assoc, ← zpow_natCast (2 : ℚ) k, ← zpow_add₀ (by norm_num), hj]
    push_cast
    norm_cast
  have hnum : ((m : ℚ) * (2 : ℚ) ^ e * 2 ^ k).num.toNat = m * 2 ^ j := by
    rw [hint, Rat.num_natCast, Int.toNat_natCast]
  have hten : (10 : ℚ) ^ (-k : ℤ) = ((2 : ℚ) ^ k * (5 : ℚ) ^ k)⁻¹ := by
    rw [zpow_neg, ← mul_pow, zpow_natCast]
    norm_num
  simp only [exactDigits, hnum]
  rw [hten, Nat.cast_mul, ← hint]
  push_cast
  field_simp

/-- The printed digits read back. -/
theorem toDouble_reprDigits {d : Double} (h : d.mag ≠ 0) :
    (reprDigits d).1 ≠ 0 ∧ toDouble ((reprDigits d).1 * (10 : ℚ) ^ (reprDigits d).2) = some d := by
  unfold reprDigits
  cases hf : (List.range' 1 17).findSome? (readsBack d) with
  | some p =>
      obtain ⟨n, -, hn⟩ := List.exists_of_findSome?_eq_some hf
      have hp := List.find?_some hn
      simpa using hp
  | none =>
      obtain ⟨m, e, -, he, hq⟩ := d.isDouble.1
      have hv := exactDigits_value (k := 1074) (m := m) (by exact_mod_cast he)
      rw [← hq] at hv
      refine ⟨fun h0 => h ?_, ?_⟩
      · simp only [Option.getD_none] at h0
        rw [← hv, h0]
        simp
      · rw [Option.getD_none, hv]
        exact toDouble_mag d

end Py
