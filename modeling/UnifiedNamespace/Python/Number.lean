/-
# `Python.Number` — number literals, printed and scanned

A JSON number literal is split into its parts once, as a `NumTok`: the sign, the
integer digits, the fraction digits and the exponent.  The scanner finds the
parts, `NumTok.text` writes them back, and `scanNumber_text` says the two agree
as long as what follows cannot continue a number.

`intTok` and `floatTok` are the literals `str(int)` and `repr(float)` print; both
are well formed and read back as the number they came from
(`toInt_intTok`, `toFloat_floatTok`).
-/
import UnifiedNamespace.Python.Float

namespace Py

/-! ## Literals -/

/-- The parts of a number literal. -/
structure NumTok where
  neg : Bool
  int : Str
  frac : Option Str
  exp : Option (Bool × Str)
  deriving DecidableEq

def NumTok.fracText (t : NumTok) : Str :=
  match t.frac with
  | some ds => 46 :: ds
  | none => []

def NumTok.expText (t : NumTok) : Str :=
  match t.exp with
  | some (neg, ds) => 101 :: (if neg then 45 else 43) :: ds
  | none => []

def NumTok.text (t : NumTok) : Str :=
  (if t.neg then [45] else []) ++ (t.int ++ (t.fracText ++ t.expText))

/-- A literal without fraction and exponent is an integer. -/
def NumTok.isInt (t : NumTok) : Bool := t.frac.isNone && t.exp.isNone

def NumTok.toInt (t : NumTok) : Int :=
  if t.neg then -(ofDecimal t.int : Int) else ofDecimal t.int

def NumTok.exponent (t : NumTok) : Int :=
  match t.exp with
  | some (true, ds) => -(ofDecimal ds : Int)
  | some (false, ds) => ofDecimal ds
  | none => 0

def NumTok.toFloat (t : NumTok) : PyFloat :=
  floatOfDecimal t.neg t.int (t.frac.getD []) t.exponent

/-! ## Scanning -/

def scanInt : Str → Option (Str × Str)
  | 48 :: rest => some ([48], rest)
  | s =>
      if s.takeWhile isDigit = [] then none
      else some (s.takeWhile isDigit, s.dropWhile isDigit)

def scanFrac : Str → Option Str × Str
  | 46 :: rest =>
      if rest.takeWhile isDigit = [] then (none, 46 :: rest)
      else (some (rest.takeWhile isDigit), rest.dropWhile isDigit)
  | s => (none, s)

/-- The sign of an exponent, or of a number. -/
def scanSign : Str → Bool × Str
  | 45 :: rest => (true, rest)
  | 43 :: rest => (false, rest)
  | s => (false, s)

def scanExp : Str → Option (Bool × Str) × Str
  | [] => (none, [])
  | c :: rest =>
      if c = 101 ∨ c = 69 then
        if (scanSign rest).2.takeWhile isDigit = [] then (none, c :: rest)
        else (some ((scanSign rest).1, (scanSign rest).2.takeWhile isDigit),
          (scanSign rest).2.dropWhile isDigit)
      else (none, c :: rest)

def scanUnsigned (neg : Bool) (s : Str) : Option (NumTok × Str) :=
  match scanInt s with
  | none => none
  | some (int, s₁) =>
      let (frac, s₂) := scanFrac s₁
      let (exp, s₃) := scanExp s₂
      some (⟨neg, int, frac, exp⟩, s₃)

/-- The longest number literal at the head of `s`:
`-?(0|[1-9][0-9]*)(\.[0-9]+)?([eE][-+]?[0-9]+)?`. -/
def scanNumber : Str → Option (NumTok × Str)
  | 45 :: rest => scanUnsigned true rest
  | s => scanUnsigned false s

/-! ## Well-formed literals scan back -/

/-- A non-empty run of digits. -/
def Digits (s : Str) : Prop := s ≠ [] ∧ ∀ c ∈ s, isDigit c = true

structure NumTok.Wf (t : NumTok) : Prop where
  int : t.int = [48] ∨ (Digits t.int ∧ t.int.head? ≠ some 48)
  frac : ∀ ds, t.frac = some ds → Digits ds
  exp : ∀ neg ds, t.exp = some (neg, ds) → Digits ds

/-- What may follow a number without continuing it. -/
def NumStop : Str → Prop
  | [] => True
  | c :: _ => isDigit c = false ∧ c ≠ 46 ∧ c ≠ 101 ∧ c ≠ 69

/-- What may follow a run of digits without continuing it. -/
def DigitStop : Str → Prop
  | [] => True
  | c :: _ => isDigit c = false

theorem takeWhile_digits {ds rest : Str} (hd : ∀ c ∈ ds, isDigit c = true)
    (hr : DigitStop rest) : (ds ++ rest).takeWhile isDigit = ds := by
  rw [List.takeWhile_append_of_pos hd]
  cases rest with
  | nil => simp
  | cons c rest =>
      have hc : isDigit c = false := hr
      simp [hc]

theorem dropWhile_digits {ds rest : Str} (hd : ∀ c ∈ ds, isDigit c = true)
    (hr : DigitStop rest) : (ds ++ rest).dropWhile isDigit = rest := by
  rw [List.dropWhile_append_of_pos hd]
  cases rest with
  | nil => rfl
  | cons c rest =>
      have hc : isDigit c = false := hr
      simp [hc]

theorem NumStop.digitStop {rest : Str} (h : NumStop rest) : DigitStop rest := by
  cases rest with
  | nil => trivial
  | cons c rest => exact h.1

theorem scanInt_text {int rest : Str}
    (hint : int = [48] ∨ (Digits int ∧ int.head? ≠ some 48)) (hr : DigitStop rest) :
    scanInt (int ++ rest) = some (int, rest) := by
  rcases hint with rfl | ⟨hd, hz⟩
  · rfl
  · cases int with
    | nil => exact absurd rfl hd.1
    | cons c ds =>
        have hc : c ≠ 48 := fun h => hz (by simp [h])
        have ht := takeWhile_digits hd.2 hr
        have hdr := dropWhile_digits hd.2 hr
        have hne : ((c :: ds) ++ rest).takeWhile isDigit ≠ [] := by rw [ht]; simp
        rw [List.cons_append] at ht hdr hne ⊢
        unfold scanInt
        split
        · rename_i h
          exact absurd (List.cons.inj h).1 hc
        · rw [if_neg hne, ht, hdr]

theorem scanFrac_text {t : NumTok} (hwf : t.Wf) {rest : Str} (hr : DigitStop rest)
    (hdot : rest.head? ≠ some 46) :
    scanFrac (t.fracText ++ rest) = (t.frac, rest) := by
  unfold NumTok.fracText
  cases hf : t.frac with
  | none =>
      simp only [List.nil_append]
      unfold scanFrac
      split
      · exact absurd rfl hdot
      · rfl
  | some ds =>
      have hd := hwf.frac ds hf
      simp only [List.cons_append, scanFrac, takeWhile_digits hd.2 hr, dropWhile_digits hd.2 hr]
      rw [if_neg hd.1]

theorem scanExp_text {t : NumTok} (hwf : t.Wf) {rest : Str} (hr : NumStop rest) :
    scanExp (t.expText ++ rest) = (t.exp, rest) := by
  unfold NumTok.expText
  cases he : t.exp with
  | none =>
      cases rest with
      | nil => rfl
      | cons c rest =>
          obtain ⟨-, -, h1, h2⟩ := hr
          simp [scanExp, h1, h2]
  | some p =>
      obtain ⟨neg, ds⟩ := p
      have hd := hwf.exp neg ds he
      have ht := takeWhile_digits hd.2 hr.digitStop
      have hdr := dropWhile_digits hd.2 hr.digitStop
      have hs : scanSign ((if neg then 45 else 43) :: (ds ++ rest)) = (neg, ds ++ rest) := by
        cases neg <;> rfl
      simp only [List.cons_append, scanExp, true_or, if_true, hs, ht, hdr]
      rw [if_neg hd.1]

theorem digitStop_expText (t : NumTok) {rest : Str} (hr : NumStop rest) :
    DigitStop (t.expText ++ rest) := by
  unfold NumTok.expText
  cases t.exp with
  | none => exact hr.digitStop
  | some p => rfl

theorem digitStop_fracText (t : NumTok) {rest : Str} (hr : NumStop rest) :
    DigitStop (t.fracText ++ (t.expText ++ rest)) := by
  unfold NumTok.fracText
  cases t.frac with
  | none => exact digitStop_expText t hr
  | some ds => rfl

theorem head_expText_ne (t : NumTok) {rest : Str} (hr : NumStop rest) :
    (t.expText ++ rest).head? ≠ some 46 := by
  unfold NumTok.expText
  cases t.exp with
  | some p => simp
  | none =>
      cases rest with
      | nil => simp
      | cons c rest =>
          have hc : c ≠ 46 := hr.2.1
          simpa using hc

theorem head_int_ne_minus {t : NumTok} (hwf : t.Wf) (rest : Str) :
    ∃ c tail, t.int ++ rest = c :: tail ∧ c ≠ 45 := by
  rcases hwf.int with h | ⟨hd, -⟩
  · exact ⟨48, rest, by simp [h], by decide⟩
  · cases hi : t.int with
    | nil => exact absurd hi hd.1
    | cons c ds =>
        have hc := isDigit_iff.mp (hd.2 c (by simp [hi]))
        exact ⟨c, ds ++ rest, rfl, by omega⟩

/-- A well-formed literal scans back as itself. -/
theorem scanNumber_text {t : NumTok} (hwf : t.Wf) {rest : Str} (hr : NumStop rest) :
    scanNumber (t.text ++ rest) = some (t, rest) := by
  have hun : scanUnsigned t.neg (t.int ++ (t.fracText ++ (t.expText ++ rest)))
      = some (t, rest) := by
    unfold scanUnsigned
    rw [scanInt_text hwf.int (digitStop_fracText t hr)]
    dsimp only
    rw [scanFrac_text hwf (digitStop_expText t hr) (head_expText_ne t hr)]
    dsimp only
    rw [scanExp_text hwf hr]
  cases hneg : t.neg with
  | true =>
      rw [hneg] at hun
      simpa [NumTok.text, hneg, scanNumber, List.append_assoc] using hun
  | false =>
      rw [hneg] at hun
      obtain ⟨c, tail, hc, hne⟩ := head_int_ne_minus hwf (t.fracText ++ (t.expText ++ rest))
      have htext : t.text ++ rest = c :: tail := by
        rw [← hc]
        simp [NumTok.text, hneg, List.append_assoc]
      rw [htext]
      rw [hc] at hun
      unfold scanNumber
      split
      · rename_i h
        exact absurd (List.cons.inj h).1 hne
      · exact hun

/-! ## `str(int)` -/

/-- The literal of an integer. -/
def intTok (n : Int) : NumTok := ⟨decide (n < 0), decimal n.natAbs, none, none⟩

theorem digits_decimal (n : Nat) : Digits (decimal n) :=
  ⟨decimal_ne_nil n, fun _ h => isDigit_of_mem_decimal h⟩

theorem decimal_int (n : Nat) :
    decimal n = [48] ∨ (Digits (decimal n) ∧ (decimal n).head? ≠ some 48) := by
  by_cases h : n = 0
  · exact Or.inl (by simp [decimal, h])
  · obtain ⟨c, rest, hc, hne⟩ := head_decimal_ne_zero h
    exact Or.inr ⟨digits_decimal n, by simpa [hc] using hne⟩

theorem wf_intTok (n : Int) : (intTok n).Wf where
  int := decimal_int n.natAbs
  frac := by simp [intTok]
  exp := by simp [intTok]

theorem isInt_intTok (n : Int) : (intTok n).isInt = true := rfl

theorem toInt_intTok (n : Int) : (intTok n).toInt = n := by
  simp only [NumTok.toInt, intTok, ofDecimal_decimal, decide_eq_true_eq]
  split <;> omega

/-! ## `repr(float)` -/

theorem ofDecimal_append (a b : Str) :
    ofDecimal (a ++ b) = ofDecimal a * 10 ^ b.length + ofDecimal b := by
  induction b using List.reverseRecOn with
  | nil => simp [ofDecimal]
  | append_singleton b c ih =>
      have hstep : ∀ s : Str, ofDecimal (s ++ [c]) = 10 * ofDecimal s + (c - 48) := by
        intro s
        simp [ofDecimal, List.foldl_append]
      rw [← List.append_assoc, hstep, hstep, ih]
      simp only [List.length_append, List.length_cons, List.length_nil, zero_add, pow_succ]
      ring

/-- A run of zeros. -/
def zeros (k : Nat) : Str := List.replicate k 48

theorem isDigit_of_mem_zeros {k c : Nat} (h : c ∈ zeros k) : isDigit c = true := by
  rw [(List.mem_replicate.mp h).2]; rfl

theorem ofDecimal_zeros (k : Nat) : ofDecimal (zeros k) = 0 := by
  induction k with
  | zero => rfl
  | succ k ih =>
      have h : zeros (k + 1) = [48] ++ zeros k := rfl
      rw [h, ofDecimal_append, ih]
      simp [ofDecimal]

/-- An exponent is printed with at least two digits. -/
def padTwo (k : Nat) : Str := if k < 10 then 48 :: decimal k else decimal k

theorem digits_padTwo (k : Nat) : Digits (padTwo k) := by
  unfold padTwo
  split
  · refine ⟨by simp, fun c hc => ?_⟩
    rcases List.mem_cons.mp hc with rfl | h
    · rfl
    · exact isDigit_of_mem_decimal h
  · exact digits_decimal k

theorem ofDecimal_padTwo (k : Nat) : ofDecimal (padTwo k) = k := by
  unfold padTwo
  split
  · have h : 48 :: decimal k = [48] ++ decimal k := rfl
    rw [h, ofDecimal_append, ofDecimal_decimal]
    simp [ofDecimal]
  · exact ofDecimal_decimal k

/-- The layout `repr` gives the digits `ds` of a value `0.ds · 10^decpt`: plain
for `-4 < decpt ≤ 16`, with an exponent otherwise. -/
def layout (neg : Bool) (ds : Str) (decpt : Int) : NumTok :=
  if decpt ≤ -4 ∨ 16 < decpt then
    ⟨neg, ds.take 1, if ds.tail = [] then none else some ds.tail,
      some (decide (decpt - 1 < 0), padTwo (decpt - 1).natAbs)⟩
  else if decpt ≤ 0 then ⟨neg, [48], some (zeros (-decpt).toNat ++ ds), none⟩
  else if decpt < ds.length then
    ⟨neg, ds.take decpt.toNat, some (ds.drop decpt.toNat), none⟩
  else ⟨neg, ds ++ zeros (decpt - ds.length).toNat, some [48], none⟩

theorem wf_layout (neg : Bool) {ds : Str} (hd : Digits ds) (hz : ds.head? ≠ some 48)
    (decpt : Int) : (layout neg ds decpt).Wf := by
  obtain ⟨c, tail, rfl⟩ := List.exists_cons_of_ne_nil hd.1
  have hc : c ≠ 48 := by simpa using hz
  have hcd : isDigit c = true := hd.2 c List.mem_cons_self
  have htail : ∀ x ∈ tail, isDigit x = true := fun x hx => hd.2 x (List.mem_cons_of_mem _ hx)
  unfold layout
  split
  · refine ⟨Or.inr ⟨⟨by simp, ?_⟩, by simpa using hc⟩, ?_, ?_⟩
    · intro x hx
      exact hd.2 x (List.mem_of_mem_take hx)
    · intro fs h
      split at h
      · cases h
      · rename_i hne
        cases h
        exact ⟨hne, htail⟩
    · intro n es h
      cases h
      exact digits_padTwo _
  · split
    · refine ⟨Or.inl rfl, ?_, by simp⟩
      intro fs h
      cases h
      refine ⟨by simp, fun x hx => ?_⟩
      rcases List.mem_append.mp hx with h | h
      · exact isDigit_of_mem_zeros h
      · exact hd.2 x h
    · split
      · rename_i h0 hlen
        obtain ⟨k, hk⟩ : ∃ k : Nat, decpt = k + 1 := ⟨(decpt - 1).toNat, by omega⟩
        subst hk
        have hk1 : ((k : Int) + 1).toNat = k + 1 := by omega
        simp only [hk1]
        refine ⟨Or.inr ⟨⟨by simp, fun x hx => hd.2 x (List.mem_of_mem_take hx)⟩, by simpa using hc⟩,
          ?_, by simp⟩
        intro fs h
        cases h
        refine ⟨?_, fun x hx => hd.2 x (List.mem_of_mem_drop hx)⟩
        rw [ne_eq, List.drop_eq_nil_iff]
        omega
      · refine ⟨Or.inr ⟨⟨by simp, fun x hx => ?_⟩, by simpa using hc⟩, ?_, by simp⟩
        · rcases List.mem_append.mp hx with h | h
          · exact hd.2 x h
          · exact isDigit_of_mem_zeros h
        · intro fs h
          cases h
          exact ⟨by simp, fun x hx => by rw [List.mem_singleton.mp hx]; rfl⟩

theorem isInt_layout (neg : Bool) (ds : Str) (decpt : Int) :
    (layout neg ds decpt).isInt = false := by
  unfold layout
  split_ifs <;> simp [NumTok.isInt]

/-- The magnitude a literal denotes. -/
def NumTok.value (t : NumTok) : ℚ :=
  ofDecimal (t.int ++ t.frac.getD []) * (10 : ℚ) ^ (t.exponent - (t.frac.getD []).length)

theorem value_exponential (neg : Bool) {ds : Str} (hd : ds ≠ []) (k : Int) :
    NumTok.value ⟨neg, ds.take 1, if ds.tail = [] then none else some ds.tail,
      some (decide (k < 0), padTwo k.natAbs)⟩ = ofDecimal ds * (10 : ℚ) ^ (k + 1 - ds.length) := by
  obtain ⟨c, tail, rfl⟩ := List.exists_cons_of_ne_nil hd
  have hfrac : (if (c :: tail).tail = [] then none else some (c :: tail).tail : Option Str).getD []
      = tail := by
    split
    · rename_i h
      exact h.symm
    · rfl
  have hexp : NumTok.exponent ⟨neg, (c :: tail).take 1,
      (if (c :: tail).tail = [] then none else some (c :: tail).tail : Option Str),
      some (decide (k < 0), padTwo k.natAbs)⟩ = k := by
    unfold NumTok.exponent
    by_cases h : k < 0
    · simp only [h, decide_true, ofDecimal_padTwo]
      omega
    · simp only [h, decide_false, ofDecimal_padTwo]
      omega
  rw [NumTok.value, hexp, hfrac]
  simp only [List.take_succ_cons, List.take_zero, List.singleton_append, List.length_cons]
  congr 2
  push_cast
  ring

theorem value_leadingZeros (neg : Bool) (ds : Str) {k : Int} (hk : k ≤ 0) :
    NumTok.value ⟨neg, [48], some (zeros (-k).toNat ++ ds), none⟩
      = ofDecimal ds * (10 : ℚ) ^ (k - ds.length) := by
  have hz : ofDecimal ([48] ++ (zeros (-k).toNat ++ ds)) = ofDecimal ds := by
    rw [ofDecimal_append, ofDecimal_append, ofDecimal_zeros]
    simp [ofDecimal]
  simp only [NumTok.value, Option.getD_some, hz, NumTok.exponent]
  congr 2
  simp only [zeros, List.length_append, List.length_replicate]
  omega

theorem value_split (neg : Bool) (ds : Str) {k : Int} (h0 : 0 ≤ k) (hk : k ≤ ds.length) :
    NumTok.value ⟨neg, ds.take k.toNat, some (ds.drop k.toNat), none⟩
      = ofDecimal ds * (10 : ℚ) ^ (k - ds.length) := by
  simp only [NumTok.value, Option.getD_some, List.take_append_drop, NumTok.exponent,
    List.length_drop]
  congr 2
  omega

theorem value_trailingZeros (neg : Bool) (ds : Str) {k : Int} (hk : ds.length ≤ k) :
    NumTok.value ⟨neg, ds ++ zeros (k - ds.length).toNat, some [48], none⟩
      = ofDecimal ds * (10 : ℚ) ^ (k - ds.length) := by
  obtain ⟨n, hn⟩ := Int.eq_ofNat_of_zero_le (sub_nonneg.mpr hk)
  have hone : ofDecimal [48] = 0 := rfl
  have hnat : ofDecimal (ds ++ zeros n ++ [48]) = ofDecimal ds * 10 ^ (n + 1) := by
    rw [ofDecimal_append, ofDecimal_append, ofDecimal_zeros, hone]
    simp only [zeros, List.length_replicate, List.length_cons, List.length_nil]
    ring
  simp only [NumTok.value, Option.getD_some, NumTok.exponent, hn, Int.toNat_natCast, hnat,
    List.length_cons, List.length_nil]
  push_cast
  rw [pow_succ, zpow_natCast]
  norm_num
  ring

/-- Every layout denotes the same value. -/
theorem value_layout (neg : Bool) {ds : Str} (hd : ds ≠ []) (decpt : Int) :
    (layout neg ds decpt).value = ofDecimal ds * (10 : ℚ) ^ (decpt - ds.length) := by
  unfold layout
  split
  · rw [value_exponential neg hd, sub_add_cancel]
  · split
    · rename_i h0
      exact value_leadingZeros neg ds h0
    · split
      · rename_i h0 hlen
        exact value_split neg ds (by omega) (by omega)
      · rename_i h0 hlen
        exact value_trailingZeros neg ds (by omega)

/-- The literal of a finite float. -/
def floatTok (neg : Bool) (d : Double) : NumTok :=
  if d.mag = 0 then ⟨neg, [48], some [48], none⟩
  else
    let p := stripZeros 400 (reprDigits d)
    layout neg (decimal p.1) ((decimal p.1).length + p.2)

theorem wf_floatTok (neg : Bool) (d : Double) : (floatTok neg d).Wf := by
  unfold floatTok
  split
  · refine ⟨Or.inl rfl, ?_, by simp⟩
    intro ds h
    cases h
    exact ⟨by simp, fun x hx => by rw [List.mem_singleton.mp hx]; rfl⟩
  · rename_i h
    have hne := stripZeros_ne_zero 400 _ (toDouble_reprDigits h).1
    obtain ⟨c, rest, hc, hne48⟩ := head_decimal_ne_zero hne
    exact wf_layout neg (digits_decimal _) (by simpa [hc] using hne48) _

theorem isInt_floatTok (neg : Bool) (d : Double) : (floatTok neg d).isInt = false := by
  unfold floatTok
  split
  · rfl
  · exact isInt_layout _ _ _

theorem neg_floatTok (neg : Bool) (d : Double) : (floatTok neg d).neg = neg := by
  simp only [floatTok, layout]
  split_ifs <;> rfl

/-- The printed literal rounds back to the double. -/
theorem toDouble_value_floatTok (neg : Bool) (d : Double) :
    toDouble (floatTok neg d).value = some d := by
  by_cases h : d.mag = 0
  · have hz : (floatTok neg d).value = d.mag := by
      simp [floatTok, h, NumTok.value, ofDecimal]
    rw [hz, toDouble_mag]
  · simp only [floatTok, if_neg h]
    rw [value_layout neg (decimal_ne_nil _), ofDecimal_decimal, add_sub_cancel_left,
      stripZeros_value]
    exact (toDouble_reprDigits h).2

/-- `float(repr(x))` is `x`. -/
theorem toFloat_floatTok (neg : Bool) (d : Double) : (floatTok neg d).toFloat = .fin neg d := by
  have hv := toDouble_value_floatTok neg d
  unfold NumTok.value at hv
  simp only [NumTok.toFloat, floatOfDecimal, hv, neg_floatTok]

end Py
