/-
# `Python.Str` — strings as code points, UTF-8, and decimal digits

A Python `str` is a sequence of code points, and unlike a Lean `String` it may
hold a lone surrogate: `json.loads` builds one from `"\ud800"`, and only
`str.encode` refuses it later.  So a `Str` is a list of code points, and the
strict UTF-8 codec is where the scalar values are told apart.  Bytes go through
Lean's own UTF-8 functions on the scalar part.

`decimal` and `ofDecimal` are the digits `str(n)` prints and `int(s)` reads.
-/
import Mathlib

namespace Py

/-- A Python `str`: its code points. -/
abbrev Str := List Nat

instance : LawfulBEq Str := inferInstance

/-- A Python `bytes`. -/
abbrev Bytes := List UInt8

/-- A string literal of the source. -/
def lit (s : String) : Str := s.toList.map Char.toNat

/-! ## UTF-8 -/

/-- A Unicode scalar value: the code points UTF-8 can write. -/
def isScalar (c : Nat) : Bool := decide c.isValidChar

/-- `s.encode("utf-8")`; `none` is `UnicodeEncodeError`. -/
def utf8Encode (s : Str) : Option Bytes :=
  if s.all isScalar then some ((s.map Char.ofNat).flatMap String.utf8EncodeChar) else none

/-- `b.decode("utf-8")`; `none` is `UnicodeDecodeError`. -/
def utf8Decode (b : Bytes) : Option Str :=
  b.toByteArray.utf8Decode?.map fun cs => cs.toList.map Char.toNat

theorem toNat_ofNat_of_isScalar {c : Nat} (h : isScalar c = true) :
    (Char.ofNat c).toNat = c := by
  have hv : c.isValidChar := by simpa [isScalar] using h
  simp [Char.ofNat, hv, Char.toNat, Char.ofNatAux]

theorem map_toNat_ofNat {s : Str} (h : s.all isScalar = true) :
    (s.map Char.ofNat).map Char.toNat = s := by
  induction s with
  | nil => rfl
  | cons c s ih =>
      simp only [List.all_cons, Bool.and_eq_true] at h
      simp only [List.map_cons, toNat_ofNat_of_isScalar h.1, ih h.2]

theorem isScalar_toNat (c : Char) : isScalar c.toNat = true :=
  decide_eq_true (show c.val.toNat.isValidChar from c.valid)

/-- Decoding undoes encoding. -/
theorem utf8Decode_encode {s : Str} {b : Bytes} (h : utf8Encode s = some b) :
    utf8Decode b = some s := by
  unfold utf8Encode at h
  split at h
  · rename_i hs
    cases h
    have hd : ((s.map Char.ofNat).flatMap String.utf8EncodeChar).toByteArray.utf8Decode? =
        some (s.map Char.ofNat).toArray :=
      List.utf8Decode?_utf8Encode
    simp only [utf8Decode, hd, Option.map_some, map_toNat_ofNat hs]
  · cases h

/-- What was decoded holds scalar values only. -/
theorem all_isScalar_of_utf8Decode {b : Bytes} {s : Str} (h : utf8Decode b = some s) :
    s.all isScalar = true := by
  unfold utf8Decode at h
  cases hd : b.toByteArray.utf8Decode? with
  | none => simp [hd] at h
  | some cs =>
      simp only [hd, Option.map_some, Option.some.injEq] at h
      subst h
      simp [isScalar_toNat]

/-! ## Decimal digits -/

/-- The code point of a digit. -/
def digitChar (d : Nat) : Nat := d + 48

/-- An ASCII digit. -/
def isDigit (c : Nat) : Bool := decide (48 ≤ c ∧ c ≤ 57)

/-- `str(n)` of a non-negative integer. -/
def decimal (n : Nat) : Str :=
  if n = 0 then [48] else (Nat.digits 10 n).reverse.map digitChar

/-- The value of a digit string, most significant digit first. -/
def ofDecimal (s : Str) : Nat := s.foldl (fun acc c => 10 * acc + (c - 48)) 0

theorem isDigit_iff {c : Nat} : isDigit c = true ↔ 48 ≤ c ∧ c ≤ 57 :=
  decide_eq_true_iff

theorem isDigit_digitChar {d : Nat} (h : d < 10) : isDigit (digitChar d) = true := by
  rw [isDigit_iff]
  simp only [digitChar]
  omega

theorem decimal_ne_nil (n : Nat) : decimal n ≠ [] := by
  unfold decimal
  split
  · simp
  · rename_i h
    simp [Nat.digits_ne_nil_iff_ne_zero.mpr h]

theorem isDigit_of_mem_decimal {n c : Nat} (h : c ∈ decimal n) : isDigit c = true := by
  unfold decimal at h
  split at h
  · simp only [List.mem_singleton] at h
    subst h; rfl
  · simp only [List.mem_map, List.mem_reverse] at h
    obtain ⟨d, hd, rfl⟩ := h
    exact isDigit_digitChar (Nat.digits_lt_base (by norm_num) hd)

/-- Folding the reversed digits is Horner's rule on the digits. -/
theorem foldl_digitChar_reverse (ds : List Nat) :
    (ds.reverse.map digitChar).foldl (fun acc c => 10 * acc + (c - 48)) 0
      = Nat.ofDigits 10 ds := by
  induction ds with
  | nil => rfl
  | cons d ds ih =>
      simp only [List.reverse_cons, List.map_append, List.map_cons, List.map_nil,
        List.foldl_append, List.foldl_cons, List.foldl_nil, Nat.ofDigits_cons]
      rw [ih]
      simp only [digitChar, Nat.add_sub_cancel]
      ring

theorem ofDecimal_decimal (n : Nat) : ofDecimal (decimal n) = n := by
  unfold decimal ofDecimal
  split
  · rename_i h
    subst h; rfl
  · rw [foldl_digitChar_reverse, Nat.ofDigits_digits]

theorem decimal_injective {i j : Nat} (h : decimal i = decimal j) : i = j := by
  have hread := congrArg ofDecimal h
  rwa [ofDecimal_decimal, ofDecimal_decimal] at hread

/-- The first digit of a positive number is not `0`. -/
theorem head_decimal_ne_zero {n : Nat} (h : n ≠ 0) :
    ∃ c rest, decimal n = c :: rest ∧ c ≠ 48 := by
  have hne : (Nat.digits 10 n).reverse ≠ [] := by
    simpa using Nat.digits_ne_nil_iff_ne_zero.mpr h
  have hlast := Nat.getLast_digit_ne_zero 10 h
  rw [← List.head_reverse hne] at hlast
  cases hd : (Nat.digits 10 n).reverse with
  | nil => exact absurd hd hne
  | cons d ds =>
      refine ⟨digitChar d, ds.map digitChar, by simp [decimal, h, hd], ?_⟩
      simp only [hd, List.head_cons] at hlast
      simp only [digitChar]
      omega

/-! ## Texts that can be taken apart -/

/-- The first separator splits a text in one way. -/
theorem append_cons_inj {a b c d : Str} {x : Nat} (ha : x ∉ a) (hb : x ∉ b)
    (h : a ++ x :: c = b ++ x :: d) : a = b ∧ c = d := by
  induction a generalizing b with
  | nil =>
      cases b with
      | nil => exact ⟨rfl, (List.cons.inj h).2⟩
      | cons y b =>
          obtain ⟨rfl, -⟩ := List.cons.inj h
          exact absurd List.mem_cons_self hb
  | cons y a ih =>
      cases b with
      | nil =>
          obtain ⟨rfl, -⟩ := List.cons.inj h
          exact absurd List.mem_cons_self ha
      | cons z b =>
          obtain ⟨rfl, hrest⟩ := List.cons.inj h
          obtain ⟨rfl, rfl⟩ := ih (fun hm => ha (List.mem_cons_of_mem _ hm))
            (fun hm => hb (List.mem_cons_of_mem _ hm)) hrest
          exact ⟨rfl, rfl⟩

/-- And so does the last one. -/
theorem append_cons_inj_last {a b c d : Str} {x : Nat} (hc : x ∉ c) (hd : x ∉ d)
    (h : a ++ x :: c = b ++ x :: d) : a = b ∧ c = d := by
  have hreverse := congrArg List.reverse h
  rw [List.reverse_append, List.reverse_cons, List.append_assoc, List.reverse_append,
    List.reverse_cons, List.append_assoc] at hreverse
  obtain ⟨hcd, hab⟩ := append_cons_inj (fun hm => hc (List.mem_reverse.mp hm))
    (fun hm => hd (List.mem_reverse.mp hm)) hreverse
  exact ⟨List.reverse_injective hab, List.reverse_injective hcd⟩

end Py
