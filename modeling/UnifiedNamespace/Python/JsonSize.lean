/-
# `Python.JsonSize` — how many bytes a printed value takes

The UTF-8 size of a text adds up over its parts, so the size of what
`json.dumps(v, ensure_ascii=False)` writes follows from the sizes of the strings
in it.  Text of plain characters (printable ASCII other than the quote and the
backslash) is printed as it is, a byte for a character; base64 and time stamps are
of that kind.
-/
import UnifiedNamespace.Python.Json
import UnifiedNamespace.Python.Base64
import UnifiedNamespace.Python.Datetime

namespace Py

/-- The bytes of `s.encode("utf-8")`. -/
def utf8Size (s : Str) : Nat := (s.map fun c => (Char.ofNat c).utf8Size).sum

/-- The bytes of a string inside its quotes. -/
def jsonSize (s : Str) : Nat := utf8Size (escapeStr s)

theorem length_utf8Encode {s : Str} {b : Bytes} (h : utf8Encode s = some b) : b.length = utf8Size s := by
  rw [utf8Encode] at h
  split at h
  · cases h
    simp only [List.length_flatMap, List.map_map, Function.comp_def, String.length_utf8EncodeChar, utf8Size]
  · cases h

@[simp] theorem utf8Size_nil : utf8Size [] = 0 := rfl

@[simp] theorem utf8Size_cons (c : Nat) (s : Str) :
    utf8Size (c :: s) = (Char.ofNat c).utf8Size + utf8Size s := by
  simp only [utf8Size, List.map_cons, List.sum_cons]

@[simp] theorem utf8Size_append (s t : Str) : utf8Size (s ++ t) = utf8Size s + utf8Size t := by
  simp only [utf8Size, List.map_append, List.sum_append]

theorem utf8Size_strText (s : Str) : utf8Size (strText s) = jsonSize s + 2 := by
  have hquote : (Char.ofNat 34).utf8Size = 1 := rfl
  simp only [strText, utf8Size_cons, utf8Size_append, utf8Size_nil, hquote, jsonSize]
  omega

/-! ## What can be encoded -/

theorem isScalar_of_ascii {c : Nat} (h : c < 128) : isScalar c = true :=
  decide_eq_true (Or.inl (by omega))

theorem hexDigit_lt {d : Nat} (h : d < 16) : hexDigit d < 128 := by
  rw [hexDigit]
  split <;> omega

/-- An escape is ASCII, and any other character stays what it is. -/
theorem escapeChar_cases (c : Nat) : escapeChar c = [c] ∨ c < 128 ∧ ∀ d ∈ escapeChar c, d < 128 := by
  by_cases hc : c < 32 ∨ c = 34 ∨ c = 92
  · refine .inr ⟨by omega, ?_⟩
    have hhigh : hexDigit (c / 16) < 128 := hexDigit_lt (by omega)
    have hlow : hexDigit (c % 16) < 128 := hexDigit_lt (by omega)
    intro d hd
    unfold escapeChar at hd
    split_ifs at hd <;> simp only [List.mem_cons, List.not_mem_nil, or_false] at hd <;> omega
  · refine .inl ?_
    rw [escapeChar]
    repeat rw [if_neg (by omega)]

theorem all_isScalar_escapeChar (c : Nat) : (escapeChar c).all isScalar = isScalar c := by
  rcases escapeChar_cases c with h | ⟨hc, h⟩
  · rw [h, List.all_cons, List.all_nil, Bool.and_true]
  · rw [isScalar_of_ascii hc]
    exact List.all_eq_true.mpr fun d hd => isScalar_of_ascii (h d hd)

theorem all_isScalar_strText (s : Str) : (strText s).all isScalar = s.all isScalar := by
  have hquote : isScalar 34 = true := rfl
  have hescaped : (escapeStr s).all isScalar = s.all isScalar := by
    rw [escapeStr, List.all_flatMap]
    exact congrArg s.all (funext all_isScalar_escapeChar)
  rw [strText, List.all_cons, List.all_append, hescaped, List.all_cons, List.all_nil, hquote, Bool.and_true,
    Bool.and_true, Bool.true_and]

/-! ## Plain characters -/

/-- Printable ASCII that a JSON string holds unescaped. -/
def Plain (c : Nat) : Prop := 32 ≤ c ∧ c < 128 ∧ c ≠ 34 ∧ c ≠ 92

instance (c : Nat) : Decidable (Plain c) := inferInstanceAs (Decidable (_ ∧ _))

theorem escapeChar_plain {c : Nat} (h : Plain c) : escapeChar c = [c] := by
  obtain ⟨hprintable, -, hquote, hbackslash⟩ := h
  rw [escapeChar]
  repeat rw [if_neg (by omega)]

theorem escapeStr_plain {s : Str} (h : ∀ c ∈ s, Plain c) : escapeStr s = s := by
  induction s with
  | nil => rfl
  | cons c s ih =>
      have hhead : escapeChar c = [c] := escapeChar_plain (h c (by simp))
      have htail : escapeStr s = s := ih fun d hd => h d (by simp [hd])
      rw [escapeStr, List.flatMap_cons, hhead]
      exact congrArg (c :: ·) htail

theorem utf8Size_ascii {c : Nat} (h : c < 128) : (Char.ofNat c).utf8Size = 1 := by
  interval_cases c <;> rfl

theorem utf8Size_plain {s : Str} (h : ∀ c ∈ s, Plain c) : utf8Size s = s.length := by
  induction s with
  | nil => rfl
  | cons c s ih =>
      have hhead : (Char.ofNat c).utf8Size = 1 := utf8Size_ascii (h c (by simp)).2.1
      rw [utf8Size_cons, hhead, ih fun d hd => h d (by simp [hd]), List.length_cons]
      omega

theorem jsonSize_plain {s : Str} (h : ∀ c ∈ s, Plain c) : jsonSize s = s.length := by
  rw [jsonSize, escapeStr_plain h, utf8Size_plain h]

theorem all_isScalar_plain {s : Str} (h : ∀ c ∈ s, Plain c) : s.all isScalar = true :=
  List.all_eq_true.mpr fun c hc => isScalar_of_ascii (h c hc).2.1

/-! ## Base64 -/

theorem plain_b64Char {n : Nat} (h : n < 64) : Plain (b64Char n) := by
  rw [b64Char, Plain]
  split_ifs <;> omega

theorem plain_b64encode : ∀ (b : Bytes), ∀ c ∈ b64encode b, Plain c
  | [] => by
      intro c hc
      cases hc
  | [a] => by
      intro c hc
      have ha := a.toNat_lt
      have h0 : Plain (b64Char (a.toNat / 4)) := plain_b64Char (by omega)
      have h1 : Plain (b64Char (a.toNat % 4 * 16)) := plain_b64Char (by omega)
      have hpad : Plain 61 := by decide +kernel
      simp only [b64encode, List.mem_cons, List.not_mem_nil, or_false] at hc
      rcases hc with rfl | rfl | rfl | rfl <;> assumption
  | [a, b] => by
      intro c hc
      have ha := a.toNat_lt
      have hb := b.toNat_lt
      have h0 : Plain (b64Char (a.toNat / 4)) := plain_b64Char (by omega)
      have h1 : Plain (b64Char (a.toNat % 4 * 16 + b.toNat / 16)) := plain_b64Char (by omega)
      have h2 : Plain (b64Char (b.toNat % 16 * 4)) := plain_b64Char (by omega)
      have hpad : Plain 61 := by decide +kernel
      simp only [b64encode, List.mem_cons, List.not_mem_nil, or_false] at hc
      rcases hc with rfl | rfl | rfl | rfl <;> assumption
  | a :: b :: d :: rest => by
      intro c hc
      have ha := a.toNat_lt
      have hb := b.toNat_lt
      have hd := d.toNat_lt
      have h0 : Plain (b64Char (a.toNat / 4)) := plain_b64Char (by omega)
      have h1 : Plain (b64Char (a.toNat % 4 * 16 + b.toNat / 16)) := plain_b64Char (by omega)
      have h2 : Plain (b64Char (b.toNat % 16 * 4 + d.toNat / 64)) := plain_b64Char (by omega)
      have h3 : Plain (b64Char (d.toNat % 64)) := plain_b64Char (by omega)
      simp only [b64encode, List.mem_cons] at hc
      rcases hc with rfl | rfl | rfl | rfl | hc
      · exact h0
      · exact h1
      · exact h2
      · exact h3
      · exact plain_b64encode rest c hc

/-- Four characters for each three bytes begun. -/
theorem length_b64encode : ∀ b : Bytes, (b64encode b).length = 4 * ((b.length + 2) / 3)
  | [] => rfl
  | [_] => by simp only [b64encode, List.length_cons, List.length_nil]
  | [_, _] => by simp only [b64encode, List.length_cons, List.length_nil]
  | _ :: _ :: _ :: rest => by
      simp only [b64encode, List.length_cons, length_b64encode rest]
      omega

/-! ## Time stamps -/

theorem plain_padDigits {width n c : Nat} (h : c ∈ padDigits width n) : Plain c := by
  have hdigit : isDigit c = true := digit_padDigits h
  simp only [isDigit, decide_eq_true_eq] at hdigit
  rw [Plain]
  omega

theorem plain_isoText (t : Datetime) : ∀ c ∈ isoText t, Plain c := by
  have hsep : Plain 45 ∧ Plain 84 ∧ Plain 58 ∧ Plain 46 := by decide +kernel
  intro c hc
  simp only [isoText, dateText, clockText, List.mem_append, List.mem_cons] at hc
  rcases hc with (hc | rfl | hc | rfl | hc) | rfl | hc | rfl | hc | rfl | hc | rfl | hc
  · exact plain_padDigits hc
  · exact hsep.1
  · exact plain_padDigits hc
  · exact hsep.1
  · exact plain_padDigits hc
  · exact hsep.2.1
  · exact plain_padDigits hc
  · exact hsep.2.2.1
  · exact plain_padDigits hc
  · exact hsep.2.2.1
  · exact plain_padDigits hc
  · exact hsep.2.2.2
  · exact plain_padDigits hc

theorem length_isoText (t : Datetime) : (isoText t).length = 26 := by
  simp only [isoText, dateText, clockText, List.length_append, List.length_cons, length_padDigits]

end Py
