/-
# `Python.Base64` — `b64encode` and strict `b64decode`

`b64decode` is `base64.b64decode(s, validate=True)`: full quads of the alphabet,
padding only in the last quad and nothing after it.  As in the source's library
the unused low bits of a padded quad are not looked at, so the decoder accepts
more texts than the encoder writes; `b64decode_encode` is the direction that
holds.
-/
import UnifiedNamespace.Python.Str

namespace Py

/-- The alphabet, as code points. -/
def b64Char (n : Nat) : Nat :=
  if n < 26 then n + 65
  else if n < 52 then n + 71
  else if n < 62 then n - 4
  else if n = 62 then 43
  else 47

def b64Value (c : Nat) : Option Nat :=
  if 65 ≤ c ∧ c ≤ 90 then some (c - 65)
  else if 97 ≤ c ∧ c ≤ 122 then some (c - 71)
  else if 48 ≤ c ∧ c ≤ 57 then some (c + 4)
  else if c = 43 then some 62
  else if c = 47 then some 63
  else none

/-- `base64.b64encode(b).decode("ascii")`. -/
def b64encode : Bytes → Str
  | [] => []
  | [a] => [b64Char (a.toNat / 4), b64Char (a.toNat % 4 * 16), 61, 61]
  | [a, b] =>
      [b64Char (a.toNat / 4), b64Char (a.toNat % 4 * 16 + b.toNat / 16),
        b64Char (b.toNat % 16 * 4), 61]
  | a :: b :: c :: rest =>
      b64Char (a.toNat / 4) :: b64Char (a.toNat % 4 * 16 + b.toNat / 16) ::
        b64Char (b.toNat % 16 * 4 + c.toNat / 64) :: b64Char (c.toNat % 64) :: b64encode rest

def byteOf (n : Nat) : UInt8 := UInt8.ofNat (n % 256)

/-- `base64.b64decode(s, validate=True)`; `none` is a `ValueError`
(`binascii.Error` is one). -/
def b64decode : Str → Option Bytes
  | [] => some []
  | w :: x :: y :: z :: rest =>
      match b64Value w, b64Value x with
      | some w, some x =>
          if z = 61 then
            if rest ≠ [] then none
            else if y = 61 then some [byteOf (w * 4 + x / 16)]
            else
              match b64Value y with
              | some y => some [byteOf (w * 4 + x / 16), byteOf (x * 16 + y / 4)]
              | none => none
          else
            match b64Value y, b64Value z, b64decode rest with
            | some y, some z, some bs =>
                some (byteOf (w * 4 + x / 16) :: byteOf (x * 16 + y / 4) :: byteOf (y * 64 + z) :: bs)
            | _, _, _ => none
      | _, _ => none
  | _ => none

theorem b64Value_b64Char {n : Nat} (h : n < 64) : b64Value (b64Char n) = some n := by
  interval_cases n <;> rfl

theorem b64Char_ne_pad {n : Nat} (h : n < 64) : b64Char n ≠ 61 := by
  interval_cases n <;> decide

theorem byteOf_toNat {a : UInt8} {n : Nat} (h : n % 256 = a.toNat) : byteOf n = a := by
  rw [byteOf, h, UInt8.ofNat_toNat]

theorem b64decode_encode : ∀ b : Bytes, b64decode (b64encode b) = some b
  | [] => rfl
  | [a] => by
      have ha := a.toNat_lt
      have e1 : b64Value (b64Char (a.toNat / 4)) = some (a.toNat / 4) := b64Value_b64Char (by omega)
      have e2 : b64Value (b64Char (a.toNat % 4 * 16)) = some (a.toNat % 4 * 16) :=
        b64Value_b64Char (by omega)
      simp only [b64encode, b64decode, e1, e2, if_true, ne_eq, not_true_eq_false, if_false]
      rw [byteOf_toNat (a := a) (by omega)]
  | [a, b] => by
      have ha := a.toNat_lt
      have hb := b.toNat_lt
      have e1 : b64Value (b64Char (a.toNat / 4)) = some (a.toNat / 4) := b64Value_b64Char (by omega)
      have e2 : b64Value (b64Char (a.toNat % 4 * 16 + b.toNat / 16))
          = some (a.toNat % 4 * 16 + b.toNat / 16) := b64Value_b64Char (by omega)
      have e3 : b64Value (b64Char (b.toNat % 16 * 4)) = some (b.toNat % 16 * 4) :=
        b64Value_b64Char (by omega)
      have hpad : b64Char (b.toNat % 16 * 4) ≠ 61 := b64Char_ne_pad (by omega)
      simp only [b64encode, b64decode, e1, e2, e3, if_true, if_neg hpad, ne_eq,
        not_true_eq_false, if_false]
      rw [byteOf_toNat (a := a) (by omega), byteOf_toNat (a := b) (by omega)]
  | a :: b :: c :: rest => by
      have ha := a.toNat_lt
      have hb := b.toNat_lt
      have hc := c.toNat_lt
      have e1 : b64Value (b64Char (a.toNat / 4)) = some (a.toNat / 4) := b64Value_b64Char (by omega)
      have e2 : b64Value (b64Char (a.toNat % 4 * 16 + b.toNat / 16))
          = some (a.toNat % 4 * 16 + b.toNat / 16) := b64Value_b64Char (by omega)
      have e3 : b64Value (b64Char (b.toNat % 16 * 4 + c.toNat / 64))
          = some (b.toNat % 16 * 4 + c.toNat / 64) := b64Value_b64Char (by omega)
      have e4 : b64Value (b64Char (c.toNat % 64)) = some (c.toNat % 64) :=
        b64Value_b64Char (by omega)
      have hpad : b64Char (c.toNat % 64) ≠ 61 := b64Char_ne_pad (by omega)
      simp only [b64encode, b64decode, e1, e2, e3, e4, if_neg hpad, b64decode_encode rest]
      rw [byteOf_toNat (a := a) (by omega), byteOf_toNat (a := b) (by omega),
        byteOf_toNat (a := c) (by omega)]

end Py
