/-
# `Sparkplug.Setters` — how a value gets into a metric

The setters of the datatype enums.  A negative integer is made unsigned by adding the modulus
of its datatype, whose field is wider for the short ones; what the field takes is kept as it
is.  So an integer survives exactly when it is one of the datatype, or one that the field does
not take (`signed_survives_iff`).

Assigning to a field is the protobuf package's: an integer field takes what fits into it.
-/
import UnifiedNamespace.Sparkplug.UnsMapper

namespace Uns.Sparkplug

open Py

/-! ## What is outside -/

/-- What a caller hands over: a Python object, or a message. -/
inductive Argument where
  | value (v : Value)
  | dataset (ds : DataSet)
  | template (t : Template)

/-- Assignments to the fields of a new metric by the protobuf package, and `float(s)` of a text or of
bytes; `none` raises. -/
structure Runtime where
  assign : ValueField → Value → Option MetricContent
  readFloat : Value → Option PyFloat
  assign_int : ∀ n : Int, assign .int (.int n) =
    if 0 ≤ n ∧ n < 2 ^ 32 then some (.scalar (.int (UInt32.ofNat n.toNat))) else none
  assign_long : ∀ n : Int, assign .long (.int n) =
    if 0 ≤ n ∧ n < 2 ^ 64 then some (.scalar (.long (UInt64.ofNat n.toNat))) else none
  assign_bytes : ∀ b : Bytes, assign .bytes (.bytes b) = some (.bytes b)

/-! ## Packed arrays -/

/-- A number of `k` bytes, the lowest first. -/
def littleEndian : Nat → Nat → Bytes
  | 0, _ => []
  | k + 1, n => UInt8.ofNat n :: littleEndian k (n / 256)

/-- `operator.index(v)`. -/
def index : Value → Option Int
  | .bool b => some (if b then 1 else 0)
  | .int n => some n
  | _ => none

/-- `struct.pack` of an unsigned integer of `k` bytes; `none` is `struct.error`. -/
def packUnsigned (k : Nat) (v : Value) : Option Bytes :=
  (index v).bind fun n => if 0 ≤ n ∧ n < 2 ^ (8 * k) then some (littleEndian k n.toNat) else none

/-- `struct.pack` of a signed integer of `k` bytes. -/
def packSigned (k : Nat) (v : Value) : Option Bytes :=
  (index v).bind fun n =>
    if -2 ^ (8 * k - 1) ≤ n ∧ n < 2 ^ (8 * k - 1) then some (littleEndian k (n % 2 ^ (8 * k)).toNat) else none

/-- The bits of a magnitude, with an exponent of `e` bits and a fraction of `m`. -/
def magnitudeBits (e m : Nat) (mag : ℚ) : Int :=
  if mag = 0 then 0
  else
    let exponent : Int := max (2 - 2 ^ (e - 1)) (Int.log 2 mag)
    (exponent + 2 ^ (e - 1) - 2) * 2 ^ m + roundHalfEven (mag / (2 : ℚ) ^ (exponent - m))

/-- The bits of a float; a number that rounds to infinity is an `OverflowError`. -/
def bitsOfFloat (e m : Nat) : PyFloat → Option Nat
  | .nan => some ((2 ^ e - 1) * 2 ^ m + 2 ^ (m - 1))
  | .inf neg => some ((if neg then 2 ^ (e + m) else 0) + (2 ^ e - 1) * 2 ^ m)
  | .fin neg d =>
      let bits := (magnitudeBits e m d.mag).toNat
      if bits < (2 ^ e - 1) * 2 ^ m then some ((if neg then 2 ^ (e + m) else 0) + bits) else none

/-- `struct.pack` of a float of `k` bytes. -/
def packFloat (k e m : Nat) (v : Value) : Option Bytes :=
  let number := match v with
    | .float x => some x
    | v => (index v).bind floatOfInt
  (number.bind (bitsOfFloat e m)).map (littleEndian k)

/-- What `*value` comes to; `none` is a `TypeError`. -/
def items : Value → Option (List Value)
  | .list xs => some xs
  | .bytes b => some (b.map fun c => .int c.toNat)
  | .str s => some (s.map fun c => .str [c])
  | .dict fields => some (fields.map fun f => .str f.1)
  | _ => none

/-- `struct.pack(f"<\x7blen(value)\x7d…", *value)`. -/
def packArray (pack : Value → Option Bytes) (xs : List Value) : Option Bytes := (xs.mapM pack).map List.flatten

/-- `packed_bytes[i // 8] |= value << bit_position`, from the `i`-th value on. -/
def orBits (packed : Bytes) (i : Nat) : List Value → Option Bytes
  | [] => some packed
  | v :: vs =>
      (index v).bind fun n =>
        let byte := (packed.getD (i / 8) 0).toNat ||| n.toNat <<< (7 - i % 8)
        -- a byte must be in range(0, 256)
        if 0 ≤ n ∧ byte < 256 then orBits (packed.set (i / 8) (UInt8.ofNat byte)) (i + 1) vs else none

def booleanArrayToBytes (values : List Value) : Option Bytes :=
  (orBits (List.replicate ((values.length + 7) / 8) 0) 0 values).bind fun packed =>
    (packUnsigned 4 (.int values.length)).map (· ++ packed)

def hexDigit (n : Nat) : Nat := if n < 10 then 48 + n else 87 + n

/-- `b.hex()`. -/
def hex (b : Bytes) : Str := b.flatMap fun c => [hexDigit (c.toNat / 16), hexDigit (c.toNat % 16)]

/-- `bytes(string.encode().hex(), "utf-8") + b"\x00"`. -/
def nullTerminated : Value → Option Bytes
  | .str s => ((utf8Encode s).bind fun b => utf8Encode (hex b)).map (· ++ [0])
  | _ => none

def stringArrayToBytes (values : List Value) : Option Bytes := packArray nullTerminated values

/-- How `SPBArrayDataTypes` packs a value. -/
def arrayPacker : Nat → Option (List Value → Option Bytes)
  | 22 => some (packArray (packSigned 1))
  | 23 => some (packArray (packSigned 2))
  | 24 => some (packArray (packSigned 4))
  | 25 => some (packArray (packSigned 8))
  | 26 => some (packArray (packUnsigned 1))
  | 27 => some (packArray (packUnsigned 2))
  | 28 => some (packArray (packUnsigned 4))
  | 29 => some (packArray (packUnsigned 8))
  | 30 => some (packArray (packFloat 4 8 23))
  | 31 => some (packArray (packFloat 8 11 52))
  | 32 => some booleanArrayToBytes
  | 33 => some stringArrayToBytes
  | 34 => some (packArray (packSigned 8))
  | _ => none

/-! ## The setters -/

section

variable (runtime : Runtime)

/-- `float(value)`. -/
def toFloat : Value → Option PyFloat
  | .bool b => floatOfInt (if b then 1 else 0)
  | .int n => floatOfInt n
  | .float x => some x
  | .str s => runtime.readFloat (.str s)
  | .bytes b => runtime.readFloat (.bytes b)
  | _ => none

/-- `get_unsigned_int_or_long`; no integer field takes a float, and nothing else compares with 0. -/
def getUnsignedIntOrLong (field : ValueField) (factor : Nat) : Value → Option MetricContent
  | .int n => runtime.assign field (.int (if n < 0 then n + (if factor = 0 then 0 else 2 ^ factor) else n))
  | .bool b => runtime.assign field (.bool b)
  | _ => none

/-- `SPBBasicDataTypes(n).add_value_function` of a metric. -/
def basicSetter : Nat → Option (Value → Option MetricContent)
  | 0 => some fun _ => some .unset
  | 1 => some (getUnsignedIntOrLong runtime .int 8)
  | 2 => some (getUnsignedIntOrLong runtime .int 16)
  | 3 => some (getUnsignedIntOrLong runtime .int 32)
  | 4 => some (getUnsignedIntOrLong runtime .long 64)
  | 5 => some (runtime.assign .int)
  | 6 => some (runtime.assign .int)
  | 7 => some (runtime.assign .int)
  | 8 => some (runtime.assign .long)
  | 9 => some fun v => (toFloat runtime v).bind fun x => runtime.assign .float (.float x)
  | 10 => some fun v => (toFloat runtime v).bind fun x => runtime.assign .double (.float x)
  | 11 => some (runtime.assign .boolean)
  | 12 => some (runtime.assign .string)
  | 13 => some (getUnsignedIntOrLong runtime .long 64)
  | 14 => some (runtime.assign .string)
  | _ => none

/-- The setters of `SPBMetricDataTypes` that take a Python object. -/
def valueSetter (n : Nat) : Option (Value → Option MetricContent) :=
  match n with
  | 15 => some (runtime.assign .string)
  | 17 => some (runtime.assign .bytes)
  | 18 => some (runtime.assign .bytes)
  | n => (basicSetter runtime n).or
      ((arrayPacker n).map fun pack v => ((items v).bind pack).bind fun b => runtime.assign .bytes (.bytes b))

/-- `SPBMetricDataTypes(n).set_value_in_sparkplug` into a new metric; `none`: it raises, as the enum does where
it has no such member. -/
def setValue (n : Nat) : Argument → Option MetricContent
  | .dataset ds => if n = 16 then some (.dataset ds) else if n = 0 then some .unset else none
  | .template t => if n = 19 then some (.template t) else if n = 0 then some .unset else none
  | .value v => (valueSetter runtime n).bind fun set => set v

end

/-- `SPBMetricDataTypes(n).get_value_from_sparkplug`. -/
def getValueFrom (n : Nat) (content : MetricContent) : Option Value :=
  (metricDataType n).bind fun datatype => getValue datatype content.attribute

/-! ## Signed integers -/

/-- The signed datatypes. -/
inductive SignedType where
  | int8
  | int16
  | int32
  | int64

namespace SignedType

/-- The number of the datatype. -/
def number : SignedType → Nat
  | int8 => 1
  | int16 => 2
  | int32 => 3
  | int64 => 4

def bits : SignedType → Nat
  | int8 => 8
  | int16 => 16
  | int32 => 32
  | int64 => 64

/-- How wide the field is. -/
def fieldBits : SignedType → Nat
  | int8 => 32
  | int16 => 32
  | int32 => 32
  | int64 => 64

/-- An integer of the datatype. -/
def Holds (type : SignedType) (n : Int) : Prop := -2 ^ (type.bits - 1) ≤ n ∧ n < 2 ^ (type.bits - 1)

/-- An integer that the field does not take, made unsigned. -/
def Refuses (type : SignedType) (n : Int) : Prop := n < -2 ^ type.bits ∨ 2 ^ type.fieldBits ≤ n

/-- What is put into the field. -/
def unsigned (type : SignedType) (n : Int) : Int := if n < 0 then n + 2 ^ type.bits else n

end SignedType

/-- Setting either raises, or the integer is read again. -/
def Survives (runtime : Runtime) (type : SignedType) (n : Int) : Prop :=
  ∀ content, setValue runtime type.number (.value (.int n)) = some content →
    getValueFrom type.number content = some (.int n)

section

variable (runtime : Runtime) (type : SignedType) (n : Int)

/-- An integer field takes `z` or raises; what it took is read as a signed integer. -/
theorem survives_field {number bits width : Nat} {field : ValueField} {z : Int} {taken : MetricContent}
    (hset : setValue runtime number (.value (.int n)) = runtime.assign field (.int z))
    (hassign : runtime.assign field (.int z) = if 0 ≤ z ∧ z < 2 ^ width then some taken else none)
    (hget : getValueFrom number taken = some (toSigned bits (getAttr taken.attribute field)))
    (hread : 0 ≤ z → z < 2 ^ width → getAttr taken.attribute field = .int z) :
    (∀ content, setValue runtime number (.value (.int n)) = some content →
      getValueFrom number content = some (.int n)) ↔
      (0 ≤ z ∧ z < 2 ^ width → signed bits z.toNat = n) := by
  rw [hset, hassign]
  constructor
  · intro h hrange
    have hsurvives := h taken (if_pos hrange)
    rw [hget, hread hrange.1 hrange.2, Option.some.injEq] at hsurvives
    exact Value.int.inj hsurvives
  · intro h content hcontent
    split at hcontent
    · next hrange =>
        cases hcontent
        rw [hget, hread hrange.1 hrange.2, toSigned, h hrange]
    · cases hcontent

theorem read_int {z : Int} (h0 : 0 ≤ z) (h : z < 2 ^ 32) :
    getAttr (MetricContent.scalar (.int (UInt32.ofNat z.toNat))).attribute .int = .int z := by
  have hlt : z.toNat < 2 ^ 32 := by omega
  change Value.int (UInt32.ofNat z.toNat).toNat = .int z
  rw [UInt32.toNat_ofNat_of_lt' hlt, Int.toNat_of_nonneg h0]

theorem read_long {z : Int} (h0 : 0 ≤ z) (h : z < 2 ^ 64) :
    getAttr (MetricContent.scalar (.long (UInt64.ofNat z.toNat))).attribute .long = .int z := by
  have hlt : z.toNat < 2 ^ 64 := by omega
  change Value.int (UInt64.ofNat z.toNat).toNat = .int z
  rw [UInt64.toNat_ofNat_of_lt' hlt, Int.toNat_of_nonneg h0]

/-- The integer put into the field is read again, unless the field does not take it. -/
theorem survives_iff_unsigned :
    Survives runtime type n ↔ (0 ≤ type.unsigned n ∧ type.unsigned n < 2 ^ type.fieldBits →
      signed type.bits (type.unsigned n).toNat = n) := by
  cases type with
  | int8 => exact survives_field runtime n rfl (runtime.assign_int _) rfl read_int
  | int16 => exact survives_field runtime n rfl (runtime.assign_int _) rfl read_int
  | int32 => exact survives_field runtime n rfl (runtime.assign_int _) rfl read_int
  | int64 => exact survives_field runtime n rfl (runtime.assign_long _) rfl read_long

theorem SignedType.bits_le_fieldBits : type.bits ≤ type.fieldBits := by cases type <;> decide

theorem SignedType.two_pow_bits : (2 : Int) ^ type.bits = 2 * 2 ^ (type.bits - 1) := by
  have hpos : type.bits = type.bits - 1 + 1 := by cases type <;> rfl
  conv_lhs => rw [hpos, pow_succ']

/-- An integer of any size survives exactly when it is one of the datatype, or the field does not take it. -/
theorem signed_survives_iff : Survives runtime type n ↔ type.Holds n ∨ type.Refuses n := by
  have hdouble := type.two_pow_bits
  have hfield : (2 : Int) ^ type.bits ≤ 2 ^ type.fieldBits := pow_le_pow_right₀ (by decide) type.bits_le_fieldBits
  have hhalf : (0 : Int) < 2 ^ (type.bits - 1) := by positivity
  have hcast : ((2 ^ (type.bits - 1) : Nat) : Int) = 2 ^ (type.bits - 1) := by norm_cast
  rw [survives_iff_unsigned, SignedType.Holds, SignedType.Refuses, SignedType.unsigned, signed]
  rcases lt_or_ge n 0 with hneg | hnonneg
  · rw [if_pos hneg]
    split <;> omega
  · rw [if_neg (not_lt_of_ge hnonneg)]
    split <;> omega

end

/-- Assignments of integers, bytes, texts and booleans. -/
def plainRuntime : Runtime where
  assign
    | .int, .int n => if 0 ≤ n ∧ n < 2 ^ 32 then some (.scalar (.int (UInt32.ofNat n.toNat))) else none
    | .long, .int n => if 0 ≤ n ∧ n < 2 ^ 64 then some (.scalar (.long (UInt64.ofNat n.toNat))) else none
    | .bytes, .bytes b => some (.bytes b)
    | .string, .str s => if (utf8Encode s).isSome then some (.scalar (.string s)) else none
    | .boolean, .bool b => some (.scalar (.boolean b))
    | .float, .float x => some (.scalar (.float x))
    | .double, .float x => some (.scalar (.double x))
    | _, _ => none
  readFloat := fun _ => none
  assign_int := fun _ => rfl
  assign_long := fun _ => rfl
  assign_bytes := fun _ => rfl

/-- 200 is no `Int8`, and is read again as -56. -/
theorem int8_wraps : ¬ Survives plainRuntime .int8 200 := by
  intro h
  have hread := h (.scalar (.int 200)) rfl
  have hwrapped : getValueFrom SignedType.int8.number (.scalar (.int 200)) = some (.int (-56)) := rfl
  exact absurd (Value.int.inj (Option.some.inj (hwrapped.symm.trans hread))) (by decide)

end Uns.Sparkplug
