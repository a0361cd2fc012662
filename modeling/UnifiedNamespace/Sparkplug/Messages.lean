/-
# `Sparkplug.Messages` — the messages of a payload, and the datatype enums

The messages of `sparkplug_b.proto`, with the fields in the order of their numbers, and the
values Python code gets out of them.  A datatype names the field its value is in and how it is
read (`getValue`): signed integers are kept as unsigned ones, arrays as packed bytes.
-/
import UnifiedNamespace.Python.Base64
import UnifiedNamespace.Python.Float

namespace Uns.Sparkplug

open Py

/-- A Python object of a decoded payload; a dict in insertion order. -/
inductive Value where
  | none
  | bool (b : Bool)
  | int (n : Int)
  | float (x : PyFloat)
  | str (s : Str)
  | bytes (b : Bytes)
  | list (xs : List Value)
  | dict (fields : List (Str × Value))

/-! ## Messages -/

/-- `SPBValueFieldName`. -/
inductive ValueField where
  | int
  | long
  | float
  | double
  | string
  | bytes
  | boolean
  | template
  | dataset
  | propertySet
  | propertySetList
deriving DecidableEq

def ValueField.name : ValueField → Str
  | .int => lit "int_value"
  | .long => lit "long_value"
  | .float => lit "float_value"
  | .double => lit "double_value"
  | .string => lit "string_value"
  | .bytes => lit "bytes_value"
  | .boolean => lit "boolean_value"
  | .template => lit "template_value"
  | .dataset => lit "dataset_value"
  | .propertySet => lit "propertyset_value"
  | .propertySetList => lit "propertysets_value"

/-- The part of a `oneof` all messages with a value share. -/
inductive Scalar where
  | int (n : UInt32)
  | long (n : UInt64)
  | float (x : PyFloat)
  | double (x : PyFloat)
  | boolean (b : Bool)
  | string (s : Str)

def Scalar.field : Scalar → ValueField
  | .int _ => .int
  | .long _ => .long
  | .float _ => .float
  | .double _ => .double
  | .boolean _ => .boolean
  | .string _ => .string

/-- The `oneof` of a `DataSetValue` and of a `Parameter`. -/
inductive Element where
  | unset
  | scalar (s : Scalar)
  | extension

structure DataSet where
  numOfColumns : Option UInt64
  columns : List Str
  types : List UInt32
  rows : List (List Element)

structure Parameter where
  name : Option Str
  type : Option UInt32
  value : Element

structure MetaData where
  isMultiPart : Option Bool
  contentType : Option Str
  size : Option UInt64
  seq : Option UInt64
  fileName : Option Str
  fileType : Option Str
  md5 : Option Str
  description : Option Str

mutual

inductive PropertyValue where
  | mk (type : Option UInt32) (isNull : Option Bool) (value : PropertyContent)

inductive PropertyContent where
  | unset
  | scalar (s : Scalar)
  | propertyset (ps : PropertySet)
  | propertysets (sets : List PropertySet)
  | extension

inductive PropertySet where
  | mk (keys : List Str) (values : List PropertyValue)

end

/-- The fields of a metric before its properties. -/
structure Header where
  name : Option Str
  metricAlias : Option UInt64
  timestamp : Option UInt64
  datatype : Option UInt32
  isHistorical : Option Bool
  isTransient : Option Bool
  isNull : Option Bool
  metadata : Option MetaData

mutual

inductive Metric where
  | mk (header : Header) (properties : Option PropertySet) (value : MetricContent)

inductive MetricContent where
  | unset
  | scalar (s : Scalar)
  | bytes (b : Bytes)
  | dataset (ds : DataSet)
  | template (t : Template)
  | extension

inductive Template where
  | mk (version : Option Str) (metrics : List Metric) (parameters : List Parameter) (templateRef : Option Str)
      (isDefinition : Option Bool)

end

structure Payload where
  timestamp : Option UInt64
  metrics : List Metric
  seq : Option UInt64
  uuid : Option Str
  body : Option Bytes

/-! ## Arrays -/

/-- An unsigned number of little-endian bytes. -/
def ofLittleEndian (b : Bytes) : Nat := b.foldr (fun c n => c.toNat + 256 * n) 0

/-- A number of `k` bits in two's complement. -/
def signed (k n : Nat) : Int := if 2 ^ (k - 1) ≤ n then (n : Int) - 2 ^ k else n

/-- A number of an exponent of `e` bits and a fraction of `m` bits. -/
def floatOfBits (e m n : Nat) : PyFloat :=
  let neg := decide (n / 2 ^ (e + m) % 2 = 1)
  let exponent := n / 2 ^ m % 2 ^ e
  let fraction := n % 2 ^ m
  let shift : Int := 2 - 2 ^ (e - 1) - m
  if exponent = 2 ^ e - 1 then if fraction = 0 then .inf neg else .nan
  else
    let mag : ℚ := if exponent = 0 then fraction * (2 : ℚ) ^ shift
      else (2 ^ m + fraction : Nat) * (2 : ℚ) ^ (shift + exponent - 1)
    match toDouble mag with
    | some d => .fin neg d
    | none => .inf neg

/-- `list(struct.unpack(...))` of elements of `k` bytes; `none` when the bytes do not come out even. -/
def unpackArray (k : Nat) (element : Nat → Value) (b : Bytes) : Option (List Value) :=
  if b.length % k = 0 then some ((b.toChunks k).map fun c => element (ofLittleEndian c)) else none

/-- `bytes_to_boolean_array`. -/
def bytesToBooleanArray (b : Bytes) : Option (List Value) :=
  if b.length < 4 then none
  else (List.range (ofLittleEndian (b.take 4))).mapM fun i =>
    (b[4 + i / 8]?).map fun c => .bool (c.toNat.testBit (7 - i % 8))

def isAsciiSpace (c : Nat) : Bool := decide (9 ≤ c ∧ c ≤ 13 ∨ c = 32)

def hexValue (c : Nat) : Option Nat :=
  if 48 ≤ c ∧ c ≤ 57 then some (c - 48)
  else if 97 ≤ c ∧ c ≤ 102 then some (c - 87)
  else if 65 ≤ c ∧ c ≤ 70 then some (c - 55)
  else none

/-- `bytes.fromhex(s)`: white space may stand between the bytes. -/
def fromHex : Str → Option Bytes
  | [] => some []
  | [c] => if isAsciiSpace c then some [] else none
  | c :: d :: rest =>
      if isAsciiSpace c then fromHex (d :: rest)
      else do
        let high ← hexValue c
        let low ← hexValue d
        let bytes ← fromHex rest
        some (UInt8.ofNat (16 * high + low) :: bytes)

/-- `bytes_to_string_array`. -/
def bytesToStringArray (b : Bytes) : Option (List Value) :=
  (b.splitOn 0).dropLast.mapM fun s => do
    let hex ← utf8Decode s
    let bytes ← fromHex hex
    (utf8Decode bytes).map .str

/-- The getters of `SPBArrayDataTypes`. -/
def arrayGetter : Nat → Option (Bytes → Option (List Value))
  | 22 => some (unpackArray 1 fun n => .int (signed 8 n))
  | 23 => some (unpackArray 2 fun n => .int (signed 16 n))
  | 24 => some (unpackArray 4 fun n => .int (signed 32 n))
  | 25 => some (unpackArray 8 fun n => .int (signed 64 n))
  | 26 => some (unpackArray 1 fun n => .int n)
  | 27 => some (unpackArray 2 fun n => .int n)
  | 28 => some (unpackArray 4 fun n => .int n)
  | 29 => some (unpackArray 8 fun n => .int n)
  | 30 => some (unpackArray 4 fun n => .float (floatOfBits 8 23 n))
  | 31 => some (unpackArray 8 fun n => .float (floatOfBits 11 52 n))
  | 32 => some bytesToBooleanArray
  | 33 => some bytesToStringArray
  | 34 => some (unpackArray 8 fun n => .int (signed 64 n))
  | _ => none

/-! ## Datatypes -/

/-- A member of an enum: `unknown` has no field. -/
inductive DataType where
  | unknown
  | plain (field : ValueField)
  | signedInt (bits : Nat)
  | signedLong (bits : Nat)
  | array (getter : Bytes → Option (List Value))

/-- `SPBBasicDataTypes`, which are also those of parameters and of data sets. -/
def basicDataType : Nat → Option DataType
  | 0 => some .unknown
  | 1 => some (.signedInt 8)
  | 2 => some (.signedInt 16)
  | 3 => some (.signedInt 32)
  | 4 => some (.signedLong 64)
  | 5 => some (.plain .int)
  | 6 => some (.plain .int)
  | 7 => some (.plain .int)
  | 8 => some (.plain .long)
  | 9 => some (.plain .float)
  | 10 => some (.plain .double)
  | 11 => some (.plain .boolean)
  | 12 => some (.plain .string)
  | 13 => some (.signedLong 64)
  | 14 => some (.plain .string)
  | _ => none

/-- `SPBMetricDataTypes`; `none` is a `ValueError`. -/
def metricDataType (n : Nat) : Option DataType :=
  match n with
  | 15 => some (.plain .string)
  | 16 => some (.plain .dataset)
  | 17 => some (.plain .bytes)
  | 18 => some (.plain .bytes)
  | 19 => some (.plain .template)
  | n => (basicDataType n).or ((arrayGetter n).map .array)

/-- `SPBPropertyValueTypes`. -/
def propertyDataType (n : Nat) : Option DataType :=
  match n with
  | 20 => some (.plain .propertySet)
  | 21 => some (.plain .propertySetList)
  | n => basicDataType n

def floatZero : PyFloat := floatOfBits 11 52 0

/-- What an attribute that is not set reads as. -/
def ValueField.default : ValueField → Value
  | .int | .long => .int 0
  | .float | .double => .float floatZero
  | .string => .str []
  | .bytes => .bytes []
  | .boolean => .bool false
  | .template | .dataset | .propertySet | .propertySetList => .dict []

/-- `getattr(spb_object, field)`, where the `oneof` is given by the field that is set and its value. -/
def getAttr (set : Option (ValueField × Value)) (field : ValueField) : Value :=
  match set with
  | some (f, v) => if f = field then v else field.default
  | none => field.default

/-- `get_signed_int_or_long`. -/
def toSigned (bits : Nat) : Value → Value
  | .int n => .int (signed bits n.toNat)
  | v => v

/-- `get_value_from_sparkplug`. -/
def getValue (datatype : DataType) (set : Option (ValueField × Value)) : Option Value :=
  match datatype with
  | .unknown => some .none
  | .plain field => some (getAttr set field)
  | .signedInt bits => some (toSigned bits (getAttr set .int))
  | .signedLong bits => some (toSigned bits (getAttr set .long))
  | .array getter =>
      match getAttr set .bytes with
      | .bytes b => (getter b).map .list
      | _ => none

end Uns.Sparkplug
