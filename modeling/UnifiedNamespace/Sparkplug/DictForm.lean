/-
# `Sparkplug.DictForm` — a payload as a dict

`convert_spb_bytes_payload_to_dict`: the dict `MessageToDict` of the protobuf package makes of
a payload, with its keys and value types fixed by name.  `fix_printed` says what that comes to
message by message: every value stands under `value` as its field holds it, whatever the
datatype says (`rawDecoder`), but for packed arrays.
-/
import UnifiedNamespace.Sparkplug.Messages

namespace Uns.Sparkplug

open Py

/-! ## `MessageToDict` -/

def member (key : String) (v : Option Value) : List (Str × Value) := (v.map fun v => (lit key, v)).toList

def repeated (key : String) (xs : List Value) : List (Str × Value) :=
  if xs.isEmpty then [] else [(lit key, .list xs)]

def ofUInt32 (n : UInt32) : Value := .int n.toNat

def ofUInt64 (n : UInt64) : Value := .int n.toNat

/-- A 64-bit integer is printed as a string. -/
def printLong (n : UInt64) : Value := .str (decimal n.toNat)

/-- A float that is not finite is printed as a string, a finite one as the package spells it. -/
def printFloat (spell : PyFloat → PyFloat) : PyFloat → Value
  | .nan => .str (lit "NaN")
  | .inf neg => .str (if neg then lit "-Infinity" else lit "Infinity")
  | x => .float (spell x)

/-- The field that is set, under its own name; `shortest` spells a number of single precision. -/
def Scalar.printed (shortest : PyFloat → PyFloat) : Scalar → Value
  | .int n => ofUInt32 n
  | .long n => printLong n
  | .float x => printFloat shortest x
  | .double x => printFloat (fun x => x) x
  | .boolean b => .bool b
  | .string s => .str s

def extensionMember : List (Str × Value) := [(lit "extension_value", .dict [])]

section

variable (shortest : PyFloat → PyFloat)

def Element.printed : Element → List (Str × Value)
  | .unset => []
  | .scalar s => [(s.field.name, s.printed shortest)]
  | .extension => extensionMember

def DataSet.printed (ds : DataSet) : Value :=
  .dict (member "num_of_columns" (ds.numOfColumns.map printLong) ++ repeated "columns" (ds.columns.map .str) ++
    repeated "types" (ds.types.map ofUInt32) ++
    repeated "rows" (ds.rows.map fun row => .dict (repeated "elements" (row.map fun e => .dict (e.printed shortest)))))

def Parameter.printed (p : Parameter) : Value :=
  .dict (member "name" (p.name.map .str) ++ member "type" (p.type.map ofUInt32) ++ p.value.printed shortest)

def MetaData.printed (m : MetaData) : Value :=
  .dict (member "is_multi_part" (m.isMultiPart.map .bool) ++ member "content_type" (m.contentType.map .str) ++
    member "size" (m.size.map printLong) ++ member "seq" (m.seq.map printLong) ++
    member "file_name" (m.fileName.map .str) ++ member "file_type" (m.fileType.map .str) ++
    member "md5" (m.md5.map .str) ++ member "description" (m.description.map .str))

mutual

def PropertyValue.printed : PropertyValue → Value
  | .mk type isNull content =>
      .dict (member "type" (type.map ofUInt32) ++ member "is_null" (isNull.map .bool) ++ content.printed)

def PropertyContent.printed : PropertyContent → List (Str × Value)
  | .unset => []
  | .scalar s => [(s.field.name, s.printed shortest)]
  | .propertyset ps => [(ValueField.propertySet.name, ps.printed)]
  | .propertysets sets => [(ValueField.propertySetList.name, .dict (repeated "propertyset" (printedSets sets)))]
  | .extension => extensionMember

def PropertySet.printed : PropertySet → Value
  | .mk keys values => .dict (repeated "keys" (keys.map .str) ++ repeated "values" (printedValues values))

def printedSets : List PropertySet → List Value
  | [] => []
  | ps :: sets => ps.printed :: printedSets sets

def printedValues : List PropertyValue → List Value
  | [] => []
  | v :: values => v.printed :: printedValues values

end

def Header.printed (h : Header) : List (Str × Value) :=
  member "name" (h.name.map .str) ++ member "alias" (h.metricAlias.map printLong) ++
    member "timestamp" (h.timestamp.map printLong) ++ member "datatype" (h.datatype.map ofUInt32) ++
    member "is_historical" (h.isHistorical.map .bool) ++ member "is_transient" (h.isTransient.map .bool) ++
    member "is_null" (h.isNull.map .bool) ++ member "metadata" (h.metadata.map MetaData.printed)

mutual

def Metric.printed : Metric → Value
  | .mk h properties content =>
      .dict (h.printed ++ member "properties" (properties.map fun ps => ps.printed shortest) ++ content.printed)

def MetricContent.printed : MetricContent → List (Str × Value)
  | .unset => []
  | .scalar s => [(s.field.name, s.printed shortest)]
  | .bytes b => [(ValueField.bytes.name, .str (b64encode b))]
  | .dataset ds => [(ValueField.dataset.name, ds.printed shortest)]
  | .template t => [(ValueField.template.name, t.printed)]
  | .extension => extensionMember

def Template.printed : Template → Value
  | .mk version metrics parameters templateRef isDefinition =>
      .dict (member "version" (version.map .str) ++ repeated "metrics" (printedMetrics metrics) ++
        repeated "parameters" (parameters.map fun p => p.printed shortest) ++
        member "template_ref" (templateRef.map .str) ++ member "is_definition" (isDefinition.map .bool))

def printedMetrics : List Metric → List Value
  | [] => []
  | m :: metrics => m.printed :: printedMetrics metrics

end

def Payload.printed (p : Payload) : Value :=
  .dict (member "timestamp" (p.timestamp.map printLong) ++ repeated "metrics" (printedMetrics shortest p.metrics) ++
    member "seq" (p.seq.map printLong) ++ member "uuid" (p.uuid.map .str) ++
    member "body" (p.body.map fun b => .str (b64encode b)))

end

/-! ## Fixing keys and value types -/

def intKeys : List Str :=
  [ValueField.int.name, ValueField.long.name, lit "timestamp", lit "alias", lit "seq", lit "num_of_columns", lit "size"]

def valueNames : List Str :=
  [.int, .long, .float, .double, .string, .bytes, .boolean, .template, .dataset, .propertySet, .propertySetList].map
    ValueField.name

/-- `int(value)` of a number or of digits. -/
def toInt : Value → Option Value
  | .int n => some (.int n)
  | .str s => if s ≠ [] ∧ s.all isDigit = true then some (.int (ofDecimal s)) else none
  | _ => none

/-- The bytes of a field, unpacked when the dict around them has an array type. -/
def decodeBytes (datatype : Option Value) : Value → Option Value
  | .str s => do
      let b ← b64decode s
      match datatype with
      | some (.int n) =>
          match arrayGetter n.toNat with
          | some getter => (getter b).map .list
          | none => some (.bytes b)
      | _ => some (.bytes b)
  | _ => none

/-- Any of the value fields is renamed. -/
def fixName (key : Str) : Str := if key ∈ valueNames then lit "value" else key

def getMember (fields : List (Str × Value)) (key : Str) : Option Value := (fields.find? fun m => m.1 = key).map Prod.snd

mutual

/-- `_fix_keys_and_value_types`.  No dict is in what was decoded, so only what was not is gone into;
a message has one value field, so no two members are given one name. -/
def fixKeysAndValueTypes : Value → Option Value
  | .dict fields => (fixMembers (getMember fields (lit "datatype")) fields).map .dict
  | v => some v

def fixMembers (datatype : Option Value) : List (Str × Value) → Option (List (Str × Value))
  | [] => some []
  | (key, v) :: fields => do
      let v ← if key = ValueField.bytes.name then decodeBytes datatype v
        else if key ∈ intKeys then toInt v
        else fixComposite v
      let fields ← fixMembers datatype fields
      some ((fixName key, v) :: fields)

def fixComposite : Value → Option Value
  | .dict fields => (fixMembers (getMember fields (lit "datatype")) fields).map .dict
  | .list xs => (fixElements xs).map .list
  | v => some v

def fixElements : List Value → Option (List Value)
  | [] => some []
  | x :: xs => do
      let x ← fixKeysAndValueTypes x
      let xs ← fixElements xs
      some (x :: xs)

end

/-- `convert_spb_bytes_payload_to_dict`, from the parsed payload on. -/
def convertSpbPayloadToDict (shortest : PyFloat → PyFloat) (p : Payload) : Option Value :=
  fixKeysAndValueTypes (p.printed shortest)

end Uns.Sparkplug
