/-
# `Sparkplug.Decoders` — the dict of a payload, value by value

Both ways of reading a payload give a dict of one shape; they differ in how a value is read
from its field (`Decoder`).  `rawDecoder` takes the field as it is, and is what
`_fix_keys_and_value_types` makes of `MessageToDict` (`convert_eq`); `enumDecoder` goes through
the datatype of the value, and reads nothing where the value is null.
-/
import UnifiedNamespace.Sparkplug.DictForm

namespace Uns.Sparkplug

open Py

/-! ## Decoders -/

structure Decoder where
  /-- The Python value of a field. -/
  form : Scalar → Value
  /-- The datatypes of the elements of a row. -/
  rowTypes : List UInt32 → Nat → Option (List (Option UInt32))
  /-- The value, or that there is none, from an enum, the datatype, the null flag and the field
  that is set; the outer `none` is an exception. -/
  slot : (Nat → Option DataType) → Option UInt32 → Bool → Option (ValueField × Value) → Option (Option Value)

section

variable (D : Decoder)

def Element.set : Element → Option (ValueField × Value)
  | .scalar s => some (s.field, D.form s)
  | _ => none

def Element.extensions : Element → List (Str × Value)
  | .extension => extensionMember
  | _ => []

def Element.render (e : Element) (type : Option UInt32) : Option Value := do
  let v ← D.slot basicDataType type false (e.set D)
  some (.dict (member "value" v ++ e.extensions))

def renderRow (types : List UInt32) (row : List Element) : Option Value := do
  let types ← D.rowTypes types row.length
  let elements ← (types.zip row).mapM fun e => e.2.render D e.1
  some (.dict (repeated "elements" elements))

def DataSet.render (ds : DataSet) : Option Value := do
  let rows ← ds.rows.mapM (renderRow D ds.types)
  some (.dict (member "num_of_columns" (ds.numOfColumns.map ofUInt64) ++ repeated "columns" (ds.columns.map .str) ++
    repeated "types" (ds.types.map ofUInt32) ++ repeated "rows" rows))

def Parameter.render (p : Parameter) : Option Value := do
  let v ← D.slot basicDataType p.type false (p.value.set D)
  some (.dict (member "name" (p.name.map .str) ++ member "type" (p.type.map ofUInt32) ++ member "value" v ++
    p.value.extensions))

def MetaData.render (m : MetaData) : Value :=
  .dict (member "is_multi_part" (m.isMultiPart.map .bool) ++ member "content_type" (m.contentType.map .str) ++
    member "size" (m.size.map ofUInt64) ++ member "seq" (m.seq.map ofUInt64) ++
    member "file_name" (m.fileName.map .str) ++ member "file_type" (m.fileType.map .str) ++
    member "md5" (m.md5.map .str) ++ member "description" (m.description.map .str))

def PropertyContent.extensions : PropertyContent → List (Str × Value)
  | .extension => extensionMember
  | _ => []

mutual

def PropertyValue.render : PropertyValue → Option Value
  | .mk type isNull content => do
      let set ← content.set
      let v ← D.slot propertyDataType type (isNull.getD false) set
      some (.dict (member "type" (type.map ofUInt32) ++ member "is_null" (isNull.map .bool) ++ member "value" v ++
        content.extensions))

def PropertyContent.set : PropertyContent → Option (Option (ValueField × Value))
  | .scalar s => some (some (s.field, D.form s))
  | .propertyset ps => ps.render.map fun v => some (.propertySet, v)
  | .propertysets sets => (renderSets sets).map fun vs => some (.propertySetList, .dict (repeated "propertyset" vs))
  | _ => some none

def PropertySet.render : PropertySet → Option Value
  | .mk keys values =>
      (renderValues values).map fun vs => .dict (repeated "keys" (keys.map .str) ++ repeated "values" vs)

def renderSets : List PropertySet → Option (List Value)
  | [] => some []
  | ps :: sets => do
      let v ← ps.render
      let vs ← renderSets sets
      some (v :: vs)

def renderValues : List PropertyValue → Option (List Value)
  | [] => some []
  | p :: values => do
      let v ← p.render
      let vs ← renderValues values
      some (v :: vs)

end

def Header.render (h : Header) : List (Str × Value) :=
  member "name" (h.name.map .str) ++ member "alias" (h.metricAlias.map ofUInt64) ++
    member "timestamp" (h.timestamp.map ofUInt64) ++ member "datatype" (h.datatype.map ofUInt32) ++
    member "is_historical" (h.isHistorical.map .bool) ++ member "is_transient" (h.isTransient.map .bool) ++
    member "is_null" (h.isNull.map .bool) ++ member "metadata" (h.metadata.map MetaData.render)

def renderProperties : Option PropertySet → Option (Option Value)
  | none => some none
  | some ps => (ps.render D).map some

def MetricContent.extensions : MetricContent → List (Str × Value)
  | .extension => extensionMember
  | _ => []

mutual

def Metric.render : Metric → Option Value
  | .mk h properties content => do
      let properties ← renderProperties D properties
      let set ← content.set
      let v ← D.slot metricDataType h.datatype (h.isNull.getD false) set
      some (.dict (h.render ++ member "properties" properties ++ member "value" v ++ content.extensions))

def MetricContent.set : MetricContent → Option (Option (ValueField × Value))
  | .scalar s => some (some (s.field, D.form s))
  | .bytes b => some (some (.bytes, .bytes b))
  | .dataset ds => (ds.render D).map fun v => some (.dataset, v)
  | .template t => t.render.map fun v => some (.template, v)
  | _ => some none

def Template.render : Template → Option Value
  | .mk version metrics parameters templateRef isDefinition => do
      let ms ← renderMetrics metrics
      let ps ← parameters.mapM fun p => p.render D
      some (.dict (member "version" (version.map .str) ++ repeated "metrics" ms ++ repeated "parameters" ps ++
        member "template_ref" (templateRef.map .str) ++ member "is_definition" (isDefinition.map .bool)))

def renderMetrics : List Metric → Option (List Value)
  | [] => some []
  | m :: metrics => do
      let v ← m.render
      let vs ← renderMetrics metrics
      some (v :: vs)

end

end

/-! ## The two decoders -/

def Scalar.raw (shortest : PyFloat → PyFloat) : Scalar → Value
  | .int n => ofUInt32 n
  | .long n => ofUInt64 n
  | .float x => printFloat shortest x
  | .double x => printFloat (fun x => x) x
  | .boolean b => .bool b
  | .string s => .str s

def rawSlot (datatype : Option UInt32) : Option (ValueField × Value) → Option (Option Value)
  | some (.bytes, .bytes b) =>
      match datatype.bind fun n => arrayGetter n.toNat with
      | some getter => (getter b).map fun xs => some (.list xs)
      | none => some (some (.bytes b))
  | set => some (set.map Prod.snd)

def rawDecoder (shortest : PyFloat → PyFloat) : Decoder where
  form := Scalar.raw shortest
  rowTypes := fun _ n => some (List.replicate n none)
  slot := fun _ datatype _ set => rawSlot datatype set

def Scalar.value : Scalar → Value
  | .int n => ofUInt32 n
  | .long n => ofUInt64 n
  | .float x => .float x
  | .double x => .float x
  | .boolean b => .bool b
  | .string s => .str s

def present : Value → Option Value
  | .none => none
  | v => some v

/-- Through the datatype, with the null flag looked at first. -/
def enumSlot (types : Nat → Option DataType) (datatype : Option UInt32) (isNull : Bool)
    (set : Option (ValueField × Value)) : Option (Option Value) :=
  if isNull then some none
  else do
    let datatype ← types (datatype.getD 0).toNat
    let v ← getValue datatype set
    some (present v)

/-- The elements of a row are zipped strictly with the types of the columns. -/
def enumDecoder : Decoder where
  form := Scalar.value
  rowTypes := fun types n => if types.length = n then some (types.map some) else none
  slot := enumSlot

/-! ## What the fixed dict is -/

theorem fixMembers_append (datatype : Option Value) (ms ns : List (Str × Value)) :
    fixMembers datatype (ms ++ ns) = (do
      let ms ← fixMembers datatype ms
      let ns ← fixMembers datatype ns
      some (ms ++ ns)) := by
  induction ms with
  | nil => cases h : fixMembers datatype ns <;> simp [fixMembers, h]
  | cons m ms ih =>
      obtain ⟨key, v⟩ := m
      rw [List.cons_append, fixMembers, fixMembers, ih]
      split
      · simp only [Option.bind_eq_bind, Option.bind_assoc, Option.bind_some, List.cons_append]
      · split
        · simp only [Option.bind_eq_bind, Option.bind_assoc, Option.bind_some, List.cons_append]
        · simp only [Option.bind_eq_bind, Option.bind_assoc, Option.bind_some, List.cons_append]

/-- A key that is neither renamed nor that of a number. -/
def IsPlain (key : Str) : Prop := key ≠ ValueField.bytes.name ∧ key ∉ intKeys ∧ key ∉ valueNames

instance (key : Str) : Decidable (IsPlain key) := inferInstanceAs (Decidable (_ ∧ _))

section

variable (datatype : Option Value)

theorem fixMembers_plain {key : Str} (h : IsPlain key) (v : Value) :
    fixMembers datatype [(key, v)] = (fixComposite v).map fun w => [(key, w)] := by
  obtain ⟨hbytes, hint, hname⟩ := h
  rw [fixMembers, if_neg hbytes, if_neg hint, fixName, if_neg hname]
  cases fixComposite v <;> rfl

theorem fixMembers_member {α : Type} {key : String} (h : IsPlain (lit key)) {f g : α → Value}
    (hfg : ∀ a, fixComposite (f a) = some (g a)) (o : Option α) :
    fixMembers datatype (member key (o.map f)) = some (member key (o.map g)) := by
  cases o with
  | none => rfl
  | some a =>
      show fixMembers datatype [(lit key, f a)] = _
      rw [fixMembers_plain datatype h, hfg]
      rfl

theorem toInt_decimal (n : Nat) : toInt (.str (decimal n)) = some (.int n) := by
  have hdigits : (decimal n).all isDigit = true := List.all_eq_true.mpr fun c hc => isDigit_of_mem_decimal hc
  rw [toInt, if_pos ⟨decimal_ne_nil n, hdigits⟩, ofDecimal_decimal]

theorem fixMembers_long {key : String} (hbytes : lit key ≠ ValueField.bytes.name) (hint : lit key ∈ intKeys)
    (hname : lit key ∉ valueNames) (o : Option UInt64) :
    fixMembers datatype (member key (o.map printLong)) = some (member key (o.map ofUInt64)) := by
  cases o with
  | none => rfl
  | some n =>
      show fixMembers datatype [(lit key, printLong n)] = _
      rw [fixMembers, if_neg hbytes, if_pos hint, fixName, if_neg hname, printLong, toInt_decimal]
      rfl

theorem isEmpty_fixElements {xs ys : List Value} (h : fixElements xs = some ys) : ys.isEmpty = xs.isEmpty := by
  cases xs with
  | nil =>
      cases h
      rfl
  | cons x xs =>
      simp only [fixElements, Option.bind_eq_bind, Option.bind_eq_some_iff] at h
      obtain ⟨y, _, ys', _, heq⟩ := h
      cases heq
      rfl

theorem fixMembers_repeated {key : String} (h : IsPlain (lit key)) (xs : List Value) :
    fixMembers datatype (repeated key xs) = (fixElements xs).map (repeated key) := by
  cases xs with
  | nil => rfl
  | cons x xs =>
      show fixMembers datatype [(lit key, .list (x :: xs))] = _
      rw [fixMembers_plain datatype h, fixComposite]
      cases hfixed : fixElements (x :: xs) with
      | none => rfl
      | some ys =>
          rw [Option.map_some, Option.map_some, Option.map_some, repeated, isEmpty_fixElements hfixed]
          rfl

/-- A value field other than those of numbers and bytes. -/
theorem fixMembers_value (key : Str) (hbytes : key ≠ ValueField.bytes.name) (hint : key ∉ intKeys)
    (hname : key ∈ valueNames) (v : Value) :
    fixMembers datatype [(key, v)] = (fixComposite v).map fun w => [(lit "value", w)] := by
  rw [fixMembers, if_neg hbytes, if_neg hint, fixName, if_pos hname]
  cases fixComposite v <;> rfl

theorem fixMembers_scalar (shortest : PyFloat → PyFloat) (s : Scalar) :
    fixMembers datatype [(s.field.name, s.printed shortest)] = some [(lit "value", s.raw shortest)] := by
  cases s with
  | int n => rfl
  | long n =>
      show fixMembers datatype [(ValueField.long.name, printLong n)] = _
      rw [fixMembers, if_neg (by decide), if_pos (by decide), fixName, if_pos (by decide), printLong, toInt_decimal]
      rfl
  | float x => exact (fixMembers_value datatype ValueField.float.name (by decide) (by decide) (by decide) _).trans (by cases x <;> rfl)
  | double x => exact (fixMembers_value datatype ValueField.double.name (by decide) (by decide) (by decide) _).trans (by cases x <;> rfl)
  | boolean b => exact fixMembers_value datatype ValueField.boolean.name (by decide) (by decide) (by decide) _
  | string s => exact fixMembers_value datatype ValueField.string.name (by decide) (by decide) (by decide) _

end

theorem fixElements_map {α : Type} {f g : α → Value} {xs : List α}
    (h : ∀ x ∈ xs, fixKeysAndValueTypes (f x) = some (g x)) : fixElements (xs.map f) = some (xs.map g) := by
  induction xs with
  | nil => rfl
  | cons x xs ih =>
      obtain ⟨hx, hxs⟩ := List.forall_mem_cons.mp h
      rw [List.map_cons, fixElements, hx, ih hxs]
      rfl

theorem fixElements_mapM {α : Type} {f : α → Value} {g : α → Option Value} {xs : List α}
    (h : ∀ x ∈ xs, fixKeysAndValueTypes (f x) = g x) : fixElements (xs.map f) = xs.mapM g := by
  induction xs with
  | nil => rfl
  | cons x xs ih =>
      obtain ⟨hx, hxs⟩ := List.forall_mem_cons.mp h
      rw [List.map_cons, fixElements, hx, ih hxs, List.mapM_cons]
      rfl

/-- Where no bytes are, the raw value is that of the field. -/
theorem rawSlot_of_ne {datatype : Option UInt32} {set : Option (ValueField × Value)}
    (h : ∀ v, set ≠ some (.bytes, v)) : rawSlot datatype set = some (set.map Prod.snd) := by
  unfold rawSlot
  split
  · exact absurd rfl (h _)
  · rfl

section

variable (shortest : PyFloat → PyFloat)

theorem fix_element (datatype : Option Value) (type : Option UInt32) (e : Element) :
    fixMembers datatype (e.printed shortest) = (do
      let v ← rawSlot type (e.set (rawDecoder shortest))
      some (member "value" v ++ e.extensions)) := by
  cases e with
  | unset => rfl
  | extension => rfl
  | scalar s =>
      have hraw : rawSlot type (some (s.field, s.raw shortest)) = some (some (s.raw shortest)) := by
        refine rawSlot_of_ne fun v h => ?_
        cases s <;> cases h
      show fixMembers datatype [(s.field.name, s.printed shortest)] = _
      rw [fixMembers_scalar]
      show _ = (rawSlot type (some (s.field, s.raw shortest))).bind _
      rw [hraw]
      rfl

theorem fix_row (types : List UInt32) (row : List Element) :
    fixKeysAndValueTypes (.dict (repeated "elements" (row.map fun e => .dict (e.printed shortest)))) =
      renderRow (rawDecoder shortest) types row := by
  have helements : ∀ (n : Nat), row.length = n → fixElements (row.map fun e => .dict (e.printed shortest)) =
      ((List.replicate n none).zip row).mapM fun e => e.2.render (rawDecoder shortest) e.1 := by
    induction row with
    | nil =>
        rintro n rfl
        rfl
    | cons e row ih =>
        rintro n rfl
        rw [List.map_cons, fixElements, fixKeysAndValueTypes, fix_element shortest _ none, ih _ rfl, List.length_cons,
          List.replicate_succ, List.zip_cons_cons, List.mapM_cons]
        show _ = (Element.render (rawDecoder shortest) e none).bind _
        rw [Element.render]
        show _ = ((rawSlot none (e.set (rawDecoder shortest))).bind _).bind _
        cases rawSlot none (e.set (rawDecoder shortest)) <;> rfl
  rw [fixKeysAndValueTypes, fixMembers_repeated _ (by decide), helements _ rfl]
  show _ = (((List.replicate row.length none).zip row).mapM fun e : Option UInt32 × Element => e.2.render (rawDecoder shortest) e.1).bind _
  cases ((List.replicate row.length none).zip row).mapM
    fun e : Option UInt32 × Element => e.2.render (rawDecoder shortest) e.1 <;> rfl

theorem fixElements_str (xs : List Str) : fixElements (xs.map .str) = some (xs.map .str) :=
  fixElements_map fun _ _ => rfl

theorem fixElements_uint32 (xs : List UInt32) : fixElements (xs.map ofUInt32) = some (xs.map ofUInt32) :=
  fixElements_map fun _ _ => rfl

theorem fix_dataSet (ds : DataSet) : fixKeysAndValueTypes (ds.printed shortest) = ds.render (rawDecoder shortest) := by
  have hrows : fixElements (ds.rows.map fun row => .dict (repeated "elements" (row.map fun e => .dict (e.printed shortest)))) =
      ds.rows.mapM (renderRow (rawDecoder shortest) ds.types) :=
    fixElements_mapM fun row _ => fix_row shortest ds.types row
  rw [DataSet.printed, fixKeysAndValueTypes, fixMembers_append, fixMembers_append, fixMembers_append,
    fixMembers_long _ (by decide) (by decide) (by decide), fixMembers_repeated _ (by decide),
    fixMembers_repeated _ (by decide), fixMembers_repeated _ (by decide), fixElements_str, fixElements_uint32, hrows,
    DataSet.render]
  cases ds.rows.mapM (renderRow (rawDecoder shortest) ds.types) <;> rfl

theorem fix_parameter (p : Parameter) :
    fixKeysAndValueTypes (p.printed shortest) = p.render (rawDecoder shortest) := by
  rw [Parameter.printed, fixKeysAndValueTypes, fixMembers_append, fixMembers_append,
    fixMembers_member _ (by decide) (g := .str) fun _ => rfl, fixMembers_member _ (by decide) (g := ofUInt32) fun _ => rfl,
    fix_element shortest _ p.type, Parameter.render]
  show _ = (rawSlot p.type (p.value.set (rawDecoder shortest))).bind _
  cases rawSlot p.type (p.value.set (rawDecoder shortest)) with
  | none => rfl
  | some v => simp only [Option.bind_eq_bind, Option.bind_some, Option.map_some, List.append_assoc]

theorem fix_metaData (m : MetaData) : fixComposite m.printed = some m.render := by
  have hstr : ∀ {key : String}, IsPlain (lit key) → ∀ (o : Option Str) (d : Option Value),
      fixMembers d (member key (o.map .str)) = some (member key (o.map .str)) := fun h o d =>
    fixMembers_member d h (fun _ => rfl) o
  rw [MetaData.printed, fixComposite]
  simp only [fixMembers_append]
  rw [fixMembers_member _ (by decide) (g := .bool) fun _ => rfl, hstr (by decide),
    fixMembers_long _ (by decide) (by decide) (by decide), fixMembers_long _ (by decide) (by decide) (by decide),
    hstr (by decide), hstr (by decide), hstr (by decide), hstr (by decide)]
  rfl

mutual

theorem fix_propertyValue : ∀ v : PropertyValue,
    fixKeysAndValueTypes (v.printed shortest) = v.render (rawDecoder shortest)
  | .mk type isNull content => by
      rw [PropertyValue.printed, fixKeysAndValueTypes, fixMembers_append, fixMembers_append,
        fixMembers_member _ (by decide) (g := ofUInt32) fun _ => rfl,
        fixMembers_member _ (by decide) (g := .bool) fun _ => rfl, fix_propertyContent content _ type,
        PropertyValue.render]
      cases hset : content.set (rawDecoder shortest) with
      | none => rfl
      | some set =>
          show _ = (rawSlot type set).bind _
          simp only [Option.bind_eq_bind, Option.bind_some]
          cases rawSlot type set with
          | none => rfl
          | some v => simp only [Option.bind_some, Option.map_some, List.append_assoc]

theorem fix_propertyContent : ∀ (content : PropertyContent) (datatype : Option Value) (type : Option UInt32),
    fixMembers datatype (content.printed shortest) = (do
      let set ← content.set (rawDecoder shortest)
      let v ← rawSlot type set
      some (member "value" v ++ content.extensions))
  | .unset, _, _ => rfl
  | .extension, _, _ => rfl
  | .scalar s, datatype, type => fix_element shortest datatype type (.scalar s)
  | .propertyset ps, datatype, type => by
      have hdict : fixComposite (ps.printed shortest) = fixKeysAndValueTypes (ps.printed shortest) := by
        cases ps
        rfl
      rw [PropertyContent.printed, fixMembers_value _ _ (by decide) (by decide) (by decide), hdict, fix_propertySet ps,
        PropertyContent.set]
      cases ps.render (rawDecoder shortest) with
      | none => rfl
      | some v => rfl
  | .propertysets sets, datatype, type => by
      rw [PropertyContent.printed, fixMembers_value _ _ (by decide) (by decide) (by decide), fixComposite,
        fixMembers_repeated _ (by decide), fix_sets sets, PropertyContent.set]
      cases renderSets (rawDecoder shortest) sets with
      | none => rfl
      | some vs => rfl

theorem fix_propertySet : ∀ ps : PropertySet,
    fixKeysAndValueTypes (ps.printed shortest) = ps.render (rawDecoder shortest)
  | .mk keys values => by
      rw [PropertySet.printed, fixKeysAndValueTypes, fixMembers_append, fixMembers_repeated _ (by decide),
        fixMembers_repeated _ (by decide), fixElements_str, fix_values values, PropertySet.render]
      cases renderValues (rawDecoder shortest) values <;> rfl

theorem fix_sets : ∀ sets : List PropertySet,
    fixElements (printedSets shortest sets) = renderSets (rawDecoder shortest) sets
  | [] => rfl
  | ps :: sets => by rw [printedSets, fixElements, renderSets, fix_propertySet ps, fix_sets sets]

theorem fix_values : ∀ values : List PropertyValue,
    fixElements (printedValues shortest values) = renderValues (rawDecoder shortest) values
  | [] => rfl
  | v :: values => by rw [printedValues, fixElements, renderValues, fix_propertyValue v, fix_values values]

end

theorem getMember_skip {key : String} {k : Str} (h : lit key ≠ k) (o : Option Value) (fields : List (Str × Value)) :
    getMember (member key o ++ fields) k = getMember fields k := by
  cases o with
  | none => rfl
  | some v =>
      show getMember ((lit key, v) :: fields) k = _
      rw [getMember, List.find?_cons_of_neg (by simpa using h)]
      rfl

theorem fix_header (h : Header) (datatype : Option Value) : fixMembers datatype h.printed = some h.render := by
  rw [Header.printed]
  simp only [fixMembers_append]
  rw [fixMembers_member _ (by decide) (g := .str) fun _ => rfl, fixMembers_long _ (by decide) (by decide) (by decide),
    fixMembers_long _ (by decide) (by decide) (by decide), fixMembers_member _ (by decide) (g := ofUInt32) fun _ => rfl,
    fixMembers_member _ (by decide) (g := .bool) fun _ => rfl, fixMembers_member _ (by decide) (g := .bool) fun _ => rfl,
    fixMembers_member _ (by decide) (g := .bool) fun _ => rfl, fixMembers_member _ (by decide) fix_metaData]
  rfl

theorem getMember_datatype (h : Header) (properties : Option Value) {rest : List (Str × Value)}
    (hrest : getMember rest (lit "datatype") = none) :
    getMember (h.printed ++ member "properties" properties ++ rest) (lit "datatype") = h.datatype.map ofUInt32 := by
  rw [Header.printed]
  simp only [List.append_assoc]
  rw [getMember_skip (by decide), getMember_skip (by decide), getMember_skip (by decide)]
  cases h.datatype with
  | some n => rfl
  | none =>
      rw [Option.map_none]
      show getMember (member "is_historical" _ ++ _) _ = none
      rw [getMember_skip (by decide), getMember_skip (by decide), getMember_skip (by decide), getMember_skip (by decide),
        getMember_skip (by decide)]
      exact hrest

theorem getMember_content (content : MetricContent) : getMember (content.printed shortest) (lit "datatype") = none := by
  cases content with
  | scalar s => cases s <;> rfl
  | _ => rfl

theorem decodeBytes_eq (datatype : Option UInt32) (b : Bytes) :
    decodeBytes (datatype.map ofUInt32) (.str (b64encode b)) =
      (rawSlot datatype (some (.bytes, .bytes b))).map fun v => v.getD .none := by
  rw [decodeBytes, b64decode_encode]
  cases datatype with
  | none => rfl
  | some n =>
      have hn : ((n.toNat : Int)).toNat = n.toNat := Int.toNat_natCast _
      simp only [Option.bind_eq_bind, Option.bind_some, Option.map_some, ofUInt32, hn, rawSlot]
      cases arrayGetter n.toNat with
      | none => rfl
      | some getter =>
          simp only
          cases getter b <;> rfl

mutual

theorem fix_metric : ∀ m : Metric, fixKeysAndValueTypes (m.printed shortest) = m.render (rawDecoder shortest)
  | .mk h properties content => by
      have hproperties : ∀ datatype : Option Value,
          fixMembers datatype (member "properties" (properties.map fun ps => ps.printed shortest)) =
            (renderProperties (rawDecoder shortest) properties).map (member "properties") := by
        intro datatype
        cases properties with
        | none => rfl
        | some ps =>
            show fixMembers datatype [(lit "properties", ps.printed shortest)] = _
            have hdict : fixComposite (ps.printed shortest) = fixKeysAndValueTypes (ps.printed shortest) := by
              cases ps
              rfl
            rw [fixMembers_plain _ (by decide), hdict, fix_propertySet, renderProperties]
            cases ps.render (rawDecoder shortest) <;> rfl
      rw [Metric.printed, fixKeysAndValueTypes, getMember_datatype h _ (getMember_content shortest content),
        fixMembers_append, fixMembers_append, fix_header, hproperties, fix_metricContent content, Metric.render]
      cases renderProperties (rawDecoder shortest) properties with
      | none => rfl
      | some ps =>
          simp only [Option.bind_eq_bind, Option.bind_some, Option.map_some]
          cases hset : content.set (rawDecoder shortest) with
          | none => rfl
          | some set =>
              show _ = (rawSlot h.datatype set).bind _
              simp only [Option.bind_some]
              cases rawSlot h.datatype set with
              | none => rfl
              | some v => simp only [Option.bind_some, Option.map_some, List.append_assoc]

theorem fix_metricContent : ∀ (content : MetricContent) (datatype : Option UInt32),
    fixMembers (datatype.map ofUInt32) (content.printed shortest) = (do
      let set ← content.set (rawDecoder shortest)
      let v ← rawSlot datatype set
      some (member "value" v ++ content.extensions))
  | .unset, _ => rfl
  | .extension, _ => rfl
  | .scalar s, datatype => fix_element shortest _ datatype (.scalar s)
  | .bytes b, datatype => by
      rw [MetricContent.printed, fixMembers, if_pos rfl, decodeBytes_eq, MetricContent.set]
      simp only [Option.bind_eq_bind, Option.bind_some]
      cases hraw : rawSlot datatype (some (.bytes, .bytes b)) with
      | none => rfl
      | some v =>
          have hsome : ∃ w, v = some w := by
            rw [rawSlot] at hraw
            split at hraw
            · obtain ⟨xs, _, rfl⟩ := Option.map_eq_some_iff.mp hraw
              exact ⟨_, rfl⟩
            · exact ⟨_, (Option.some.inj hraw).symm⟩
          obtain ⟨w, rfl⟩ := hsome
          rfl
  | .dataset ds, datatype => by
      have hdict : fixComposite (ds.printed shortest) = fixKeysAndValueTypes (ds.printed shortest) := rfl
      rw [MetricContent.printed, fixMembers_value _ _ (by decide) (by decide) (by decide), hdict, fix_dataSet,
        MetricContent.set]
      cases ds.render (rawDecoder shortest) with
      | none => rfl
      | some v => rfl
  | .template t, datatype => by
      have hdict : fixComposite (t.printed shortest) = fixKeysAndValueTypes (t.printed shortest) := by
        cases t
        rfl
      rw [MetricContent.printed, fixMembers_value _ _ (by decide) (by decide) (by decide), hdict, fix_template t,
        MetricContent.set]
      cases t.render (rawDecoder shortest) with
      | none => rfl
      | some v => rfl

theorem fix_template : ∀ t : Template, fixKeysAndValueTypes (t.printed shortest) = t.render (rawDecoder shortest)
  | .mk version metrics parameters templateRef isDefinition => by
      have hparameters : fixElements (parameters.map fun p => p.printed shortest) =
          parameters.mapM fun p => p.render (rawDecoder shortest) := fixElements_mapM fun p _ => fix_parameter shortest p
      rw [Template.printed, fixKeysAndValueTypes, fixMembers_append, fixMembers_append, fixMembers_append,
        fixMembers_append, fixMembers_member _ (by decide) (g := .str) fun _ => rfl, fixMembers_repeated _ (by decide),
        fixMembers_repeated _ (by decide), fixMembers_member _ (by decide) (g := .str) fun _ => rfl,
        fixMembers_member _ (by decide) (g := .bool) fun _ => rfl, fix_metrics metrics, hparameters, Template.render]
      cases renderMetrics (rawDecoder shortest) metrics with
      | none => rfl
      | some ms => cases parameters.mapM fun p => p.render (rawDecoder shortest) <;> rfl

theorem fix_metrics : ∀ metrics : List Metric,
    fixElements (printedMetrics shortest metrics) = renderMetrics (rawDecoder shortest) metrics
  | [] => rfl
  | m :: metrics => by rw [printedMetrics, fixElements, renderMetrics, fix_metric m, fix_metrics metrics]

end

/-- The dict of a payload: the body stays a string. -/
theorem convert_eq (p : Payload) : convertSpbPayloadToDict shortest p =
    (renderMetrics (rawDecoder shortest) p.metrics).map fun ms =>
      .dict (member "timestamp" (p.timestamp.map ofUInt64) ++ repeated "metrics" ms ++
        member "seq" (p.seq.map ofUInt64) ++ member "uuid" (p.uuid.map .str) ++
        member "body" (p.body.map fun b => .str (b64encode b))) := by
  rw [convertSpbPayloadToDict, Payload.printed, fixKeysAndValueTypes]
  simp only [fixMembers_append]
  rw [fixMembers_long _ (by decide) (by decide) (by decide), fixMembers_repeated _ (by decide),
    fixMembers_long _ (by decide) (by decide) (by decide), fixMembers_member _ (by decide) (g := .str) fun _ => rfl,
    fixMembers_member _ (by decide) (g := fun b => .str (b64encode b)) fun _ => rfl, fix_metrics]
  cases renderMetrics (rawDecoder shortest) p.metrics <;> rfl

end

end Uns.Sparkplug
