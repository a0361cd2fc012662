/-
# `Sparkplug.DecodersAgree` — when the dict and the datatype enum read the same

The dict holds each value as its field does; the enum turns a signed integer back.  So they
agree where no signed value has its upper bit set, a float is spelled as what it is, each
value is in the field of its datatype, and null values are not there (`decodersAgree_iff`).
-/
import UnifiedNamespace.Sparkplug.Decoders

namespace Uns.Sparkplug

open Py

/-! ## The claim -/

/-- Both are there, and one value. -/
def Agree {α : Type} (x y : Option α) : Prop := ∃ v, x = some v ∧ y = some v

/-- The metrics of a decoded payload. -/
def metricsOf : Value → List Value
  | .dict fields =>
      match getMember fields (lit "metrics") with
      | some (.list ms) => ms
      | _ => []
  | _ => []

/-- Each metric of the dict is what the enum reads, with its properties and all that is in its value. -/
def DecodersAgree (shortest : PyFloat → PyFloat) (p : Payload) : Prop :=
  Agree ((convertSpbPayloadToDict shortest p).map metricsOf) (renderMetrics enumDecoder p.metrics)

/-! ## The condition -/

def PyFloat.IsFinite : PyFloat → Prop
  | .fin _ _ => True
  | _ => False

section

variable (shortest : PyFloat → PyFloat)

/-- A number of a signed type has no upper bit; in the field of another type only a zero reads the same. -/
def Scalar.Agrees : Scalar → DataType → Prop
  | .int _, .plain .int => True
  | .int n, .signedInt bits => n.toNat < 2 ^ (bits - 1)
  | .int n, .plain .long => n = 0
  | .int n, .signedLong _ => n = 0
  | .long _, .plain .long => True
  | .long n, .signedLong bits => n.toNat < 2 ^ (bits - 1)
  | .long n, .plain .int => n = 0
  | .long n, .signedInt _ => n = 0
  | .float x, .plain .float => PyFloat.IsFinite x ∧ shortest x = x
  | .float x, .plain .double => PyFloat.IsFinite x ∧ shortest x = floatZero
  | .double x, .plain .double => PyFloat.IsFinite x
  | .double x, .plain .float => x = floatZero
  | .boolean _, .plain .boolean => True
  | .string _, .plain .string => True
  | _, _ => False

def ScalarAgrees (types : Nat → Option DataType) (type : Option UInt32) (isNull : Bool) (s : Scalar) : Prop :=
  isNull = false ∧ ∃ t, types (type.getD 0).toNat = some t ∧ s.Agrees shortest t

/-- No value is read where it is null, or its type is the unknown one. -/
def UnsetAgrees (types : Nat → Option DataType) (type : Option UInt32) (isNull : Bool) : Prop :=
  isNull = true ∨ types (type.getD 0).toNat = some .unknown

/-- A message in its own field reads the same when its parts do; an empty one also reads as that of
another type. -/
def MessageAgrees (types : Nat → Option DataType) (type : Option UInt32) (isNull : Bool) (field : ValueField)
    (parts empty : Prop) : Prop :=
  isNull = false ∧ ∃ f, types (type.getD 0).toNat = some (.plain f) ∧
    (f = field ∧ parts ∨ f ≠ field ∧ f.default = .dict [] ∧ empty)

def ElementAgrees (type : Option UInt32) : Element → Prop
  | .scalar s => ScalarAgrees shortest basicDataType type false s
  | _ => UnsetAgrees basicDataType type false

/-- Each row has an element for each type. -/
def DataSet.Agrees (ds : DataSet) : Prop :=
  ∀ row ∈ ds.rows, List.Forall₂ (fun type e => ElementAgrees shortest (some type) e) ds.types row

def DataSet.IsEmpty (ds : DataSet) : Prop :=
  ds.numOfColumns = none ∧ ds.columns = [] ∧ ds.types = [] ∧ ds.rows = []

mutual

def PropertyValue.Agrees : PropertyValue → Prop
  | .mk type isNull content => content.Agrees type (isNull.getD false)

def PropertyContent.Agrees : PropertyContent → Option UInt32 → Bool → Prop
  | .scalar s, type, isNull => ScalarAgrees shortest propertyDataType type isNull s
  | .propertyset ps, type, isNull =>
      MessageAgrees propertyDataType type isNull .propertySet ps.Agrees (ps = .mk [] [])
  | .propertysets sets, type, isNull =>
      MessageAgrees propertyDataType type isNull .propertySetList (setsAgree sets) (sets = [])
  | _, type, isNull => UnsetAgrees propertyDataType type isNull

def PropertySet.Agrees : PropertySet → Prop
  | .mk _ values => valuesAgree values

def setsAgree : List PropertySet → Prop
  | [] => True
  | ps :: sets => ps.Agrees ∧ setsAgree sets

def valuesAgree : List PropertyValue → Prop
  | [] => True
  | v :: values => v.Agrees ∧ valuesAgree values

end

/-- Bytes are read by the datatypes for bytes and, when they can be unpacked, by those of arrays. -/
def BytesAgree (type : Option UInt32) (isNull : Bool) (b : Bytes) : Prop :=
  isNull = false ∧ ∃ t, metricDataType (type.getD 0).toNat = some t ∧
    (t = .plain .bytes ∨ ∃ getter, t = .array getter ∧ (getter b).isSome = true)

def propertiesAgree : Option PropertySet → Prop
  | none => True
  | some ps => ps.Agrees shortest

mutual

def Metric.Agrees : Metric → Prop
  | .mk h properties content => propertiesAgree shortest properties ∧ content.Agrees h.datatype (h.isNull.getD false)

def MetricContent.Agrees : MetricContent → Option UInt32 → Bool → Prop
  | .scalar s, type, isNull => ScalarAgrees shortest metricDataType type isNull s
  | .bytes b, type, isNull => BytesAgree type isNull b
  | .dataset ds, type, isNull => MessageAgrees metricDataType type isNull .dataset (ds.Agrees shortest) ds.IsEmpty
  | .template t, type, isNull =>
      MessageAgrees metricDataType type isNull .template t.Agrees (t = .mk none [] [] none none)
  | _, type, isNull => UnsetAgrees metricDataType type isNull

def Template.Agrees : Template → Prop
  | .mk _ metrics parameters _ _ => metricsAgree metrics ∧ ∀ p ∈ parameters, ElementAgrees shortest p.type p.value

def metricsAgree : List Metric → Prop
  | [] => True
  | m :: metrics => m.Agrees ∧ metricsAgree metrics

end

end

/-! ## Agreement of parts -/

theorem agree_map {α β : Type} {F : α → β} (hF : Function.Injective F) {x y : Option α} :
    Agree (x.map F) (y.map F) ↔ Agree x y := by
  constructor
  · rintro ⟨v, hx, hy⟩
    obtain ⟨a, rfl, rfl⟩ := Option.map_eq_some_iff.mp hx
    obtain ⟨b, rfl, heq⟩ := Option.map_eq_some_iff.mp hy
    exact ⟨a, rfl, by rw [hF heq]⟩
  · rintro ⟨a, rfl, rfl⟩
    exact ⟨F a, rfl, rfl⟩

theorem bind_some_map {α β : Type} {F : α → β} {x : Option α} : (x.bind fun a => some (F a)) = x.map F := by
  cases x <;> rfl

/-- Two parts that what is made of them determines. -/
theorem agree_parts {α β γ : Type} {F : α → β → γ} (hF : ∀ {a b a' b'}, F a b = F a' b' → a = a' ∧ b = b')
    {x x' : Option α} {y y' : Option β} :
    Agree (x.bind fun a => y.bind fun b => some (F a b)) (x'.bind fun a => y'.bind fun b => some (F a b)) ↔
      Agree x x' ∧ Agree y y' := by
  constructor
  · rintro ⟨all, hx, hx'⟩
    simp only [Option.bind_eq_some_iff] at hx hx'
    obtain ⟨a, ha, b, hb, hall⟩ := hx
    obtain ⟨a', ha', b', hb', hall'⟩ := hx'
    obtain ⟨rfl, rfl⟩ := hF (Option.some.inj (hall.trans hall'.symm))
    exact ⟨⟨a, ha, ha'⟩, ⟨b, hb, hb'⟩⟩
  · rintro ⟨⟨a, rfl, rfl⟩, ⟨b, rfl, rfl⟩⟩
    exact ⟨F a b, rfl, rfl⟩

theorem agree_cons {α : Type} {x y : Option α} {xs ys : Option (List α)} :
    Agree (x.bind fun v => xs.bind fun vs => some (v :: vs)) (y.bind fun v => ys.bind fun vs => some (v :: vs)) ↔
      Agree x y ∧ Agree xs ys :=
  agree_parts List.cons.inj

theorem agree_mapM {α β : Type} {f g : α → Option β} {xs : List α} :
    Agree (xs.mapM f) (xs.mapM g) ↔ ∀ x ∈ xs, Agree (f x) (g x) := by
  induction xs with
  | nil => exact ⟨fun _ x hx => (nomatch hx), fun _ => ⟨[], rfl, rfl⟩⟩
  | cons x xs ih =>
      rw [List.forall_mem_cons, ← ih, List.mapM_cons, List.mapM_cons]
      exact agree_cons

theorem member_inj {key : String} {v w : Option Value} (h : member key v = member key w) : v = w := by
  cases v with
  | none => cases w with
    | none => rfl
    | some w => cases h
  | some v => cases w with
    | none => cases h
    | some w =>
        cases h
        rfl

theorem repeated_inj {key : String} {xs ys : List Value} (h : repeated key xs = repeated key ys) : xs = ys := by
  cases xs with
  | nil => cases ys with
    | nil => rfl
    | cons y ys => cases h
  | cons x xs => cases ys with
    | nil => cases h
    | cons y ys =>
        cases h
        rfl

/-- A member before others of other keys. -/
theorem member_append_inj {key : String} {v w : Option Value} {ms ns : List (Str × Value)} (hms : ∀ m ∈ ms, m.1 ≠ lit key)
    (hns : ∀ m ∈ ns, m.1 ≠ lit key) (h : member key v ++ ms = member key w ++ ns) : v = w ∧ ms = ns := by
  cases v with
  | none => cases w with
    | none => exact ⟨rfl, h⟩
    | some w =>
        have hms' : ms = (lit key, w) :: ns := h
        exact absurd rfl (hms (lit key, w) (hms' ▸ List.mem_cons_self))
  | some v => cases w with
    | none =>
        have hns' : (lit key, v) :: ms = ns := h
        exact absurd rfl (hns (lit key, v) (hns' ▸ List.mem_cons_self))
    | some w =>
        have hcons : (lit key, v) :: ms = (lit key, w) :: ns := h
        cases hcons
        exact ⟨rfl, rfl⟩

section

variable {shortest : PyFloat → PyFloat} {types : Nat → Option DataType} {type : Option UInt32} {isNull : Bool}

theorem enumSlot_eq (set : Option (ValueField × Value)) (hnull : isNull = false) : enumSlot types type isNull set =
    (types (type.getD 0).toNat).bind fun t => (getValue t set).map present := by
  rw [enumSlot, hnull]
  cases types (type.getD 0).toNat with
  | none => rfl
  | some t =>
      show (getValue t set).bind _ = (getValue t set).map _
      cases getValue t set <;> rfl

/-- No default is `None`. -/
theorem present_default (field : ValueField) : present field.default = some field.default := by
  cases field <;> rfl

theorem agree_unset : Agree (rawSlot type none) (enumSlot types type isNull none) ↔ UnsetAgrees types type isNull := by
  have hraw : rawSlot type none = some none := rfl
  rw [hraw]
  cases hnull : isNull with
  | true => exact ⟨fun _ => .inl rfl, fun _ => ⟨none, rfl, rfl⟩⟩
  | false =>
      rw [enumSlot_eq none rfl]
      constructor
      · rintro ⟨v, hv, henum⟩
        cases hv
        obtain ⟨t, ht, hget⟩ := Option.bind_eq_some_iff.mp henum
        refine .inr (ht.trans ?_)
        obtain ⟨w, hw, hpresent⟩ := Option.map_eq_some_iff.mp hget
        cases t with
        | unknown => rfl
        | plain f =>
            cases hw
            rw [getAttr, present_default] at hpresent
            cases hpresent
        | signedInt bits =>
            cases hw
            cases hpresent
        | signedLong bits =>
            cases hw
            cases hpresent
        | array getter =>
            obtain ⟨xs, _, rfl⟩ := Option.map_eq_some_iff.mp hw
            cases hpresent
      · rintro (h | h)
        · cases h
        · exact ⟨none, rfl, by rw [h]; rfl⟩

theorem signed_eq {bits n : Nat} : signed bits n = n ↔ n < 2 ^ (bits - 1) := by
  have hpos : (0 : Int) < 2 ^ bits := by positivity
  rw [signed]
  split
  · omega
  · omega

theorem signed_zero (bits : Nat) : signed bits 0 = 0 := signed_eq.mpr (by positivity)

theorem printFloat_cases (spell : PyFloat → PyFloat) (x : PyFloat) :
    PyFloat.IsFinite x ∧ printFloat spell x = .float (spell x) ∨
      ¬ PyFloat.IsFinite x ∧ ∃ c s, printFloat spell x = .str (c :: s) := by
  cases x with
  | nan => exact .inr ⟨fun h => h, _, _, rfl⟩
  | inf neg => cases neg with
    | true => exact .inr ⟨fun h => h, _, _, rfl⟩
    | false => exact .inr ⟨fun h => h, _, _, rfl⟩
  | fin neg d => exact .inl ⟨trivial, rfl⟩

theorem isFinite_floatZero : PyFloat.IsFinite floatZero := by
  have hdouble : IsDouble 0 := by
    have h := isDouble_natCast (n := 0) (by norm_num)
    rwa [Nat.cast_zero] at h
  have hzero : toDouble 0 = some ⟨0, hdouble⟩ := toDouble_mag ⟨0, hdouble⟩
  have hbits : floatZero = .fin false ⟨0, hdouble⟩ := by
    simp [floatZero, floatOfBits, hzero]
  rw [hbits]
  trivial

theorem zero_eq_toNat32 {n : UInt32} : (0 : Int) = n.toNat ↔ n = 0 := by
  rw [← UInt32.toNat_inj, UInt32.toNat_zero]
  omega

theorem zero_eq_toNat64 {n : UInt64} : (0 : Int) = n.toNat ↔ n = 0 := by
  rw [← UInt64.toNat_inj, UInt64.toNat_zero]
  omega

attribute [local simp] getValue getAttr Scalar.field Scalar.value Scalar.raw Scalar.Agrees ValueField.default toSigned
  present ofUInt32 ofUInt64 signed_eq signed_zero zero_eq_toNat32 zero_eq_toNat64

/-- What is read of a scalar is what is in the dict. -/
theorem getValue_scalar (s : Scalar) (t : DataType) :
    (getValue t (some (s.field, s.value))).map present = some (some (s.raw shortest)) ↔ s.Agrees shortest t := by
  cases s with
  | int n =>
      cases t with
      | plain f => cases f <;> simp
      | _ => simp
  | long n =>
      cases t with
      | plain f => cases f <;> simp
      | _ => simp
  | float x =>
      have hraw : Scalar.raw shortest (.float x) = printFloat shortest x := rfl
      rw [hraw]
      rcases printFloat_cases shortest x with ⟨hfinite, heq⟩ | ⟨hfinite, c, r, heq⟩
      · rw [heq]
        cases t with
        | plain f => cases f <;> simp [hfinite, eq_comm]
        | _ => simp
      · rw [heq]
        cases t with
        | plain f => cases f <;> simp [hfinite]
        | _ => simp
  | double x =>
      have hraw : Scalar.raw shortest (.double x) = printFloat (fun x => x) x := rfl
      rw [hraw]
      rcases printFloat_cases (fun x => x) x with ⟨hfinite, heq⟩ | ⟨hfinite, c, r, heq⟩
      · rw [heq]
        cases t with
        | plain f => cases f <;> simp [hfinite, eq_comm]
        | _ => simp
      · have hzero : x ≠ floatZero := by
          rintro rfl
          exact hfinite isFinite_floatZero
        rw [heq]
        cases t with
        | plain f => cases f <;> simp [hfinite, hzero]
        | _ => simp
  | boolean b =>
      cases t with
      | plain f => cases f <;> simp
      | _ => simp
  | string s =>
      cases t with
      | plain f => cases f <;> simp
      | _ => simp

/-- A slot whose raw value is there. -/
theorem agree_slot {set : Option (ValueField × Value)} {v : Value} : Agree (some (some v)) (enumSlot types type isNull set) ↔
    isNull = false ∧ ∃ t, types (type.getD 0).toNat = some t ∧ (getValue t set).map present = some (some v) := by
  cases hnull : isNull with
  | true =>
      refine ⟨fun ⟨w, hw, henum⟩ => ?_, fun h => (nomatch h.1)⟩
      cases hw
      cases henum
  | false =>
      rw [enumSlot_eq set rfl]
      constructor
      · rintro ⟨w, hw, henum⟩
        cases hw
        exact ⟨rfl, Option.bind_eq_some_iff.mp henum⟩
      · rintro ⟨_, henum⟩
        exact ⟨_, rfl, Option.bind_eq_some_iff.mpr henum⟩

theorem rawSlot_scalar (type : Option UInt32) (s : Scalar) : rawSlot type (some (s.field, s.raw shortest)) = some (some (s.raw shortest)) :=
  rawSlot_of_ne fun v h => by cases s <;> cases h

theorem agree_scalar (s : Scalar) : Agree (rawSlot type (some (s.field, s.raw shortest)))
    (enumSlot types type isNull (some (s.field, s.value))) ↔ ScalarAgrees shortest types type isNull s := by
  rw [rawSlot_scalar, agree_slot, ScalarAgrees]
  simp only [getValue_scalar]

/-- A message under the field it has. -/
theorem agree_message {field : ValueField} (hfield : field.default = .dict []) {raw enum : Option Value} {parts empty : Prop}
    (hraw : ∀ v ∈ raw, ∃ ms, v = .dict ms) (hparts : Agree raw enum ↔ parts)
    (hempty : raw = some (.dict []) ↔ empty) (henum : empty → enum = some (.dict [])) :
    Agree ((raw.map fun v => some (field, v)).bind (rawSlot type))
      ((enum.map fun v => some (field, v)).bind (enumSlot types type isNull)) ↔
        MessageAgrees types type isNull field parts empty := by
  have hbytes : field ≠ .bytes := by
    rintro rfl
    cases hfield
  have hrawSlot : ∀ v, rawSlot type (some (field, v)) = some (some v) := fun v =>
    rawSlot_of_ne fun w h => hbytes (Prod.mk.inj (Option.some.inj h)).1
  constructor
  · rintro ⟨u, hr, he⟩
    obtain ⟨r, hr, hru⟩ := Option.bind_eq_some_iff.mp hr
    obtain ⟨v, hv, rfl⟩ := Option.map_eq_some_iff.mp hr
    obtain ⟨e, he, heu⟩ := Option.bind_eq_some_iff.mp he
    obtain ⟨w, hw, rfl⟩ := Option.map_eq_some_iff.mp he
    rw [hrawSlot] at hru
    cases hru
    obtain ⟨ms, rfl⟩ := hraw v hv
    obtain ⟨hnull, t, ht, hget⟩ := agree_slot.mp ⟨_, rfl, heu⟩
    cases t with
    | unknown => cases hget
    | array getter =>
        have hattr : getAttr (some (field, w)) .bytes = .bytes [] := by
          rw [getAttr, if_neg hbytes]
          rfl
        rw [getValue, hattr] at hget
        obtain ⟨x, hx, hpresent⟩ := Option.map_eq_some_iff.mp hget
        obtain ⟨xs, _, rfl⟩ := Option.map_eq_some_iff.mp hx
        cases hpresent
    | signedInt bits =>
        have hattr : getAttr (some (field, w)) .int = .int 0 := by
          rw [getAttr, if_neg (by rintro rfl; cases hfield)]
          rfl
        rw [getValue, hattr] at hget
        cases hget
    | signedLong bits =>
        have hattr : getAttr (some (field, w)) .long = .int 0 := by
          rw [getAttr, if_neg (by rintro rfl; cases hfield)]
          rfl
        rw [getValue, hattr] at hget
        cases hget
    | plain f =>
        rw [getValue, Option.map_some, Option.some.injEq, getAttr] at hget
        refine ⟨hnull, f, ht, ?_⟩
        by_cases hf : field = f
        · simp only [if_pos hf] at hget
          have hwv : w = .dict ms := by
            cases w <;> cases hget
            rfl
          exact .inl ⟨hf.symm, hparts.mp ⟨.dict ms, hv, by rw [hw, hwv]⟩⟩
        · simp only [if_neg hf, present_default, Option.some.injEq] at hget
          have hempty' : ms = [] := by
            cases f <;> cases hget <;> rfl
          rw [hempty'] at hget hv
          exact .inr ⟨fun h => hf h.symm, hget, hempty.mp hv⟩
  · rintro ⟨hnull, f, ht, ⟨rfl, hp⟩ | ⟨hf, hdefault, he⟩⟩
    · obtain ⟨v, hv, hw⟩ := hparts.mpr hp
      obtain ⟨ms, rfl⟩ := hraw v hv
      rw [hv, hw, Option.map_some, Option.bind_some, Option.bind_some, hrawSlot]
      refine agree_slot.mpr ⟨hnull, _, ht, ?_⟩
      rw [getValue, getAttr, Option.map_some]
      simp
    · rw [hempty.mpr he, henum he, Option.map_some, Option.bind_some, Option.bind_some, hrawSlot]
      refine agree_slot.mpr ⟨hnull, _, ht, ?_⟩
      rw [getValue, getAttr, Option.map_some]
      simp only [if_neg fun h => hf (Eq.symm h), hdefault]
      rfl

/-! ## Elements and data sets -/

theorem agree_elementSlot (e : Element) (other : Option UInt32) : Agree (rawSlot other (e.set (rawDecoder shortest)))
    (enumSlot basicDataType type false (e.set enumDecoder)) ↔ ElementAgrees shortest type e := by
  cases e with
  | scalar s =>
      show Agree (rawSlot other (some (s.field, s.raw shortest))) _ ↔ _
      rw [rawSlot_scalar, ← rawSlot_scalar type]
      exact agree_scalar s
  | _ =>
      show Agree (rawSlot type none) (enumSlot basicDataType type false none) ↔ _
      exact agree_unset

theorem agree_element (e : Element) (other : Option UInt32) :
    Agree (e.render (rawDecoder shortest) other) (e.render enumDecoder type) ↔ ElementAgrees shortest type e := by
  have hF : Function.Injective fun v : Option Value => Value.dict (member "value" v ++ e.extensions) := by
    intro v w h
    exact member_inj (List.append_cancel_right (Value.dict.inj h))
  have hraw : e.render (rawDecoder shortest) other =
      (rawSlot other (e.set (rawDecoder shortest))).map fun v => .dict (member "value" v ++ e.extensions) :=
    bind_some_map
  have henum : e.render enumDecoder type = (enumSlot basicDataType type false (e.set enumDecoder)).map fun v =>
      .dict (member "value" v ++ e.extensions) := bind_some_map
  rw [hraw, henum, agree_map hF]
  exact agree_elementSlot e other

theorem agree_elements (types : List UInt32) (row : List Element) (h : types.length = row.length) :
    Agree (((List.replicate row.length none).zip row).mapM fun e => e.2.render (rawDecoder shortest) e.1)
      (((types.map some).zip row).mapM fun e => e.2.render enumDecoder e.1) ↔
        List.Forall₂ (fun type e => ElementAgrees shortest (some type) e) types row := by
  induction types generalizing row with
  | nil =>
      cases row with
      | nil => exact ⟨fun _ => .nil, fun _ => ⟨[], rfl, rfl⟩⟩
      | cons e row => cases h
  | cons type types ih =>
      cases row with
      | nil => cases h
      | cons e row =>
          rw [List.length_cons, List.replicate_succ, List.map_cons, List.zip_cons_cons, List.zip_cons_cons,
            List.mapM_cons, List.mapM_cons, List.forall₂_cons, ← ih row (Nat.succ.inj h),
            ← agree_element e none]
          exact agree_cons

theorem agree_row (types : List UInt32) (row : List Element) :
    Agree (renderRow (rawDecoder shortest) types row) (renderRow enumDecoder types row) ↔
      List.Forall₂ (fun type e => ElementAgrees shortest (some type) e) types row := by
  have hF : Function.Injective fun vs => Value.dict (repeated "elements" vs) := fun vs ws h => repeated_inj (Value.dict.inj h)
  have hraw : renderRow (rawDecoder shortest) types row =
      (((List.replicate row.length none).zip row).mapM fun e : Option UInt32 × Element =>
        e.2.render (rawDecoder shortest) e.1).map fun vs => .dict (repeated "elements" vs) := bind_some_map
  by_cases hlength : types.length = row.length
  · have henum : renderRow enumDecoder types row =
        (((types.map some).zip row).mapM fun e : Option UInt32 × Element => e.2.render enumDecoder e.1).map
          fun vs => .dict (repeated "elements" vs) := by
      have htypes : enumDecoder.rowTypes types row.length = some (types.map some) := if_pos hlength
      rw [renderRow, htypes]
      exact bind_some_map
    rw [hraw, henum, agree_map hF]
    exact agree_elements types row hlength
  · have henum : renderRow enumDecoder types row = none := by
      have htypes : enumDecoder.rowTypes types row.length = none := if_neg hlength
      rw [renderRow, htypes]
      rfl
    rw [henum]
    refine ⟨fun ⟨v, _, hv⟩ => (nomatch hv), fun h => absurd h.length_eq hlength⟩

theorem agree_dataSet (ds : DataSet) :
    Agree (ds.render (rawDecoder shortest)) (ds.render enumDecoder) ↔ ds.Agrees shortest := by
  have hF : Function.Injective fun rows => Value.dict (member "num_of_columns" (ds.numOfColumns.map ofUInt64) ++
      repeated "columns" (ds.columns.map .str) ++ repeated "types" (ds.types.map ofUInt32) ++ repeated "rows" rows) :=
    fun rows rows' h => repeated_inj (List.append_cancel_left (Value.dict.inj h))
  have hrender : ∀ D : Decoder, ds.render D = (ds.rows.mapM (renderRow D ds.types)).map fun rows =>
      .dict (member "num_of_columns" (ds.numOfColumns.map ofUInt64) ++ repeated "columns" (ds.columns.map .str) ++
        repeated "types" (ds.types.map ofUInt32) ++ repeated "rows" rows) := by
    intro D
    exact bind_some_map
  rw [hrender, hrender, agree_map hF, agree_mapM, DataSet.Agrees]
  simp only [agree_row]

theorem member_eq_nil {key : String} {v : Option Value} : member key v = [] ↔ v = none := by
  cases v with
  | none => exact ⟨fun _ => rfl, fun _ => rfl⟩
  | some v => exact ⟨fun h => (nomatch h), fun h => (nomatch h)⟩

theorem repeated_eq_nil {key : String} {xs : List Value} : repeated key xs = [] ↔ xs = [] := by
  cases xs with
  | nil => exact ⟨fun _ => rfl, fun _ => rfl⟩
  | cons x xs => exact ⟨fun h => (nomatch h), fun h => (nomatch h)⟩

theorem mapM_eq_nil {α β : Type} {f : α → Option β} {xs : List α} : xs.mapM f = some [] ↔ xs = [] := by
  cases xs with
  | nil => exact ⟨fun _ => rfl, fun _ => rfl⟩
  | cons x xs =>
      refine ⟨fun h => ?_, fun h => (nomatch h)⟩
      rw [List.mapM_cons] at h
      obtain ⟨y, _, h⟩ := Option.bind_eq_some_iff.mp h
      obtain ⟨ys, _, h⟩ := Option.bind_eq_some_iff.mp h
      cases Option.some.inj h

/-- The dict of a data set is empty when the data set is. -/
theorem dataSet_empty (D : Decoder) (ds : DataSet) : ds.render D = some (.dict []) ↔ ds.IsEmpty := by
  have hrender : ds.render D = (ds.rows.mapM (renderRow D ds.types)).map fun rows =>
      .dict (member "num_of_columns" (ds.numOfColumns.map ofUInt64) ++ repeated "columns" (ds.columns.map .str) ++
        repeated "types" (ds.types.map ofUInt32) ++ repeated "rows" rows) := bind_some_map
  rw [hrender, Option.map_eq_some_iff, DataSet.IsEmpty]
  constructor
  · rintro ⟨rows, hrows, heq⟩
    have hnil := Value.dict.inj heq
    simp only [List.append_eq_nil_iff, member_eq_nil, repeated_eq_nil, Option.map_eq_none_iff, List.map_eq_nil_iff] at hnil
    obtain ⟨⟨⟨hnumber, hcolumns⟩, htypes⟩, rfl⟩ := hnil
    exact ⟨hnumber, hcolumns, htypes, mapM_eq_nil.mp hrows⟩
  · rintro ⟨hnumber, hcolumns, htypes, hrows⟩
    exact ⟨[], mapM_eq_nil.mpr hrows, by rw [hnumber, hcolumns, htypes]; rfl⟩

/-! ## Properties -/

theorem renderValues_eq_nil {D : Decoder} {values : List PropertyValue} : renderValues D values = some [] ↔ values = [] := by
  cases values with
  | nil => exact ⟨fun _ => rfl, fun _ => rfl⟩
  | cons v values =>
      refine ⟨fun h => ?_, fun h => (nomatch h)⟩
      rw [renderValues] at h
      obtain ⟨w, _, h⟩ := Option.bind_eq_some_iff.mp h
      obtain ⟨ws, _, h⟩ := Option.bind_eq_some_iff.mp h
      cases h

theorem renderSets_eq_nil {D : Decoder} {sets : List PropertySet} : renderSets D sets = some [] ↔ sets = [] := by
  cases sets with
  | nil => exact ⟨fun _ => rfl, fun _ => rfl⟩
  | cons ps sets =>
      refine ⟨fun h => ?_, fun h => (nomatch h)⟩
      rw [renderSets] at h
      obtain ⟨w, _, h⟩ := Option.bind_eq_some_iff.mp h
      obtain ⟨ws, _, h⟩ := Option.bind_eq_some_iff.mp h
      cases h

theorem propertySet_empty (D : Decoder) (ps : PropertySet) : ps.render D = some (.dict []) ↔ ps = .mk [] [] := by
  obtain ⟨keys, values⟩ := ps
  rw [PropertySet.render, Option.map_eq_some_iff]
  constructor
  · rintro ⟨vs, hvs, heq⟩
    have hnil := Value.dict.inj heq
    simp only [List.append_eq_nil_iff, repeated_eq_nil, List.map_eq_nil_iff] at hnil
    obtain ⟨rfl, rfl⟩ := hnil
    rw [renderValues_eq_nil.mp hvs]
  · intro heq
    cases heq
    exact ⟨[], rfl, rfl⟩

theorem propertySet_dict {D : Decoder} {ps : PropertySet} {v : Value} (h : ps.render D = some v) : ∃ ms, v = .dict ms := by
  obtain ⟨keys, values⟩ := ps
  rw [PropertySet.render] at h
  obtain ⟨vs, _, rfl⟩ := Option.map_eq_some_iff.mp h
  exact ⟨_, rfl⟩

mutual

theorem agree_propertyValue : ∀ v : PropertyValue,
    Agree (v.render (rawDecoder shortest)) (v.render enumDecoder) ↔ v.Agrees shortest
  | .mk type isNull content => by
      have hF : Function.Injective fun v => Value.dict (member "type" (type.map ofUInt32) ++
          member "is_null" (isNull.map .bool) ++ member "value" v ++ content.extensions) := by
        intro v w h
        exact member_inj (List.append_cancel_left (List.append_cancel_right (Value.dict.inj h)))
      have hrender : ∀ D : Decoder, PropertyValue.render D (.mk type isNull content) =
          ((content.set D).bind (D.slot propertyDataType type (isNull.getD false))).map fun v =>
            .dict (member "type" (type.map ofUInt32) ++ member "is_null" (isNull.map .bool) ++ member "value" v ++
              content.extensions) := by
        intro D
        rw [PropertyValue.render]
        cases content.set D with
        | none => rfl
        | some set => exact bind_some_map
      rw [hrender, hrender, agree_map hF, PropertyValue.Agrees]
      exact agree_propertyContent content type (isNull.getD false)

theorem agree_propertyContent : ∀ (content : PropertyContent) (type : Option UInt32) (isNull : Bool),
    Agree ((content.set (rawDecoder shortest)).bind (rawSlot type))
      ((content.set enumDecoder).bind (enumSlot propertyDataType type isNull)) ↔ content.Agrees shortest type isNull
  | .unset, _, _ => agree_unset
  | .extension, _, _ => agree_unset
  | .scalar s, _, _ => agree_scalar s
  | .propertyset ps, type, isNull => by
      rw [PropertyContent.set, PropertyContent.set, PropertyContent.Agrees]
      exact agree_message rfl (fun v hv => propertySet_dict hv) (agree_propertySet ps) (propertySet_empty _ ps)
        (propertySet_empty _ ps).mpr
  | .propertysets sets, type, isNull => by
      have hF : Function.Injective fun vs => Value.dict (repeated "propertyset" vs) := fun vs ws h =>
        repeated_inj (Value.dict.inj h)
      have hempty : ∀ D : Decoder, (renderSets D sets).map (fun vs => Value.dict (repeated "propertyset" vs)) =
          some (.dict []) ↔ sets = [] := by
        intro D
        rw [Option.map_eq_some_iff]
        constructor
        · rintro ⟨vs, hvs, heq⟩
          rw [repeated_eq_nil.mp (Value.dict.inj heq)] at hvs
          exact renderSets_eq_nil.mp hvs
        · exact fun h => ⟨[], renderSets_eq_nil.mpr h, rfl⟩
      have hset : ∀ D : Decoder, PropertyContent.set D (.propertysets sets) =
          ((renderSets D sets).map fun vs => Value.dict (repeated "propertyset" vs)).map fun v => some (.propertySetList, v) := by
        intro D
        rw [PropertyContent.set, Option.map_map]
        rfl
      rw [hset, hset, PropertyContent.Agrees]
      refine agree_message rfl ?_ ((agree_map hF).trans (agree_sets sets)) (hempty _) (hempty _).mpr
      intro v hv
      obtain ⟨vs, _, rfl⟩ := Option.map_eq_some_iff.mp hv
      exact ⟨_, rfl⟩

theorem agree_propertySet : ∀ ps : PropertySet,
    Agree (ps.render (rawDecoder shortest)) (ps.render enumDecoder) ↔ ps.Agrees shortest
  | .mk keys values => by
      have hF : Function.Injective fun vs => Value.dict (repeated "keys" (keys.map .str) ++ repeated "values" vs) :=
        fun vs ws h => repeated_inj (List.append_cancel_left (Value.dict.inj h))
      rw [PropertySet.render, PropertySet.render, agree_map hF, PropertySet.Agrees]
      exact agree_values values

theorem agree_sets : ∀ sets : List PropertySet,
    Agree (renderSets (rawDecoder shortest) sets) (renderSets enumDecoder sets) ↔ setsAgree shortest sets
  | [] => ⟨fun _ => trivial, fun _ => ⟨[], rfl, rfl⟩⟩
  | ps :: sets => by
      rw [setsAgree, ← agree_propertySet ps, ← agree_sets sets, renderSets, renderSets]
      exact agree_cons

theorem agree_values : ∀ values : List PropertyValue,
    Agree (renderValues (rawDecoder shortest) values) (renderValues enumDecoder values) ↔ valuesAgree shortest values
  | [] => ⟨fun _ => trivial, fun _ => ⟨[], rfl, rfl⟩⟩
  | v :: values => by
      rw [valuesAgree, ← agree_propertyValue v, ← agree_values values, renderValues, renderValues]
      exact agree_cons

end

/-! ## Metrics -/

theorem metricDataType_array {n : Nat} {getter : Bytes → Option (List Value)} :
    metricDataType n = some (.array getter) ↔ arrayGetter n = some getter := by
  constructor
  · intro h
    unfold metricDataType at h
    split at h
    case h_6 =>
      rcases Option.or_eq_some_iff.mp h with h | ⟨_, h⟩
      · unfold basicDataType at h
        split at h <;> cases h
      · obtain ⟨g, hg, heq⟩ := Option.map_eq_some_iff.mp h
        cases heq
        exact hg
    all_goals cases h
  · intro h
    have hrange : 22 ≤ n := by
      by_contra hlt
      unfold arrayGetter at h
      split at h <;> first | omega | cases h
    have hbasic : basicDataType n = none := by
      unfold basicDataType
      split <;> first | omega | rfl
    unfold metricDataType
    split
    case h_6 => rw [hbasic, h]; rfl
    all_goals omega

/-- Bytes that are no array. -/
theorem getValue_bytes (b : Bytes) {t : DataType} (ht : ∀ getter, t ≠ .array getter) :
    (getValue t (some (.bytes, .bytes b))).map present = some (some (.bytes b)) ↔ t = .plain .bytes := by
  cases t with
  | array getter => exact absurd rfl (ht getter)
  | plain f => cases f <;> simp
  | _ => simp

theorem agree_bytes (b : Bytes) : Agree (rawSlot type (some (.bytes, .bytes b)))
    (enumSlot metricDataType type isNull (some (.bytes, .bytes b))) ↔ BytesAgree type isNull b := by
  rw [BytesAgree]
  cases hgetter : type.bind fun n => arrayGetter n.toNat with
  | none =>
      have hraw : rawSlot type (some (.bytes, .bytes b)) = some (some (.bytes b)) := by
        simp only [rawSlot, hgetter]
      have hno : ∀ t, metricDataType (type.getD 0).toNat = some t → ∀ getter, t ≠ .array getter := by
        rintro t ht getter rfl
        cases type with
        | none => cases ht
        | some n =>
            rw [Option.getD_some, metricDataType_array] at ht
            rw [Option.bind_some, ht] at hgetter
            cases hgetter
      rw [hraw, agree_slot]
      refine and_congr_right fun _ => exists_congr fun t => and_congr_right fun ht => ?_
      rw [getValue_bytes b (hno t ht)]
      exact ⟨.inl, fun h => h.resolve_right fun ⟨getter, heq, _⟩ => hno t ht getter heq⟩
  | some getter =>
      obtain ⟨n, rfl, hn⟩ := Option.bind_eq_some_iff.mp hgetter
      have htype : metricDataType n.toNat = some (.array getter) := metricDataType_array.mpr hn
      have hraw : rawSlot (some n) (some (.bytes, .bytes b)) = (getter b).map fun xs => some (.list xs) := by
        simp only [rawSlot, hgetter]
      rw [hraw, Option.getD_some, htype]
      cases hb : getter b with
      | none =>
          constructor
          · rintro ⟨v, hv, _⟩
            cases hv
          · rintro ⟨_, t, ht, h⟩
            cases ht
            rcases h with h | ⟨g, hg, hsome⟩
            · cases h
            · cases hg
              rw [hb] at hsome
              cases hsome
      | some xs =>
          rw [Option.map_some, agree_slot, Option.getD_some, htype]
          refine and_congr_right fun _ => exists_congr fun t => and_congr_right fun ht => ?_
          cases ht
          refine ⟨fun _ => .inr ⟨getter, rfl, by rw [hb]; rfl⟩, fun _ => ?_⟩
          simp [hb]

theorem repeated_append_inj {key : String} {xs ys : List Value} {ms ns : List (Str × Value)}
    (hms : ∀ m ∈ ms, m.1 ≠ lit key) (hns : ∀ m ∈ ns, m.1 ≠ lit key) (h : repeated key xs ++ ms = repeated key ys ++ ns) :
    xs = ys ∧ ms = ns := by
  have hmember : ∀ vs : List Value, repeated key vs = member key (if vs.isEmpty then none else some (.list vs)) := by
    intro vs
    cases vs <;> rfl
  rw [hmember xs, hmember ys] at h
  obtain ⟨heq, hrest⟩ := member_append_inj hms hns h
  have hkept : repeated key xs = repeated key ys := by rw [hmember, hmember, heq]
  exact ⟨repeated_inj hkept, hrest⟩

theorem key_member {key : String} {v : Option Value} {m : Str × Value} (h : m ∈ member key v) : m.1 = lit key := by
  cases v with
  | none => cases h
  | some v => rw [List.mem_singleton.mp h]

theorem key_repeated {key : String} {xs : List Value} {m : Str × Value} (h : m ∈ repeated key xs) : m.1 = lit key := by
  cases xs with
  | nil => cases h
  | cons x xs => rw [List.mem_singleton.mp h]

theorem agree_properties (properties : Option PropertySet) : Agree (renderProperties (rawDecoder shortest) properties)
    (renderProperties enumDecoder properties) ↔ propertiesAgree shortest properties := by
  cases properties with
  | none => exact ⟨fun _ => trivial, fun _ => ⟨none, rfl, rfl⟩⟩
  | some ps =>
      rw [renderProperties, renderProperties, agree_map (Option.some_injective _), propertiesAgree]
      exact agree_propertySet ps

theorem agree_parameter (p : Parameter) :
    Agree (p.render (rawDecoder shortest)) (p.render enumDecoder) ↔ ElementAgrees shortest p.type p.value := by
  have hF : Function.Injective fun v => Value.dict (member "name" (p.name.map .str) ++
      member "type" (p.type.map ofUInt32) ++ member "value" v ++ p.value.extensions) := by
    intro v w h
    exact member_inj (List.append_cancel_left (List.append_cancel_right (Value.dict.inj h)))
  have hrender : ∀ D : Decoder, p.render D = (D.slot basicDataType p.type false (p.value.set D)).map fun v =>
      .dict (member "name" (p.name.map .str) ++ member "type" (p.type.map ofUInt32) ++ member "value" v ++
        p.value.extensions) := fun D => bind_some_map
  rw [hrender, hrender, agree_map hF]
  exact agree_elementSlot p.value p.type

theorem renderMetrics_eq_nil {D : Decoder} {metrics : List Metric} : renderMetrics D metrics = some [] ↔ metrics = [] := by
  cases metrics with
  | nil => exact ⟨fun _ => rfl, fun _ => rfl⟩
  | cons m metrics =>
      refine ⟨fun h => ?_, fun h => (nomatch h)⟩
      rw [renderMetrics] at h
      obtain ⟨w, _, h⟩ := Option.bind_eq_some_iff.mp h
      obtain ⟨ws, _, h⟩ := Option.bind_eq_some_iff.mp h
      cases h

theorem template_empty (D : Decoder) (t : Template) : t.render D = some (.dict []) ↔ t = .mk none [] [] none none := by
  obtain ⟨version, metrics, parameters, templateRef, isDefinition⟩ := t
  rw [Template.render]
  constructor
  · intro h
    obtain ⟨ms, hms, h⟩ := Option.bind_eq_some_iff.mp h
    obtain ⟨ps, hps, h⟩ := Option.bind_eq_some_iff.mp h
    have hnil := Value.dict.inj (Option.some.inj h)
    simp only [List.append_eq_nil_iff, member_eq_nil, repeated_eq_nil, Option.map_eq_none_iff] at hnil
    obtain ⟨⟨⟨⟨rfl, rfl⟩, rfl⟩, rfl⟩, rfl⟩ := hnil
    rw [renderMetrics_eq_nil.mp hms, mapM_eq_nil.mp hps]
  · intro h
    cases h
    rfl

theorem template_dict {D : Decoder} {t : Template} {v : Value} (h : t.render D = some v) : ∃ ms, v = .dict ms := by
  obtain ⟨version, metrics, parameters, templateRef, isDefinition⟩ := t
  rw [Template.render] at h
  obtain ⟨ms, _, h⟩ := Option.bind_eq_some_iff.mp h
  obtain ⟨ps, _, h⟩ := Option.bind_eq_some_iff.mp h
  exact ⟨_, (Option.some.inj h).symm⟩

theorem dataSet_dict {D : Decoder} {ds : DataSet} {v : Value} (h : ds.render D = some v) : ∃ ms, v = .dict ms := by
  obtain ⟨rows, _, h⟩ := Option.bind_eq_some_iff.mp h
  exact ⟨_, (Option.some.inj h).symm⟩

mutual

theorem agree_metric : ∀ m : Metric, Agree (m.render (rawDecoder shortest)) (m.render enumDecoder) ↔ m.Agrees shortest
  | .mk h properties content => by
      have hkeys : ∀ v, ∀ m ∈ member "value" v ++ content.extensions, m.1 ≠ lit "properties" := by
        intro v m hm
        rcases List.mem_append.mp hm with hm | hm
        · rw [key_member hm]
          decide
        · cases content with
          | extension =>
              rw [List.mem_singleton.mp hm]
              decide
          | _ => cases hm
      have hF : ∀ {ps v ps' v'}, Value.dict (h.render ++ member "properties" ps ++ member "value" v ++ content.extensions) =
          Value.dict (h.render ++ member "properties" ps' ++ member "value" v' ++ content.extensions) →
            ps = ps' ∧ v = v' := by
        intro ps v ps' v' heq
        have hlist := Value.dict.inj heq
        simp only [List.append_assoc] at hlist
        obtain ⟨hps, hrest⟩ := member_append_inj (hkeys v) (hkeys v') (List.append_cancel_left hlist)
        exact ⟨hps, member_inj (List.append_cancel_right hrest)⟩
      have hrender : ∀ D : Decoder, Metric.render D (.mk h properties content) =
          (renderProperties D properties).bind fun ps =>
            ((content.set D).bind (D.slot metricDataType h.datatype (h.isNull.getD false))).bind fun v =>
              some (.dict (h.render ++ member "properties" ps ++ member "value" v ++ content.extensions)) := by
        intro D
        rw [Metric.render]
        simp only [Option.bind_eq_bind, Option.bind_assoc]
      rw [hrender, hrender, agree_parts hF, agree_properties, Metric.Agrees]
      exact and_congr_right fun _ => agree_metricContent content h.datatype (h.isNull.getD false)

theorem agree_metricContent : ∀ (content : MetricContent) (type : Option UInt32) (isNull : Bool),
    Agree ((content.set (rawDecoder shortest)).bind (rawSlot type))
      ((content.set enumDecoder).bind (enumSlot metricDataType type isNull)) ↔ content.Agrees shortest type isNull
  | .unset, _, _ => agree_unset
  | .extension, _, _ => agree_unset
  | .scalar s, _, _ => agree_scalar s
  | .bytes b, _, _ => agree_bytes b
  | .dataset ds, type, isNull => by
      rw [MetricContent.set, MetricContent.set, MetricContent.Agrees]
      exact agree_message rfl (fun v hv => dataSet_dict hv) (agree_dataSet ds) (dataSet_empty _ ds) (dataSet_empty _ ds).mpr
  | .template t, type, isNull => by
      rw [MetricContent.set, MetricContent.set, MetricContent.Agrees]
      exact agree_message rfl (fun v hv => template_dict hv) (agree_template t) (template_empty _ t) (template_empty _ t).mpr

theorem agree_template : ∀ t : Template, Agree (t.render (rawDecoder shortest)) (t.render enumDecoder) ↔ t.Agrees shortest
  | .mk version metrics parameters templateRef isDefinition => by
      have hrest : ∀ ps, ∀ m ∈ repeated "parameters" ps ++ (member "template_ref" (templateRef.map .str) ++
          member "is_definition" (isDefinition.map .bool)), m.1 ≠ lit "metrics" := by
        intro ps m hm
        rcases List.mem_append.mp hm with hm | hm
        · rw [key_repeated hm]
          decide
        · rcases List.mem_append.mp hm with hm | hm
          · rw [key_member hm]
            decide
          · rw [key_member hm]
            decide
      have hF : ∀ {ms ps ms' ps'}, Value.dict (member "version" (version.map .str) ++ repeated "metrics" ms ++
          repeated "parameters" ps ++ member "template_ref" (templateRef.map .str) ++
          member "is_definition" (isDefinition.map .bool)) = Value.dict (member "version" (version.map .str) ++
          repeated "metrics" ms' ++ repeated "parameters" ps' ++ member "template_ref" (templateRef.map .str) ++
          member "is_definition" (isDefinition.map .bool)) → ms = ms' ∧ ps = ps' := by
        intro ms ps ms' ps' heq
        have hlist := Value.dict.inj heq
        simp only [List.append_assoc] at hlist
        obtain ⟨hms, htail⟩ := repeated_append_inj (hrest ps) (hrest ps') (List.append_cancel_left hlist)
        exact ⟨hms, repeated_inj (List.append_cancel_right htail)⟩
      rw [Template.render, Template.render, Template.Agrees, ← agree_metrics metrics]
      refine (agree_parts hF).trans (and_congr_right fun _ => agree_mapM.trans ?_)
      exact forall_congr' fun p => imp_congr_right fun _ => agree_parameter p

theorem agree_metrics : ∀ metrics : List Metric,
    Agree (renderMetrics (rawDecoder shortest) metrics) (renderMetrics enumDecoder metrics) ↔ metricsAgree shortest metrics
  | [] => ⟨fun _ => trivial, fun _ => ⟨[], rfl, rfl⟩⟩
  | m :: metrics => by
      rw [metricsAgree, ← agree_metric m, ← agree_metrics metrics, renderMetrics, renderMetrics]
      exact agree_cons

end

end

/-! ## The two decoders -/

theorem metricsOf_convert (timestamp seq uuid body : Option Value) (ms : List Value) :
    metricsOf (.dict (member "timestamp" timestamp ++ repeated "metrics" ms ++ member "seq" seq ++ member "uuid" uuid ++
      member "body" body)) = ms := by
  rw [metricsOf]
  simp only [List.append_assoc]
  rw [getMember_skip (by decide)]
  cases ms with
  | cons m ms => rfl
  | nil =>
      have hnone : getMember (repeated "metrics" [] ++ (member "seq" seq ++ (member "uuid" uuid ++ member "body" body)))
          (lit "metrics") = none := by
        show getMember (member "seq" seq ++ _) _ = none
        rw [getMember_skip (by decide), getMember_skip (by decide)]
        cases body <;> rfl
      rw [hnone]

/-- The two decoders agree on a payload exactly when its values are read alike. -/
theorem decodersAgree_iff (shortest : PyFloat → PyFloat) (p : Payload) :
    DecodersAgree shortest p ↔ metricsAgree shortest p.metrics := by
  have hmetrics : (convertSpbPayloadToDict shortest p).map metricsOf = renderMetrics (rawDecoder shortest) p.metrics := by
    rw [convert_eq, Option.map_map]
    have hid : (metricsOf ∘ fun ms => Value.dict (member "timestamp" (p.timestamp.map ofUInt64) ++ repeated "metrics" ms ++
        member "seq" (p.seq.map ofUInt64) ++ member "uuid" (p.uuid.map .str) ++
        member "body" (p.body.map fun b => .str (b64encode b)))) = id := funext fun ms => metricsOf_convert _ _ _ _ ms
    rw [hid, Option.map_id, id]
  rw [DecodersAgree, hmetrics]
  exact agree_metrics p.metrics

/-- A metric `Int32` of -1. -/
def negativePayload : Payload :=
  ⟨none, [.mk ⟨some (lit "t"), none, none, some 3, none, none, none, none⟩ none (.scalar (.int 4294967295))], none, none, none⟩

/-- The dict has 4294967295, the enum -1. -/
theorem negative_disagrees : ¬ DecodersAgree (fun x => x) negativePayload := by
  rintro ⟨v, hdict, henum⟩
  have hdict' : (convertSpbPayloadToDict (fun x => x) negativePayload).map metricsOf = some [.dict
      [(lit "name", .str (lit "t")), (lit "datatype", .int 3), (lit "value", .int 4294967295)]] := rfl
  have henum' : renderMetrics enumDecoder negativePayload.metrics = some [.dict
      [(lit "name", .str (lit "t")), (lit "datatype", .int 3), (lit "value", .int (-1))]] := rfl
  rw [hdict'] at hdict
  rw [henum', ← hdict] at henum
  simp at henum

end Uns.Sparkplug
