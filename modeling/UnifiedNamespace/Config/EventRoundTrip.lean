/-
# `Config.EventRoundTrip` — decoding what was encoded

`decode_event(encode_event(e))` against `e`.  The wire object of an envelope reads
back field by field, with one exception: on a v1 envelope the constructor
normalises `payload.timestamp` a second time.  A value below the threshold is
left alone; one at or above it, which the first normalisation leaves when the
original was a thousand times larger, is divided again (`legacy_large`).
-/
import UnifiedNamespace.Config.DecodeTotality

namespace Uns

open Py

/-! ## Normalising twice -/

/-- A normalised timestamp below the threshold is a fixed point. -/
theorem legacy_small {t : Int} (h : |t| < 100000000000) :
    normalizeLegacyTimestampValue (.int t) = .ok t := by
  have hn : t.natAbs < 100000000000 := by rw [Int.abs_eq_natAbs] at h; omega
  have hd : IsDouble (t.natAbs : ℚ) := isDouble_natCast (by omega)
  have hto : toDouble (t.natAbs : ℚ) = some ⟨t.natAbs, hd⟩ := toDouble_mag ⟨_, hd⟩
  have hlt : ¬ ((legacySecondsThreshold : ℚ) ≤ (t.natAbs : ℚ)) := by
    rw [legacySecondsThreshold, not_le]
    exact_mod_cast hn
  simp only [normalizeLegacyTimestampValue, floatOfInt, hto, Option.map_some, legacySeconds,
    if_neg hlt, Int.floor_natCast]
  congr 1
  split
  · rename_i hneg
    have := of_decide_eq_true hneg
    omega
  · rename_i hneg
    have : ¬ t < 0 := fun h => hneg (decide_eq_true h)
    omega

/-- One at or above it is not. -/
theorem legacy_large {t : Int} (h : 100000000000 ≤ |t|) :
    normalizeLegacyTimestampValue (.int t) ≠ .ok t := by
  have hn : 100000000000 ≤ t.natAbs := by rw [Int.abs_eq_natAbs] at h; omega
  unfold normalizeLegacyTimestampValue floatOfInt
  cases hto : toDouble (t.natAbs : ℚ) with
  | none =>
      simp only [hto, Option.map_none]
      intro h
      cases h
  | some d =>
      have hq : (1 : ℚ) ≤ (t.natAbs : ℚ) := by exact_mod_cast (by omega : 1 ≤ t.natAbs)
      have hmag := toDouble_eq_some hto
      -- The double is within a factor two of the integer, and above the threshold.
      have hup : d.mag ≤ 2 * (t.natAbs : ℚ) := by
        rw [hmag]
        exact roundMag_le_two hq
      have hlow : (100000000000 : ℚ) ≤ d.mag := by
        rw [hmag]
        by_cases hsmall : t.natAbs < 2 ^ 53
        · rw [(isDouble_natCast hsmall).roundMag_eq]
          exact_mod_cast hn
        · have hhalf := half_le_roundMag hq
          have : (2 ^ 53 : ℚ) ≤ (t.natAbs : ℚ) := by exact_mod_cast Nat.le_of_not_lt hsmall
          linarith
      have hdiv : roundMag (d.mag / 1000) < (t.natAbs : ℚ) := by
        have := roundMag_le_two (q := d.mag / 1000) (by linarith)
        linarith
      have hfloor : ⌊roundMag (d.mag / 1000)⌋ < (t.natAbs : ℤ) :=
        Int.floor_lt.mpr (by rw [Int.cast_natCast]; exact hdiv)
      have hnonneg : 0 ≤ ⌊roundMag (d.mag / 1000)⌋ :=
        Int.floor_nonneg.mpr (roundMag_nonneg (by linarith))
      have hthr : (legacySecondsThreshold : ℚ) ≤ d.mag := by
        rw [legacySecondsThreshold]
        exact_mod_cast hlow
      simp only [hto, Option.map_some, legacySeconds, if_pos hthr, ne_eq, Except.ok.injEq]
      split <;> omega

/-! ## The wire object reads back -/

theorem parseTime_formatTime (t : Datetime) (name : String) :
    parseTime (.str (formatTime t)) name = .ok t := by
  simp only [parseTime, formatTime, replaceZ_isoText, fromisoformat_isoText, ensureUtc_utc]

/-- Required fields that are all members. -/
theorem hasField_of_mem {d : List (Str × Json)} {names : List String}
    (h : names.all fun name => (keys d).contains (lit name)) : ∀ name ∈ names, hasField d name = true := by
  intro name hn
  have hk := List.all_eq_true.mp h name hn
  rw [List.contains_iff_mem, keys, List.mem_map] at hk
  obtain ⟨p, hp, he⟩ := hk
  rw [hasField, getKey, Option.isSome_map, List.find?_isSome]
  exact ⟨p, hp, by simpa using he⟩

/-- What the v1 validator leaves of the v2 fields and the raw payload. -/
structure V1Shape (e : HistoricEventEnvelope) : Prop where
  v2 : (⟨e.sourceApplication, e.payloadSchemaId, e.payloadSchemaVersion, e.contentType,
    e.originalPayload, e.archiveEligible⟩ : V2Fields) = noV2Fields

/-- What the v2 validator leaves. -/
structure V2Shape (e : HistoricEventEnvelope) (application schemaId schemaVersion contentType : Str)
    (bytes : Bytes) (eligible : Bool) : Prop where
  raw : e.rawPayloadBase64 = none
  application : e.sourceApplication = some application
  schemaId : e.payloadSchemaId = some schemaId
  schemaVersion : e.payloadSchemaVersion = some schemaVersion
  contentType : e.contentType = some contentType
  bytes : e.originalPayload = some bytes
  eligible : e.archiveEligible = some eligible

theorem v1Shape {e : HistoricEventEnvelope} {u : Unit} (h : validateV1Envelope e = .ok u) :
    V1Shape e := by
  simp only [validateV1Envelope, bind_eq_ok, require_eq_ok, Bool.and_eq_true,
    Option.isNone_iff_eq_none] at h
  obtain ⟨-, -, ⟨⟨⟨⟨h1, h2⟩, h3⟩, h4⟩, h5⟩, h6⟩ := h
  exact ⟨by rw [h1, h2, h3, h4, h5, h6]; rfl⟩

theorem v2Shape {e : HistoricEventEnvelope} {u : Unit} (h : validateV2Envelope e = .ok u) :
    ∃ a i v c b g, V2Shape e a i v c b g := by
  simp only [validateV2Envelope, bind_eq_ok, require_eq_ok, Option.isNone_iff_eq_none,
    Option.isSome_iff_exists] at h
  obtain ⟨-, h0, -, ⟨a, h1⟩, -, ⟨i, h2⟩, -, ⟨v, h3⟩, -, ⟨c, h4⟩, -, ⟨b, h5⟩, -, ⟨g, h6⟩, -⟩ := h
  exact ⟨a, i, v, c, b, g, h0, h1, h2, h3, h4, h5, h6⟩

/-- What a validated envelope passed. -/
structure Validated (e : HistoricEventEnvelope) : Prop where
  schema : supportedSchema e.schemaVersion = .ok true
  v1 : eqInt e.schemaVersion 1 = true → validateV1Envelope e = .ok ()
  v2 : eqInt e.schemaVersion 1 = false → validateV2Envelope e = .ok ()

theorem validated {lim : Limits} {e : HistoricEventEnvelope} (h : validateEnvelope lim e = .ok ()) :
    Validated e := by
  simp only [validateEnvelope, bind_eq_ok, require_eq_ok] at h
  obtain ⟨b, hb, -, rfl, -, -, -, -, -, -, -, -, -, -, -, -, -, -, -, -, -, -, h⟩ := h
  refine ⟨hb, ?_, ?_⟩
  · intro h1
    rw [if_pos h1] at h
    exact h.choose_spec.2
  · intro h1
    rw [if_neg (by rw [h1]; decide)] at h
    exact h.choose_spec.2

theorem rawPayloadField_optStr {d : List (Str × Json)} {raw : Option Str}
    (h : field d "raw_payload_base64" = optStr raw) : rawPayloadField d = .ok raw := by
  unfold rawPayloadField
  rw [h]
  cases raw <;> rfl

/-- The members of the wire object. -/
def wireMembers (e : HistoricEventEnvelope) : List (Str × Json) :=
  if eqInt e.schemaVersion 2 then commonWire e ++ v2Wire e (e.originalPayload.getD []) else commonWire e

/-- `schema_version` is declared an `int`. -/
def IntVersion (e : HistoricEventEnvelope) : Prop := ∀ x, e.schemaVersion ≠ .float x

theorem version_two {e : HistoricEventEnvelope} (hint : IntVersion e)
    (h : eqInt e.schemaVersion 2 = true) : e.schemaVersion = .int 2 := by
  simp only [eqInt, decide_eq_true_eq] at h
  cases hv : e.schemaVersion with
  | int n =>
      simp only [hv, numeric, Option.some.injEq, PyNum.fin.injEq] at h
      have : n = 2 := by exact_mod_cast h
      rw [this]
  | bool b => cases b <;> simp [hv, numeric] at h
  | float x => exact absurd hv (hint x)
  | null => simp [hv, numeric] at h
  | str s => simp [hv, numeric] at h
  | arr xs => simp [hv, numeric] at h
  | obj ms => simp [hv, numeric] at h

theorem eqInt_two_of_one {e : HistoricEventEnvelope} (h : eqInt e.schemaVersion 1 = true) :
    eqInt e.schemaVersion 2 = false := by
  cases h2 : eqInt e.schemaVersion 2 with
  | false => rfl
  | true =>
      rw [eqInt_one_of_two h2] at h
      cases h

theorem Validated.versions {e : HistoricEventEnvelope} (hv : Validated e) :
    eqInt e.schemaVersion 1 = true ∨ eqInt e.schemaVersion 2 = true := by
  have h := hv.schema
  simp only [supportedSchema, inSet_eq_ok, Bool.or_eq_true] at h
  exact h.2

theorem envelopeToDict_wire {e : HistoricEventEnvelope} (hv : Validated e) :
    envelopeToDict e = .ok (wireMembers e) := by
  unfold envelopeToDict wireMembers
  by_cases h2 : eqInt e.schemaVersion 2 = true
  · obtain ⟨a, i, v, c, b, g, hs⟩ := v2Shape (hv.v2 (eqInt_one_of_two h2))
    rw [if_pos h2, if_pos h2, hs.bytes]
    rfl
  · rw [if_neg h2, if_neg h2]

theorem dictToEnvelope_v1 {e : HistoricEventEnvelope} (hv : Validated e)
    (h1 : eqInt e.schemaVersion 1 = true) {f : HistoricEventEnvelope} :
    dictToEnvelope (commonWire e) = .ok f ↔
      ∃ p, postInitPayload e.schemaVersion e.payload = .ok p ∧ f = { e with payload := p } := by
  have hschema : field (commonWire e) "schema_version" = e.schemaVersion := rfl
  have hraw : rawPayloadField (commonWire e) = .ok e.rawPayloadBase64 := rawPayloadField_optStr rfl
  have hpayload : payloadField (commonWire e) = .ok e.payload := rfl
  have htime : parseTime (field (commonWire e) "time") "time" = .ok e.time :=
    parseTime_formatTime e.time "time"
  have hreceived : parseTime (field (commonWire e) "received_at") "received_at" = .ok e.receivedAt :=
    parseTime_formatTime e.receivedAt "received_at"
  have hreq : requireFields (commonWire e) requiredFields = .ok () :=
    requireFields_eq_ok.mpr (hasField_of_mem rfl)
  have hbuild : dictToEnvelope (commonWire e)
      = buildEnvelope (commonWire e) e.schemaVersion e.payload e.rawPayloadBase64 noV2Fields := by
    rw [dictToEnvelope, hschema, hv.schema, hreq, hraw, hpayload, eqInt_two_of_one h1]
    rfl
  rw [hbuild, buildEnvelope_eq_ok]
  have hnone := (v1Shape (hv.v1 h1)).v2
  simp only [noV2Fields, V2Fields.mk.injEq] at hnone
  obtain ⟨h1, h2, h3, h4, h5, h6⟩ := hnone
  constructor
  · rintro ⟨t, r, p, ht, hr, hp, rfl⟩
    rw [htime] at ht
    rw [hreceived] at hr
    cases ht
    cases hr
    refine ⟨p, hp, ?_⟩
    rw [EnvelopeOf.mk.injEq, h1, h2, h3, h4, h5, h6]
    exact ⟨rfl, rfl, rfl, rfl, rfl, rfl, rfl, rfl, rfl, rfl, rfl, rfl, rfl, rfl, rfl, rfl, rfl, rfl,
      rfl, rfl, rfl⟩
  · rintro ⟨p, hp, rfl⟩
    refine ⟨e.time, e.receivedAt, p, htime, hreceived, hp, ?_⟩
    rw [EnvelopeOf.mk.injEq, h1, h2, h3, h4, h5, h6]
    exact ⟨rfl, rfl, rfl, rfl, rfl, rfl, rfl, rfl, rfl, rfl, rfl, rfl, rfl, rfl, rfl, rfl, rfl, rfl,
      rfl, rfl, rfl⟩

theorem dictToEnvelope_v2 {e : HistoricEventEnvelope} (hv : Validated e) (hint : IntVersion e)
    (h2 : eqInt e.schemaVersion 2 = true) : dictToEnvelope (wireMembers e) = .ok e := by
  obtain ⟨a, i, v, c, b, g, hs⟩ := v2Shape (hv.v2 (eqInt_one_of_two h2))
  have hwire : wireMembers e = commonWire e ++ v2Wire e b := by
    rw [wireMembers, if_pos h2, hs.bytes]
    rfl
  have hversion := version_two hint h2
  rw [hwire]
  have hschema : field (commonWire e ++ v2Wire e b) "schema_version" = e.schemaVersion := rfl
  have hraw : rawPayloadField (commonWire e ++ v2Wire e b) = .ok e.rawPayloadBase64 :=
    rawPayloadField_optStr rfl
  have hpayload : payloadField (commonWire e ++ v2Wire e b) = .ok e.payload := rfl
  have htime : parseTime (field (commonWire e ++ v2Wire e b) "time") "time" = .ok e.time :=
    parseTime_formatTime e.time "time"
  have hreceived : parseTime (field (commonWire e ++ v2Wire e b) "received_at") "received_at"
      = .ok e.receivedAt := parseTime_formatTime e.receivedAt "received_at"
  have hreq : requireFields (commonWire e ++ v2Wire e b) requiredFields = .ok () :=
    requireFields_eq_ok.mpr (hasField_of_mem rfl)
  have hreq2 : requireFields (commonWire e ++ v2Wire e b) v2RequiredFields = .ok () :=
    requireFields_eq_ok.mpr (hasField_of_mem rfl)
  have happ : strField (commonWire e ++ v2Wire e b) "source_application" = .ok a :=
    strField_eq_ok.mpr (show optStr e.sourceApplication = .str a by rw [hs.application]; rfl)
  have hsid : strField (commonWire e ++ v2Wire e b) "payload_schema_id" = .ok i :=
    strField_eq_ok.mpr (show optStr e.payloadSchemaId = .str i by rw [hs.schemaId]; rfl)
  have hsver : strField (commonWire e ++ v2Wire e b) "payload_schema_version" = .ok v :=
    strField_eq_ok.mpr (show optStr e.payloadSchemaVersion = .str v by rw [hs.schemaVersion]; rfl)
  have hctype : strField (commonWire e ++ v2Wire e b) "content_type" = .ok c :=
    strField_eq_ok.mpr (show optStr e.contentType = .str c by rw [hs.contentType]; rfl)
  have hb64 : strField (commonWire e ++ v2Wire e b) "original_payload_base64"
      = .ok (b64encode b) := rfl
  have helig : boolField (commonWire e ++ v2Wire e b) "archive_eligible" = .ok g := by
    unfold boolField
    rw [show field (commonWire e ++ v2Wire e b) "archive_eligible" = optBool e.archiveEligible from
      rfl, hs.eligible]
    rfl
  have hdec : decodeOriginalPayloadBase64 (b64encode b) = .ok b := by
    rw [decodeOriginalPayloadBase64, b64decode_encode]
  have hfields : v2Fields (commonWire e ++ v2Wire e b)
      = .ok ⟨some a, some i, some v, some c, some b, some g⟩ := by
    rw [v2Fields, hreq2, happ, hsid, hsver, hctype, hb64, helig]
    simp only [bind, Except.bind, hdec]
  have hbuild : dictToEnvelope (commonWire e ++ v2Wire e b)
      = buildEnvelope (commonWire e ++ v2Wire e b) (.int 2) e.payload e.rawPayloadBase64
          ⟨some a, some i, some v, some c, some b, some g⟩ := by
    rw [dictToEnvelope, hschema, hv.schema, hreq, hraw, hpayload, h2, hfields]
    rfl
  rw [hbuild]
  refine buildEnvelope_eq_ok.mpr ⟨e.time, e.receivedAt, e.payload, htime, hreceived, rfl, ?_⟩
  obtain ⟨sv, _, _, _, _, _, _, _, _, _, _, _, _, _, _, sa, pi, pv, ct, op, ae⟩ := e
  obtain ⟨-, rfl, rfl, rfl, rfl, rfl, rfl⟩ := hs
  cases hversion
  rfl

/-! ## The content hash -/

theorem membersError_eq_none {lim : Limits} {depth : Nat} {ms : List (Str × Json)} :
    membersError lim depth ms = none ↔ ∀ p ∈ ms, p.2.dumpsError lim depth = none := by
  induction ms with
  | nil => simp [membersError]
  | cons p ms ih => simp [membersError, Option.or_eq_none_iff, ih]

theorem elemsError_eq_none {lim : Limits} {depth : Nat} {xs : List Json} :
    elemsError lim depth xs = none ↔ ∀ x ∈ xs, x.dumpsError lim depth = none := by
  induction xs with
  | nil => simp [elemsError]
  | cons x xs ih => simp [elemsError, Option.or_eq_none_iff, ih]

theorem isScalar_membersText {ms : List (Str × Json)} (h : (membersText ms).all isScalar = true) :
    ∀ p ∈ ms, p.2.text.all isScalar = true := by
  induction ms with
  | nil => intro p hp; cases hp
  | cons q ms ih =>
      simp only [membersText, List.all_cons, List.all_append, Bool.and_eq_true] at h
      intro p hp
      rcases List.mem_cons.mp hp with rfl | hp
      · exact h.2.2.2.1
      · exact ih h.2.2.2.2 p hp

theorem isScalar_obj {ms : List (Str × Json)} (h : (Json.obj ms).text.all isScalar = true) :
    ∀ p ∈ ms, p.2.text.all isScalar = true := by
  cases ms with
  | nil => intro p hp; cases hp
  | cons q ms =>
      simp only [Json.text, List.all_cons, List.all_append, Bool.and_eq_true] at h
      intro p hp
      rcases List.mem_cons.mp hp with rfl | hp
      · exact h.2.2.2.1
      · exact isScalar_membersText h.2.2.2.2 p hp

theorem isScalar_elemsText {xs : List Json} (h : ∀ x ∈ xs, x.text.all isScalar = true) :
    (elemsText xs).all isScalar = true := by
  induction xs with
  | nil => rfl
  | cons x xs ih =>
      simp only [elemsText, List.all_cons, List.all_append, Bool.and_eq_true]
      exact ⟨rfl, h x (by simp), ih fun y hy => h y (by simp [hy])⟩

theorem isScalar_arr {xs : List Json} (h : ∀ x ∈ xs, x.text.all isScalar = true) :
    (Json.arr xs).text.all isScalar = true := by
  cases xs with
  | nil => rfl
  | cons x xs =>
      simp only [Json.text, List.all_cons, List.all_append, Bool.and_eq_true]
      exact ⟨rfl, h x (by simp), isScalar_elemsText fun y hy => h y (by simp [hy])⟩

/-- What an interpreter can write and a reader with the same limits can read back. -/
structure Portable (lim : Limits) (e : HistoricEventEnvelope) : Prop where
  writable : (Json.obj (wireMembers e)).dumpsError lim lim.dumpsDepth = none
  readable : (Json.obj (wireMembers e)).dumpsError lim lim.loadsDepth = none
  scalar : (Json.obj (wireMembers e)).text.all isScalar = true
  size : ∀ b, utf8Encode (Json.obj (wireMembers e)).text = some b → b.length ≤ maxEnvelopeBytes

/-- A list of members' values fits where the object fits. -/
theorem dumpsError_arr_of_obj {lim : Limits} {ms : List (Str × Json)} {parts : List Json}
    (hsub : ∀ x ∈ parts, x ∈ ms.map Prod.snd) : ∀ {depth : Nat},
    (Json.obj ms).dumpsError lim depth = none → (Json.arr parts).dumpsError lim depth = none
  | 0, h => by simp [Json.dumpsError] at h
  | depth + 1, h => by
      simp only [Json.dumpsError, membersError_eq_none, elemsError_eq_none] at h ⊢
      intro x hx
      obtain ⟨p, hp, rfl⟩ := List.mem_map.mp (hsub x hx)
      exact h p hp

/-- A tuple of wire values digests when the wire object prints. -/
theorem tupleDigest_ok {lim : Limits} {ms : List (Str × Json)} {parts : List Json}
    (hsub : ∀ x ∈ parts, x ∈ ms.map Prod.snd)
    (hw : (Json.obj ms).dumpsError lim lim.dumpsDepth = none)
    (hs : (Json.obj ms).text.all isScalar = true) : ∃ h, tupleDigest lim parts = .ok h := by
  have hscalar : (Json.arr parts).text.all isScalar = true := by
    refine isScalar_arr fun x hx => ?_
    obtain ⟨p, hp, rfl⟩ := List.mem_map.mp (hsub x hx)
    exact isScalar_obj hs p hp
  have herr := @dumpsError_arr_of_obj lim _ _ hsub _ hw
  rw [tupleDigest, jsonBytes, dumps, herr]
  simp only [utf8Encode, hscalar, if_true]
  exact ⟨_, rfl⟩

theorem contentHash_ok {lim : Limits} {e : HistoricEventEnvelope} (hv : Validated e)
    (hw : (Json.obj (wireMembers e)).dumpsError lim lim.dumpsDepth = none)
    (hs : (Json.obj (wireMembers e)).text.all isScalar = true) :
    ∃ h, immutableContentHash lim e = .ok h := by
  unfold immutableContentHash
  by_cases h1 : eqInt e.schemaVersion 1 = true
  · rw [if_pos h1]
    refine tupleDigest_ok ?_ hw hs
    have hwire : wireMembers e = commonWire e := by
      rw [wireMembers, eqInt_two_of_one h1]
      rfl
    rw [hwire]
    refine List.Sublist.subset ?_
    -- the time of receipt is left out
    exact .cons_cons _ (.cons_cons _ (.cons_cons _ (.cons_cons _ (.cons_cons _ (.cons_cons _ (.cons_cons _
      (.cons_cons _ (.cons _ (.refl _)))))))))
  · have h2 : eqInt e.schemaVersion 2 = true := hv.versions.resolve_left h1
    obtain ⟨a, i, v, c, b, g, hshape⟩ := v2Shape (hv.v2 (eqInt_one_of_two h2))
    have hwire : wireMembers e = commonWire e ++ v2Wire e b := by
      rw [wireMembers, if_pos h2, hshape.bytes]
      rfl
    rw [if_neg h1, hshape.bytes]
    refine tupleDigest_ok ?_ hw hs
    rw [hwire]
    refine List.Sublist.subset ?_
    -- and so is the raw payload, which v1 alone digests
    exact .cons_cons _ (.cons_cons _ (.cons_cons _ (.cons_cons _ (.cons_cons _ (.cons_cons _ (.cons_cons _
      (.cons_cons _ (.cons _ (.cons_cons _ (.cons_cons _ (.cons_cons _ (.cons_cons _ (.cons_cons _
        (.cons _ (.refl _)))))))))))))))

/-! ## The round trip -/

/-- The fields held as Python values. -/
def jsonFields (e : HistoricEventEnvelope) : List Json :=
  [e.schemaVersion, e.eventId, e.identityQuality, e.sourceId, e.sourceBootId, e.sourceSequence,
    e.siteId, e.timestampQuality, e.topic, e.eventKind, e.isHistorical, .obj e.payload]

/-- `e == f`: every field equal, as Python compares them. -/
def sameEnvelope (e f : HistoricEventEnvelope) : Prop :=
  elemsEq (jsonFields e) (jsonFields f) = true ∧ e.time = f.time ∧ e.receivedAt = f.receivedAt ∧
    e.rawPayloadBase64 = f.rawPayloadBase64 ∧ e.sourceApplication = f.sourceApplication ∧
    e.payloadSchemaId = f.payloadSchemaId ∧ e.payloadSchemaVersion = f.payloadSchemaVersion ∧
    e.contentType = f.contentType ∧ e.originalPayload = f.originalPayload ∧
    e.archiveEligible = f.archiveEligible

/-- Decoding the encoded envelope succeeds, with every field and the content hash as before. -/
def RoundTrips (lim : Limits) (e : HistoricEventEnvelope) : Prop :=
  ∃ b f, encodeEvent lim e = .ok b ∧ decodeEvent lim b = .ok f ∧ sameEnvelope f e ∧
    ∃ h, immutableContentHash lim e = .ok h ∧ immutableContentHash lim f = .ok h

/-- The fields are Python values: each dict has a key once, and the version is an `int`. -/
structure WellTyped (e : HistoricEventEnvelope) : Prop where
  values : elemsWf (jsonFields e)
  version : IntVersion e

/-- The timestamp a v1 envelope stores is below the threshold. -/
def SmallTimestamp (e : HistoricEventEnvelope) : Prop :=
  eqInt e.schemaVersion 1 = true →
    ∀ t, getKey e.payload (lit "timestamp") = some (.int t) → |t| < 100000000000

theorem wf_wire {e : HistoricEventEnvelope} (hwt : WellTyped e) :
    (Json.obj (wireMembers e)).Wf := by
  have hopt : ∀ s, (optStr s).Wf := by
    intro s
    cases s <;> simp [optStr, Json.Wf]
  have hob : ∀ b, (optBool b).Wf := by
    intro b
    cases b <;> simp [optBool, Json.Wf]
  have hstr : ∀ s, (Json.str s).Wf := fun s => by simp [Json.Wf]
  have h := hwt.values
  simp only [jsonFields, elemsWf, and_true] at h
  obtain ⟨h1, h2, h3, h4, h5, h6, h7, h8, h9, h10, h11, h12⟩ := h
  have hcommon : membersWf (commonWire e) :=
    ⟨h1, h2, h3, h4, h5, h6, h7, hstr _, hstr _, h8, h9, h10, h11, h12, hopt _, trivial⟩
  unfold wireMembers
  split
  · exact ⟨of_decide_eq_true rfl, h1, h2, h3, h4, h5, h6, h7, hstr _, hstr _, h8, h9, h10, h11,
      h12, hopt _, hopt _, hopt _, hopt _, hopt _, hstr _, hob _, trivial⟩
  · exact ⟨of_decide_eq_true rfl, hcommon⟩

theorem jsonBytes_eq_ok {lim : Limits} {v : Json} {b : Bytes} : jsonBytes lim v = .ok b ↔
    v.dumpsError lim lim.dumpsDepth = none ∧ utf8Encode v.text = some b := by
  unfold jsonBytes dumps
  cases v.dumpsError lim lim.dumpsDepth with
  | some e => simp
  | none =>
      cases hu : utf8Encode v.text with
      | none => simp only [hu, reduceCtorEq, and_false]
      | some b' => simp only [hu, Except.ok.injEq, Option.some.injEq, true_and]

theorem encodeEvent_eq_ok {lim : Limits} {e : HistoricEventEnvelope}
    (hval : validateEnvelope lim e = .ok ()) {b : Bytes} : encodeEvent lim e = .ok b ↔
    (Json.obj (wireMembers e)).dumpsError lim lim.dumpsDepth = none ∧
      utf8Encode (Json.obj (wireMembers e)).text = some b ∧ b.length ≤ maxEnvelopeBytes := by
  simp only [encodeEvent, hval, envelopeToDict_wire (validated hval), bind_eq_ok, require_eq_ok,
    jsonBytes_eq_ok, Except.ok.injEq, decide_eq_true_eq, exists_eq_left']
  constructor
  · rintro ⟨-, -, b', ⟨h1, h2⟩, -, h3, rfl⟩
    exact ⟨h1, h2, h3⟩
  · rintro ⟨h1, h2, h3⟩
    exact ⟨(), trivial, b, ⟨h1, h2⟩, (), h3, rfl⟩

/-- The bytes of the wire object parse as the wire object, within the limits. -/
theorem parseObject_wire {lim : Limits} {e : HistoricEventEnvelope} (hwt : WellTyped e) {b : Bytes}
    (hb : utf8Encode (Json.obj (wireMembers e)).text = some b) {d : List (Str × Json)} :
    parseObject lim b = .ok d ↔
      (Json.obj (wireMembers e)).dumpsError lim lim.loadsDepth = none ∧ d = wireMembers e := by
  rw [parseObject_eq_ok, utf8Decode_encode hb]
  simp only [Option.some.injEq, exists_eq_left', loads_text lim (wf_wire hwt)]
  cases (Json.obj (wireMembers e)).dumpsError lim lim.loadsDepth with
  | some err => simp
  | none => simp [eq_comm]

/-- The object decodes to the envelope with its payload normalised once more. -/
theorem dictToEnvelope_wire {e : HistoricEventEnvelope} (hv : Validated e) (hwt : WellTyped e)
    {f : HistoricEventEnvelope} : dictToEnvelope (wireMembers e) = .ok f ↔
      ∃ p, postInitPayload e.schemaVersion e.payload = .ok p ∧ f = { e with payload := p } := by
  by_cases h1 : eqInt e.schemaVersion 1 = true
  · have hwire : wireMembers e = commonWire e := by
      rw [wireMembers, eqInt_two_of_one h1]
      rfl
    rw [hwire]
    exact dictToEnvelope_v1 hv h1
  · have h2 := hv.versions.resolve_left h1
    rw [dictToEnvelope_v2 hv hwt.version h2, postInitPayload, if_neg h1]
    constructor
    · intro h
      cases h
      exact ⟨e.payload, rfl, rfl⟩
    · rintro ⟨p, hp, rfl⟩
      cases hp
      rfl

/-- The constructor leaves an integer timestamp, or none. -/
def Normalized (e : HistoricEventEnvelope) : Prop :=
  eqInt e.schemaVersion 1 = true → ∀ v, getKey e.payload (lit "timestamp") = some v → ∃ t, v = .int t

theorem normalized_construct {a : EnvelopeOf Zoned} {e : HistoricEventEnvelope}
    (h : construct a = .ok e) : Normalized e := by
  simp only [construct, bind_eq_ok, Except.ok.injEq] at h
  obtain ⟨t, -, r, -, p, hp, rfl⟩ := h
  intro h1 v hv
  simp only at h1 hv
  rw [postInitPayload, if_pos h1, normalizePayloadTimestamps] at hp
  cases hk : getKey a.payload (lit "timestamp") with
  | none =>
      rw [hk] at hp
      cases hp
      rw [hk] at hv
      cases hv
  | some w =>
      rw [hk] at hp
      simp only at hp
      cases hn : normalizeLegacyTimestampValue w with
      | error x =>
          rw [hn] at hp
          cases hp
      | ok n =>
          rw [hn] at hp
          cases hp
          rw [getKey_setKey] at hv
          cases hv
          exact ⟨n, rfl⟩

theorem postInit_small {e : HistoricEventEnvelope} (hn : Normalized e) (hs : SmallTimestamp e) :
    postInitPayload e.schemaVersion e.payload = .ok e.payload := by
  unfold postInitPayload
  split
  · rename_i h1
    unfold normalizePayloadTimestamps
    cases hk : getKey e.payload (lit "timestamp") with
    | none => rfl
    | some v =>
        obtain ⟨t, rfl⟩ := hn h1 v hk
        simp only [legacy_small (hs h1 t hk), Except.map, setKey_getKey hk]
  · rfl

/-- A payload that comes out equal had a small timestamp. -/
theorem small_of_postInit {e : HistoricEventEnvelope} {p : List (Str × Json)}
    (hp : postInitPayload e.schemaVersion e.payload = .ok p)
    (heq : (Json.obj p).pyEq (.obj e.payload) = true) : SmallTimestamp e := by
  intro h1 t hk
  by_contra hlarge
  rw [postInitPayload, if_pos h1, normalizePayloadTimestamps, hk] at hp
  simp only at hp
  cases hn : normalizeLegacyTimestampValue (.int t) with
  | error x =>
      rw [hn] at hp
      cases hp
  | ok n =>
      rw [hn] at hp
      cases hp
      simp only [Json.pyEq, Bool.and_eq_true] at heq
      obtain ⟨w, hw, hnw⟩ := membersEq_getKey heq.2 (getKey_setKey e.payload (lit "timestamp") (.int n))
      rw [hk] at hw
      cases hw
      simp only [Json.pyEq, sameNumber, numeric, PyNum.fin.injEq, decide_eq_true_eq] at hnw
      have hnt : n = t := by exact_mod_cast hnw
      rw [hnt] at hn
      exact legacy_large (not_lt.mp hlarge) hn

/-- The values of the envelope hold no `nan`. -/
def NanFree (e : HistoricEventEnvelope) : Prop := elemsNanFree (jsonFields e) = true

theorem sameEnvelope_self {e : HistoricEventEnvelope} (hwt : WellTyped e) :
    sameEnvelope e e ↔ NanFree e := by
  rw [sameEnvelope, NanFree, elemsEq_self _ hwt.values]
  exact ⟨fun h => h.1, fun h => ⟨h, rfl, rfl, rfl, rfl, rfl, rfl, rfl, rfl, rfl⟩⟩

section RoundTrip

variable {lim : Limits} {a : EnvelopeOf Zoned} {e : HistoricEventEnvelope}

theorem conditions_of_roundTrips (hc : construct a = .ok e)
    (hval : validateEnvelope lim e = .ok ()) (hwt : WellTyped e) (h : RoundTrips lim e) :
    SmallTimestamp e ∧ NanFree e ∧ Portable lim e := by
  have hv := validated hval
  obtain ⟨b, f, hb, hf, hsame, -⟩ := h
  obtain ⟨hw, hutf, hsize⟩ := (encodeEvent_eq_ok hval).mp hb
  simp only [decodeEvent, bind_eq_ok, Except.ok.injEq] at hf
  obtain ⟨-, -, d, hd, f', hf', -, -, rfl⟩ := hf
  obtain ⟨hr, rfl⟩ := (parseObject_wire hwt hutf).mp hd
  obtain ⟨p, hp, rfl⟩ := (dictToEnvelope_wire hv hwt).mp hf'
  have hpay : (Json.obj p).pyEq (.obj e.payload) = true := by
    have h := hsame.1
    simp only [jsonFields, elemsEq, Bool.and_eq_true] at h
    exact h.2.2.2.2.2.2.2.2.2.2.2.1
  have hsmall := small_of_postInit hp hpay
  rw [postInit_small (normalized_construct hc) hsmall] at hp
  cases hp
  have hscalar : (Json.obj (wireMembers e)).text.all isScalar = true :=
    all_isScalar_of_utf8Decode (utf8Decode_encode hutf)
  refine ⟨hsmall, (sameEnvelope_self hwt).mp hsame, hw, hr, hscalar, ?_⟩
  intro b' hb'
  rw [hutf] at hb'
  cases hb'
  exact hsize

/-- What is written under these conditions is read back as it was. -/
theorem decodes_encoded (hc : construct a = .ok e) (hval : validateEnvelope lim e = .ok ())
    (hwt : WellTyped e) (hsmall : SmallTimestamp e) (hp : Portable lim e) :
    ∃ b, encodeEvent lim e = .ok b ∧ decodeEvent lim b = .ok e := by
  have hv := validated hval
  obtain ⟨b, hb⟩ : ∃ b, utf8Encode (Json.obj (wireMembers e)).text = some b := by
    rw [utf8Encode, if_pos hp.scalar]
    exact ⟨_, rfl⟩
  have hsize := hp.size b hb
  refine ⟨b, (encodeEvent_eq_ok hval).mpr ⟨hp.writable, hb, hsize⟩, ?_⟩
  have hdict : dictToEnvelope (wireMembers e) = .ok e :=
    (dictToEnvelope_wire hv hwt).mpr ⟨e.payload, postInit_small (normalized_construct hc) hsmall, rfl⟩
  have hparse : parseObject lim b = .ok (wireMembers e) :=
    (parseObject_wire hwt hb).mpr ⟨hp.readable, rfl⟩
  simp only [decodeEvent, bind_eq_ok, require_eq_ok, decide_eq_true_eq]
  exact ⟨(), hsize, wireMembers e, hparse, e, hdict, (), hval, rfl⟩

theorem roundTrips_of_conditions (hc : construct a = .ok e)
    (hval : validateEnvelope lim e = .ok ()) (hwt : WellTyped e) (hsmall : SmallTimestamp e)
    (hnan : NanFree e) (hp : Portable lim e) : RoundTrips lim e := by
  obtain ⟨b, hb, hdecode⟩ := decodes_encoded hc hval hwt hsmall hp
  obtain ⟨h, hh⟩ := contentHash_ok (validated hval) hp.writable hp.scalar
  exact ⟨b, e, hb, hdecode, (sameEnvelope_self hwt).mpr hnan, h, hh, hh⟩

end RoundTrip

/-- An envelope its constructor and validator accept round trips exactly when its timestamp is
below the threshold, it holds no `nan`, and its wire object can be written, read and is not
oversize. -/
theorem roundTrips_iff (lim : Limits) (a : EnvelopeOf Zoned) (e : HistoricEventEnvelope)
    (hc : construct a = .ok e) (hval : validateEnvelope lim e = .ok ()) (hwt : WellTyped e) :
    RoundTrips lim e ↔ SmallTimestamp e ∧ NanFree e ∧ Portable lim e :=
  ⟨conditions_of_roundTrips hc hval hwt, fun ⟨hs, hn, hp⟩ =>
    roundTrips_of_conditions hc hval hwt hs hn hp⟩

def newYear2026 : Datetime := Date.midnight ⟨2026, 1, 1, validDate_newYear2026⟩

/-- A v1 telemetry event with an ingress identity. -/
def telemetrySample (τ : Type) (time : τ) (timestamp : Int) : EnvelopeOf τ where
  schemaVersion := .int 1
  eventId := .str (lit "ingress:00000000-0000-0000-0000-000000000000")
  identityQuality := .str (lit "ingress")
  sourceId := .str (lit "plc")
  sourceBootId := .null
  sourceSequence := .null
  siteId := .str (lit "plant")
  time := time
  receivedAt := time
  timestampQuality := .str (lit "ingress")
  topic := .str (lit "plant/line/temp")
  eventKind := .str (lit "telemetry")
  isHistorical := .bool false
  payload := [(lit "timestamp", .int timestamp)]
  rawPayloadBase64 := none
  sourceApplication := none
  payloadSchemaId := none
  payloadSchemaVersion := none
  contentType := none
  originalPayload := none
  archiveEligible := none

theorem wellTyped_telemetrySample (t : Int) : WellTyped (telemetrySample Datetime newYear2026 t) :=
  ⟨by simp [jsonFields, telemetrySample, elemsWf, Json.Wf, membersWf, keys], by
    intro x h
    cases h⟩

theorem construct_telemetrySample {t : Int} (ht : |t| < 100000000000) :
    construct (telemetrySample Zoned (newYear2026, some 0) t) =
      .ok (telemetrySample Datetime newYear2026 t) := by
  have hp : postInitPayload (.int 1) [(lit "timestamp", .int t)] = .ok [(lit "timestamp", .int t)] := by
    rw [postInitPayload, if_pos (by decide), normalizePayloadTimestamps]
    simp only [getKey, List.find?_cons, decide_true, Option.map_some, legacy_small ht, Except.map,
      setKey, if_true]
  simp only [construct, telemetrySample, ensureUtc_utc, hp]
  rfl

theorem smallTimestamp_telemetrySample {t : Int} (ht : |t| < 100000000000) :
    SmallTimestamp (telemetrySample Datetime newYear2026 t) := by
  intro _ u hu
  cases hu
  exact ht

theorem size_of_all {s : Str} (h : (utf8Encode s).all (fun b => decide (b.length ≤ maxEnvelopeBytes)) = true) :
    ∀ b, utf8Encode s = some b → b.length ≤ maxEnvelopeBytes := by
  intro b hb
  rw [hb] at h
  exact of_decide_eq_true h

theorem portable_seconds : Portable cpython (telemetrySample Datetime newYear2026 1700000000) :=
  ⟨rfl, rfl, by decide +kernel, size_of_all (by decide +kernel)⟩

/-- A timestamp of 1700000000 seconds survives. -/
theorem roundTrips_seconds :
    RoundTrips cpython (telemetrySample Datetime newYear2026 1700000000) :=
  (roundTrips_iff cpython (telemetrySample Zoned (newYear2026, some 0) 1700000000) _
    (construct_telemetrySample (by norm_num)) rfl (wellTyped_telemetrySample _)).mpr
    ⟨smallTimestamp_telemetrySample (by norm_num), rfl, portable_seconds⟩

theorem decodes_telemetrySample {t : Int} (ht : |t| < 100000000000)
    (hp : Portable cpython (telemetrySample Datetime newYear2026 t)) :
    ∃ b, encodeEvent cpython (telemetrySample Datetime newYear2026 t) = .ok b ∧
      decodeEvent cpython b = .ok (telemetrySample Datetime newYear2026 t) :=
  decodes_encoded (construct_telemetrySample ht) rfl (wellTyped_telemetrySample t)
    (smallTimestamp_telemetrySample ht) hp

/-- A source that reports microseconds, `10 ^ 14`, is stored as `10 ^ 11` and decoded as
`10 ^ 8`. -/
theorem microseconds_not_roundTrips : ¬ ∀ lim a e, construct a = .ok e →
    validateEnvelope lim e = .ok () → WellTyped e → RoundTrips lim e := by
  intro h
  have hp : postInitPayload (.int 1) [(lit "timestamp", .int 100000000000000)]
      = .ok [(lit "timestamp", .int 100000000000)] := by
    have h : normalizeLegacyTimestampValue (.int 100000000000000) = .ok 100000000000 := by
      decide +kernel
    rw [postInitPayload, if_pos (by decide), normalizePayloadTimestamps]
    simp only [getKey, List.find?_cons, decide_true, Option.map_some, h, Except.map, setKey, if_true]
  have hc : construct (telemetrySample Zoned (newYear2026, some 0) 100000000000000)
      = .ok (telemetrySample Datetime newYear2026 100000000000) := by
    simp only [construct, telemetrySample, ensureUtc_utc, hp]
    rfl
  have hval : validateEnvelope cpython (telemetrySample Datetime newYear2026 100000000000)
      = .ok () := rfl
  have hwt := wellTyped_telemetrySample 100000000000
  obtain ⟨hsmall, -, -⟩ := conditions_of_roundTrips hc hval hwt (h cpython _ _ hc hval hwt)
  have := hsmall (by decide) 100000000000 rfl
  norm_num at this

end Uns
