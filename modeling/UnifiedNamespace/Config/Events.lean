/-
# `Config.Events` — the canonical historic event envelope

`events.py`: the envelope, its constructor, the two wire directions and the
content hash.  The decoder does not type-check most fields of the object it
reads, so those fields are `Json` here and every test the source makes on them
is the test Python makes on a value of that type: a list is not hashable, a
number has no `startswith`, a lone surrogate does not encode.  `Raised` has one
constructor for each exception that can come out.

`EnvelopeOf τ` is the record with times of type `τ`: `Zoned` for the arguments
of the constructor, `Datetime` (in UTC) for the envelope.
-/
import UnifiedNamespace.Python.Equality
import UnifiedNamespace.Python.Sha256
import UnifiedNamespace.Python.Base64
import UnifiedNamespace.Python.Datetime
import UnifiedNamespace.Config.UnsIngest

namespace Uns

open Py

/-! ## Exceptions -/

/-- `EnvelopeError`: a bounded contract failure with a stable reason code. -/
structure EnvelopeError where
  reason : Str
  detail : Str
  deriving DecidableEq

inductive Raised where
  | envelope (e : EnvelopeError)
  | typeError
  | attributeError
  | overflowError
  | valueError
  | unicodeEncodeError
  | recursionError
  deriving DecidableEq

def Raised.isEnvelope : Raised → Bool
  | .envelope _ => true
  | _ => false

def envelopeError (reason : String) (detail : String) : Raised :=
  .envelope ⟨lit reason, lit detail⟩

/-- `if not c: raise EnvelopeError(reason, detail)`. -/
def require (c : Bool) (reason : String) (detail : String) : Except Raised Unit :=
  if c then .ok () else .error (envelopeError reason detail)

/-! ## What Python asks of a value -/

/-- `v == n`. -/
def eqInt (v : Json) (n : Int) : Bool := decide (numeric v = some (.fin n))

/-- `v == s`. -/
def eqStr (v : Json) (s : Str) : Bool :=
  match v with
  | .str t => decide (t = s)
  | _ => false

/-- `hash(v)` raises `TypeError`. -/
def unhashable : Json → Bool
  | .arr _ => true
  | .obj _ => true
  | _ => false

def isNone : Json → Bool
  | .null => true
  | _ => false

/-- `bool(v)`. -/
def truthy : Json → Bool
  | .null => false
  | .bool b => b
  | .int n => decide (n ≠ 0)
  | .float (.fin _ d) => decide (d.mag ≠ 0)
  | .float _ => true
  | .str s => decide (s ≠ [])
  | .arr xs => !xs.isEmpty
  | .obj ms => !ms.isEmpty

/-- `v in s` for a frozenset. -/
def inSet (v : Json) (member : Json → Bool) : Except Raised Bool :=
  if unhashable v then .error .typeError else .ok (member v)

/-! ## Digests -/

def dumpsRaised : JsonError → Raised
  | .recursion => .recursionError
  | .digits => .valueError
  | .decode => .valueError

/-- `json.dumps(v, ...).encode("utf-8")`. -/
def jsonBytes (lim : Limits) (v : Json) : Except Raised Bytes :=
  match dumps lim v with
  | .error e => .error (dumpsRaised e)
  | .ok s =>
      match utf8Encode s with
      | some b => .ok b
      | none => .error .unicodeEncodeError

def tupleDigest (lim : Limits) (parts : List Json) : Except Raised Str :=
  (jsonBytes lim (.arr parts)).map sha256Hex

def sourceEventId (lim : Limits) (siteId sourceId sourceBootId sourceSequence : Json) :
    Except Raised Str :=
  (tupleDigest lim [siteId, sourceId, sourceBootId, sourceSequence]).map (lit "source:" ++ ·)

/-! ## Constants and patterns -/

def maxEnvelopeBytes : Nat := 1048576

def legacySecondsThreshold : Nat := 100000000000

/-- `v in SUPPORTED_SCHEMA_VERSIONS`. -/
def supportedSchema (v : Json) : Except Raised Bool := inSet v fun v => eqInt v 1 || eqInt v 2

def eventKinds : List Str :=
  [lit "telemetry", lit "sparkplug_raw", lit "lifecycle", lit "command", lit "business_event",
    lit "state_snapshot"]

def identityQualities : List Str := [lit "source", lit "ingress"]

def timestampQualities : List Str := [lit "source", lit "ingress"]

/-- `v in words`. -/
def inWords (words : List Str) (v : Json) : Except Raised Bool := inSet v fun v => words.any (eqStr v)

def isLowerHex (c : Nat) : Bool := isDigit c || decide (97 ≤ c ∧ c ≤ 102)

def isHex (c : Nat) : Bool := isLowerHex c || decide (65 ≤ c ∧ c ≤ 70)

/-- `^source:[0-9a-f]{64}$`. -/
def isSourceId (s : Str) : Bool :=
  startsWith s (lit "source:") && decide ((s.drop 7).length = 64) && (s.drop 7).all isLowerHex

/-- A letter of the pattern against a character, `IGNORECASE`: besides the other
case, `ı` and `İ` match `i` and `ſ` matches `s`. -/
def foldsTo (c letter : Nat) : Bool :=
  decide (c = letter ∨ c + 32 = letter ∨ (letter = 105 ∧ (c = 0x130 ∨ c = 0x131)) ∨
    (letter = 115 ∧ c = 0x17F))

/-- Groups of hexadecimal digits with dashes between them. -/
def hexGroups : List Nat → Str → Bool
  | [], s => s.isEmpty
  | n :: ns, s =>
      decide ((s.take n).length = n) && (s.take n).all isHex &&
        (if ns = [] then (s.drop n).isEmpty
          else decide ((s.drop n).head? = some 45) && hexGroups ns (s.drop (n + 1)))

/-- `^ingress:[0-9a-f]{8}-…{4}-…{4}-…{4}-…{12}$` with `IGNORECASE`. -/
def isIngressId (s : Str) : Bool :=
  decide ((s.take 7).length = 7) && ((s.take 7).zip (lit "ingress")).all (fun p => foldsTo p.1 p.2) &&
    decide ((s.drop 7).head? = some 58) && hexGroups [8, 4, 4, 4, 12] (s.drop 8)

def isRouteChar (c : Nat) : Bool :=
  isDigit c || decide ((65 ≤ c ∧ c ≤ 90) ∨ (97 ≤ c ∧ c ≤ 122) ∨ c = 95 ∨ c = 45)

/-- `^[A-Za-z0-9_-]{1,128}$`. -/
def isRouteId (s : Str) : Bool :=
  decide (1 ≤ s.length ∧ s.length ≤ 128) && s.all isRouteChar

/-! ## The envelope -/

structure EnvelopeOf (τ : Type) where
  schemaVersion : Json
  eventId : Json
  identityQuality : Json
  sourceId : Json
  sourceBootId : Json
  sourceSequence : Json
  siteId : Json
  time : τ
  receivedAt : τ
  timestampQuality : Json
  topic : Json
  eventKind : Json
  isHistorical : Json
  payload : List (Str × Json)
  rawPayloadBase64 : Option Str
  sourceApplication : Option Str
  payloadSchemaId : Option Str
  payloadSchemaVersion : Option Str
  contentType : Option Str
  originalPayload : Option Bytes
  archiveEligible : Option Bool

abbrev HistoricEventEnvelope := EnvelopeOf Datetime

def ensureUtc (value : Zoned) : Except Raised Datetime :=
  match value.2 with
  | none => .error (envelopeError "invalid_field" "timestamp must be timezone-aware")
  | some offset =>
      match astimezoneUtc value.1 offset with
      | some t => .ok t
      | none => .error .overflowError

/-- `int(numeric)` after the division a large value gets. -/
def legacySeconds (neg : Bool) (d : Double) : Int :=
  let mag := if (legacySecondsThreshold : ℚ) ≤ d.mag then roundMag (d.mag / 1000) else d.mag
  if neg then -⌊mag⌋ else ⌊mag⌋

def normalizeLegacyTimestampValue : Json → Except Raised Int
  | .int n =>
      match floatOfInt n with
      | some (.fin neg d) => .ok (legacySeconds neg d)
      | _ => .error .overflowError
  | .float (.fin neg d) => .ok (legacySeconds neg d)
  | .float _ => .error (envelopeError "invalid_timestamp" "payload.timestamp must be finite")
  | _ => .error (envelopeError "invalid_timestamp" "payload.timestamp must be numeric")

def normalizePayloadTimestamps (payload : List (Str × Json)) :
    Except Raised (List (Str × Json)) :=
  match getKey payload (lit "timestamp") with
  | none => .ok payload
  | some v => (normalizeLegacyTimestampValue v).map fun n => setKey payload (lit "timestamp") (.int n)

/-- The payload `__post_init__` leaves. -/
def postInitPayload (schemaVersion : Json) (payload : List (Str × Json)) :
    Except Raised (List (Str × Json)) :=
  if eqInt schemaVersion 1 then normalizePayloadTimestamps payload else .ok payload

/-- `HistoricEventEnvelope(...)` with `__post_init__`. -/
def construct (a : EnvelopeOf Zoned) : Except Raised HistoricEventEnvelope := do
  let time ← ensureUtc a.time
  let receivedAt ← ensureUtc a.receivedAt
  let payload ← postInitPayload a.schemaVersion a.payload
  .ok { a with time := time, receivedAt := receivedAt, payload := payload }

def formatTime (t : Datetime) : Str := isoText t ++ [90]

def parseTime (value : Json) (fieldName : String) : Except Raised Datetime :=
  match value with
  | .str s =>
      match fromisoformat (replaceZ s) with
      | some z => ensureUtc z
      | none => .error (envelopeError "invalid_field" fieldName)
  | _ => .error (envelopeError "invalid_field" fieldName)

/-! ## Validation -/

/-- `is_historic_event_topic` on the field as decoded. -/
def topicIsHistoric (topic : Json) : Except Raised Bool :=
  if !truthy topic then .ok false
  else
    match topic with
    | .str s => .ok (isHistoricEventTopic s)
    | _ => .error .attributeError

/-- `pattern.fullmatch(value)`. -/
def fullmatch (pattern : Str → Bool) : Json → Except Raised Bool
  | .str s => .ok (pattern s)
  | _ => .error .typeError

def validateIdentity (lim : Limits) (e : HistoricEventEnvelope) : Except Raised Unit :=
  if eqStr e.identityQuality (lit "source") then do
    require (!isNone e.sourceBootId && !isNone e.sourceSequence) "invalid_identity" ""
    require (← fullmatch isSourceId e.eventId) "invalid_identity" ""
    let expected ← sourceEventId lim e.siteId e.sourceId e.sourceBootId e.sourceSequence
    require (eqStr e.eventId expected) "invalid_identity" ""
  else do
    require (isNone e.sourceBootId && isNone e.sourceSequence) "invalid_identity" ""
    require (← fullmatch isIngressId e.eventId) "invalid_identity" ""

def validateV1Envelope (e : HistoricEventEnvelope) : Except Raised Unit := do
  require (e.rawPayloadBase64.all fun s => (b64decode s).isSome) "invalid_field" "raw_payload_base64"
  require (e.sourceApplication.isNone && e.payloadSchemaId.isNone && e.payloadSchemaVersion.isNone &&
    e.contentType.isNone && e.originalPayload.isNone && e.archiveEligible.isNone)
    "invalid_field" "v2_fields_on_v1_envelope"

/-- `isinstance(value, str) and _ROUTE_ID_PATTERN.fullmatch(value)`. -/
def isRouteValue : Json → Bool
  | .str s => isRouteId s
  | _ => false

def validateV2Envelope (e : HistoricEventEnvelope) : Except Raised Unit := do
  require e.rawPayloadBase64.isNone "invalid_field" "raw_payload_base64"
  require e.sourceApplication.isSome "missing_field" "source_application"
  require e.payloadSchemaId.isSome "missing_field" "payload_schema_id"
  require e.payloadSchemaVersion.isSome "missing_field" "payload_schema_version"
  require e.contentType.isSome "missing_field" "content_type"
  require e.originalPayload.isSome "missing_field" "original_payload"
  require e.archiveEligible.isSome "missing_field" "archive_eligible"
  require (e.contentType ≠ some []) "invalid_field" "content_type"
  require (e.sourceApplication.any isRouteId) "invalid_field" "source_application"
  require (e.payloadSchemaId.any isRouteId) "invalid_field" "payload_schema_id"
  require (e.payloadSchemaVersion.any isRouteId) "invalid_field" "payload_schema_version"
  require (isRouteValue e.siteId) "invalid_field" "site_id"

def validateEnvelope (lim : Limits) (e : HistoricEventEnvelope) : Except Raised Unit := do
  require (← supportedSchema e.schemaVersion) "unsupported_schema" ""
  require (← inWords identityQualities e.identityQuality) "invalid_field" "identity_quality"
  require (← inWords timestampQualities e.timestampQuality) "invalid_field" "timestamp_quality"
  require (← inWords eventKinds e.eventKind) "invalid_field" "event_kind"
  require (truthy e.siteId && truthy e.sourceId && truthy e.topic)
    "invalid_field" "site_id/source_id/topic"
  require (← topicIsHistoric e.topic) "platform_topic" ""
  validateIdentity lim e
  if eqInt e.schemaVersion 1 then validateV1Envelope e else validateV2Envelope e

/-! ## The wire -/

def optStr : Option Str → Json
  | some s => .str s
  | none => .null

def optBool : Option Bool → Json
  | some b => .bool b
  | none => .null

/-- The members both versions write. -/
def commonWire (e : HistoricEventEnvelope) : List (Str × Json) :=
  [(lit "schema_version", e.schemaVersion),
    (lit "event_id", e.eventId),
    (lit "identity_quality", e.identityQuality),
    (lit "source_id", e.sourceId),
    (lit "source_boot_id", e.sourceBootId),
    (lit "source_sequence", e.sourceSequence),
    (lit "site_id", e.siteId),
    (lit "time", .str (formatTime e.time)),
    (lit "received_at", .str (formatTime e.receivedAt)),
    (lit "timestamp_quality", e.timestampQuality),
    (lit "topic", e.topic),
    (lit "event_kind", e.eventKind),
    (lit "is_historical", e.isHistorical),
    (lit "payload", .obj e.payload),
    (lit "raw_payload_base64", optStr e.rawPayloadBase64)]

/-- The members v2 adds. -/
def v2Wire (e : HistoricEventEnvelope) (originalPayload : Bytes) : List (Str × Json) :=
  [(lit "source_application", optStr e.sourceApplication),
    (lit "payload_schema_id", optStr e.payloadSchemaId),
    (lit "payload_schema_version", optStr e.payloadSchemaVersion),
    (lit "content_type", optStr e.contentType),
    (lit "original_payload_base64", .str (b64encode originalPayload)),
    (lit "archive_eligible", optBool e.archiveEligible)]

/-- `_envelope_to_dict`; `base64.b64encode(None)` is a `TypeError`. -/
def envelopeToDict (e : HistoricEventEnvelope) : Except Raised (List (Str × Json)) :=
  if eqInt e.schemaVersion 2 then
    match e.originalPayload with
    | none => .error .typeError
    | some bytes => .ok (commonWire e ++ v2Wire e bytes)
  else .ok (commonWire e)

def encodeEvent (lim : Limits) (e : HistoricEventEnvelope) : Except Raised Bytes := do
  validateEnvelope lim e
  let wire ← envelopeToDict e
  let encoded ← jsonBytes lim (.obj wire)
  require (encoded.length ≤ maxEnvelopeBytes) "oversize" ""
  .ok encoded

/-- The digest of the immutable fields. -/
def immutableContentHash (lim : Limits) (e : HistoricEventEnvelope) : Except Raised Str :=
  let head : List Json :=
    [e.schemaVersion, e.eventId, e.identityQuality, e.sourceId, e.sourceBootId, e.sourceSequence,
      e.siteId, .str (formatTime e.time), e.timestampQuality, e.topic, e.eventKind, e.isHistorical,
      .obj e.payload]
  if eqInt e.schemaVersion 1 then tupleDigest lim (head ++ [optStr e.rawPayloadBase64])
  else
    match e.originalPayload with
    | none => .error (envelopeError "missing_field" "original_payload")
    | some bytes =>
        tupleDigest lim (head ++
          [optStr e.sourceApplication, optStr e.payloadSchemaId, optStr e.payloadSchemaVersion,
            optStr e.contentType, .str (b64encode bytes), optBool e.archiveEligible])

/-- `parsed.get(field)`. -/
def field (parsed : List (Str × Json)) (name : String) : Json :=
  (getKey parsed (lit name)).getD .null

def hasField (parsed : List (Str × Json)) (name : String) : Bool :=
  (getKey parsed (lit name)).isSome

def requiredFields : List String :=
  ["schema_version", "event_id", "identity_quality", "source_id", "site_id", "time", "received_at",
    "timestamp_quality", "topic", "event_kind", "is_historical", "payload"]

def v2RequiredFields : List String :=
  ["source_application", "payload_schema_id", "payload_schema_version", "content_type",
    "original_payload_base64", "archive_eligible"]

/-- The loop over required fields: the first one that is missing is reported. -/
def requireFields (parsed : List (Str × Json)) : List String → Except Raised Unit
  | [] => .ok ()
  | name :: names => do
      require (hasField parsed name) "missing_field" name
      requireFields parsed names

/-- The field as a `str`. -/
def strField (parsed : List (Str × Json)) (name : String) : Except Raised Str :=
  match field parsed name with
  | .str s => .ok s
  | _ => .error (envelopeError "invalid_field" name)

def boolField (parsed : List (Str × Json)) (name : String) : Except Raised Bool :=
  match field parsed name with
  | .bool b => .ok b
  | _ => .error (envelopeError "invalid_field" name)

def decodeOriginalPayloadBase64 (value : Str) : Except Raised Bytes :=
  match b64decode value with
  | some b => .ok b
  | none => .error (envelopeError "invalid_field" "original_payload_base64")

/-- The v2 fields: all `none` on a v1 envelope. -/
structure V2Fields where
  sourceApplication : Option Str
  payloadSchemaId : Option Str
  payloadSchemaVersion : Option Str
  contentType : Option Str
  originalPayload : Option Bytes
  archiveEligible : Option Bool

def noV2Fields : V2Fields := ⟨none, none, none, none, none, none⟩

/-- The checks of `_dict_to_envelope_v2` before its constructor call. -/
def v2Fields (parsed : List (Str × Json)) : Except Raised V2Fields := do
  requireFields parsed v2RequiredFields
  let sourceApplication ← strField parsed "source_application"
  let payloadSchemaId ← strField parsed "payload_schema_id"
  let payloadSchemaVersion ← strField parsed "payload_schema_version"
  let contentType ← strField parsed "content_type"
  let originalPayloadBase64 ← strField parsed "original_payload_base64"
  let archiveEligible ← boolField parsed "archive_eligible"
  let originalPayload ← decodeOriginalPayloadBase64 originalPayloadBase64
  .ok ⟨some sourceApplication, some payloadSchemaId, some payloadSchemaVersion, some contentType,
    some originalPayload, some archiveEligible⟩

/-- `raw_payload_base64`: a string or nothing. -/
def rawPayloadField (parsed : List (Str × Json)) : Except Raised (Option Str) :=
  match field parsed "raw_payload_base64" with
  | .null => .ok none
  | .str s => .ok (some s)
  | _ => .error (envelopeError "invalid_field" "raw_payload_base64")

def payloadField (parsed : List (Str × Json)) : Except Raised (List (Str × Json)) :=
  match field parsed "payload" with
  | .obj ms => .ok ms
  | _ => .error (envelopeError "invalid_field" "payload")

/-- The constructor call both versions end in.  The times are evaluated first,
`time` before `received_at`; they are in UTC already when the constructor sees
them. -/
def buildEnvelope (parsed : List (Str × Json)) (schemaVersion : Json)
    (payload : List (Str × Json)) (raw : Option Str) (v2 : V2Fields) :
    Except Raised HistoricEventEnvelope := do
  let time ← parseTime (field parsed "time") "time"
  let receivedAt ← parseTime (field parsed "received_at") "received_at"
  construct
    { schemaVersion := schemaVersion
      eventId := field parsed "event_id"
      identityQuality := field parsed "identity_quality"
      sourceId := field parsed "source_id"
      sourceBootId := field parsed "source_boot_id"
      sourceSequence := field parsed "source_sequence"
      siteId := field parsed "site_id"
      time := (time, some 0)
      receivedAt := (receivedAt, some 0)
      timestampQuality := field parsed "timestamp_quality"
      topic := field parsed "topic"
      eventKind := field parsed "event_kind"
      isHistorical := field parsed "is_historical"
      payload := payload
      rawPayloadBase64 := raw
      sourceApplication := v2.sourceApplication
      payloadSchemaId := v2.payloadSchemaId
      payloadSchemaVersion := v2.payloadSchemaVersion
      contentType := v2.contentType
      originalPayload := v2.originalPayload
      archiveEligible := v2.archiveEligible }

def dictToEnvelope (parsed : List (Str × Json)) : Except Raised HistoricEventEnvelope := do
  let schemaVersion := field parsed "schema_version"
  require (← supportedSchema schemaVersion) "unsupported_schema" ""
  requireFields parsed requiredFields
  let raw ← rawPayloadField parsed
  let payload ← payloadField parsed
  if eqInt schemaVersion 2 then do
    let v2 ← v2Fields parsed
    buildEnvelope parsed (.int 2) payload raw v2
  else buildEnvelope parsed schemaVersion payload raw noV2Fields

/-- `json.loads(data.decode("utf-8"))` under the `except` of `decode_event`. -/
def parseObject (lim : Limits) (data : Bytes) : Except Raised (List (Str × Json)) :=
  match utf8Decode data with
  | none => .error (envelopeError "invalid_json" "")
  | some s =>
      match loads lim s with
      | .ok (.obj parsed) => .ok parsed
      | .ok _ => .error (envelopeError "invalid_json" "")
      | .error .decode => .error (envelopeError "invalid_json" "")
      | .error .recursion => .error .recursionError
      | .error .digits => .error .valueError

def decodeEvent (lim : Limits) (data : Bytes) : Except Raised HistoricEventEnvelope := do
  require (data.length ≤ maxEnvelopeBytes) "oversize" ""
  let parsed ← parseObject lim data
  let envelope ← dictToEnvelope parsed
  validateEnvelope lim envelope
  .ok envelope

end Uns
