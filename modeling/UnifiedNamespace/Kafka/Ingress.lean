/-
# `Kafka.Ingress` — an envelope for a message

`ingest.py`, `_resolve_ingress`: a message on a registered route is read as a publication and
becomes a v2 envelope; any other message gets its site and source from the longest topic
prefix that owns it, and becomes a v1 envelope.  What does not become an envelope is left
out, rejected to the dead-letter topic, or halts the ingest.

The decoder of the listener is not modelled: `decoded` is the dict it made of the payload.
The clock and the UUID of a receipt are arguments.
-/
import UnifiedNamespace.Config.EventKey
import UnifiedNamespace.Config.Publications
import UnifiedNamespace.Kafka.RejectionSize
import UnifiedNamespace.Kafka.Stranded
import UnifiedNamespace.Python.Instant

namespace Uns.Kafka

open Py Lib Config

/-! ## Ownership -/

structure OwnershipMapping where
  siteId : Str
  sourceId : Str
  topicPrefix : Str
  deriving DecidableEq

/-- The longest prefix of the topic; the first of them, where several are as long. -/
def resolveOwnership (topic : Str) (mappings : List OwnershipMapping) : Option OwnershipMapping :=
  (mappings.filter fun mapping => startsWith topic mapping.topicPrefix).argmax fun mapping => mapping.topicPrefix.length

/-- `validate_ownership_mappings`; `ValueError` with its text. -/
def validateOwnershipMappings (mappings : List OwnershipMapping) : Except Str Unit := do
  refuse (¬ (mappings.map OwnershipMapping.topicPrefix).Nodup) (lit "ownership topic_prefix values must be unique")
  refuse (1 < (mappings.map OwnershipMapping.topicPrefix).count [])
    (lit "only one ownership mapping may use an empty topic_prefix")

/-! ## Receipts -/

/-- The last `width` hexadecimal digits. -/
def hexText : Nat → Nat → Str
  | 0, _ => []
  | width + 1, n => hexText width (n / 16) ++ [hexDigit (n % 16)]

/-- Groups with dashes between them. -/
def dashed : List Nat → Str → Str
  | [], s => s
  | n :: ns, s => if ns = [] then s.take n else s.take n ++ 45 :: dashed ns (s.drop n)

/-- `str(uuid)`. -/
def uuidText (uuid : BitVec 128) : Str := dashed [8, 4, 4, 4, 12] (hexText 32 uuid.toNat)

def ingressEventId (receiptUuid : BitVec 128) : Str := lit "ingress:" ++ uuidText receiptUuid

/-- What `_resolve_ingress` asks of the clock and of `uuid4`. -/
structure Receipt where
  receivedAt : Datetime
  uuid : BitVec 128

/-- `datetime.fromtimestamp(seconds, tz=UTC)`; `none` is any of `ValueError`, `OverflowError` and `OSError`. -/
def fromTimestamp (seconds : Int) : Option Datetime :=
  let civil := civilOfDays (seconds / 86400)
  (mkDate civil.year.toNat civil.month.toNat civil.day.toNat).map fun date =>
    date.at ((seconds % 86400).toNat * 1000000)

/-! ## Outcomes -/

/-- `IngestionConfig`, without the topics and the limits. -/
structure IngestionConfig where
  shardId : Str
  ownershipMappings : List OwnershipMapping
  publicationRoutes : List PublicationRoute
  v2PublicationsEnabled : Bool
  timestampAttribute : Str

/-- How `_resolve_ingress` ends without an envelope. -/
inductive Unresolved where
  /-- `_ExcludeWithoutPublish`. -/
  | exclude
  /-- `_RejectAsDlq`. -/
  | dlq (record : RejectionRecord)
  /-- `_RejectUnarchivable`. -/
  | unarchivable (reason : Str)
  /-- Any other exception. -/
  | escapes (e : Raised)
  /-- The exception of `fromtimestamp`. -/
  | noDatetime

/-- `except EnvelopeError as exc: raise _RejectAsDlq(...)`; what else is raised escapes. -/
def rejecting {α : Type} (record : Str → RejectionRecord) : Except Raised α → Except Unresolved α
  | .ok a => .ok a
  | .error (.envelope e) => .error (.dlq (record e.reason))
  | .error e => .error (.escapes e)

/-- Outside of every `try`. -/
def escaping {α : Type} : Except Raised α → Except Unresolved α
  | .ok a => .ok a
  | .error e => .error (.escapes e)

/-- `_finalize_envelope`. -/
def finalizeEnvelope (lim : Limits) (record : Str → RejectionRecord) (envelope : HistoricEventEnvelope) :
    Except Unresolved HistoricEventEnvelope := do
  let encoded ← rejecting record (encodeEvent lim envelope)
  if maxEnvelopeBytes < encoded.length then .error (.dlq (record (lit "oversize"))) else .ok envelope

/-! ## Publications -/

def compatibleKinds : List Str := [lit "telemetry", lit "sparkplug_raw", lit "lifecycle", lit "command"]

/-- `_compatibility_payload`; what is no JSON object is left empty. -/
def compatibilityPayload (lim : Limits) (message : PublisherMessage) (route : PublicationRoute) :
    Except Raised (List (Str × Json)) :=
  if route.eventKind ∉ compatibleKinds then .ok []
  else if message.contentType ≠ lit "application/json" then .ok []
  else
    match parseObject lim message.originalPayload with
    | .ok parsed => .ok parsed
    | .error (.envelope _) => .ok []
    | .error e => .error e

/-- The event id and its quality. -/
def publicationIdentity (lim : Limits) (route : PublicationRoute) (message : PublisherMessage) (receipt : Receipt) :
    Except Raised (Str × Str) :=
  match message.sourceBootId, message.sourceSequence with
  | some boot, some sequence =>
      (sourceEventId lim (.str route.siteId) (.str route.sourceId) (.str boot) sequence).map fun id =>
        (id, lit "source")
  | _, _ => .ok (ingressEventId receipt.uuid, lit "ingress")

/-- The event time and its quality. -/
def publicationTime (message : PublisherMessage) (receipt : Receipt) : Zoned × Str :=
  match message.occurredAt with
  | some occurredAt => (occurredAt, lit "source")
  | none => ((receipt.receivedAt, some 0), lit "ingress")

/-- The arguments of the constructor in `_build_v2_envelope`. -/
def v2Arguments (topic : Str) (route : PublicationRoute) (message : PublisherMessage) (receipt : Receipt)
    (identity : Str × Str) (payload : List (Str × Json)) : EnvelopeOf Zoned where
  schemaVersion := .int 2
  eventId := .str identity.1
  identityQuality := .str identity.2
  sourceId := .str route.sourceId
  sourceBootId := optStr message.sourceBootId
  sourceSequence := message.sourceSequence.getD .null
  siteId := .str route.siteId
  time := (publicationTime message receipt).1
  receivedAt := (receipt.receivedAt, some 0)
  timestampQuality := .str (publicationTime message receipt).2
  topic := .str topic
  eventKind := .str route.eventKind
  isHistorical := .bool false
  payload := payload
  rawPayloadBase64 := none
  sourceApplication := some message.sourceApplication
  payloadSchemaId := some message.payloadSchemaId
  payloadSchemaVersion := some message.payloadSchemaVersion
  contentType := some message.contentType
  originalPayload := some message.originalPayload
  archiveEligible := some route.archiveEligible

/-- `_build_v2_envelope`. -/
def buildV2Envelope (lim : Limits) (record : Str → RejectionRecord) (topic : Str) (route : PublicationRoute)
    (payloadBytes : Bytes) (receipt : Receipt) : Except Unresolved HistoricEventEnvelope :=
  if route.archiveEligible = false then .error .exclude
  else do
    let message ← rejecting record (resolvePublisherMessage lim payloadBytes route)
    let identity ← escaping (publicationIdentity lim route message receipt)
    let payload ← escaping (compatibilityPayload lim message route)
    let envelope ← escaping (construct (v2Arguments topic route message receipt identity payload))
    finalizeEnvelope lim record envelope

/-! ## Other messages -/

/-- The payload of a v1 envelope; outside of Sparkplug, a message that did not decode is refused. -/
def v1Payload (record : Str → RejectionRecord) (topic : Str) (decoded : Option (List (Str × Json))) :
    Except Unresolved (List (Str × Json)) :=
  if startsWith topic sparkplugPrefix then .ok (decoded.getD [])
  else
    match decoded with
    | some payload => .ok payload
    | none => .error (.dlq (record (lit "invalid_json")))

def rawPayloadOf (topic : Str) (payloadBytes : Bytes) : Option Str :=
  if startsWith topic sparkplugPrefix then some (b64encode payloadBytes) else none

/-- The event time and its quality; only an `EnvelopeError` falls back to the clock. -/
def payloadTime (timestampAttribute : Str) (payload : List (Str × Json)) (receipt : Receipt) :
    Except Unresolved (Datetime × Str) :=
  match getKey payload timestampAttribute with
  | none => .ok (receipt.receivedAt, lit "ingress")
  | some value =>
      match normalizeLegacyTimestampValue value with
      | .ok seconds =>
          match fromTimestamp seconds with
          | some time => .ok (time, lit "source")
          | none => .error .noDatetime
      | .error (.envelope _) => .ok (receipt.receivedAt, lit "ingress")
      | .error e => .error (.escapes e)

/-- The arguments of the constructor in `_build_v1_envelope`. -/
def v1Arguments (topic : Str) (ownership : OwnershipMapping) (payloadBytes : Bytes) (receipt : Receipt)
    (time : Datetime × Str) (payload : List (Str × Json)) : EnvelopeOf Zoned where
  schemaVersion := .int 1
  eventId := .str (ingressEventId receipt.uuid)
  identityQuality := .str (lit "ingress")
  sourceId := .str ownership.sourceId
  sourceBootId := .null
  sourceSequence := .null
  siteId := .str ownership.siteId
  time := (time.1, some 0)
  receivedAt := (receipt.receivedAt, some 0)
  timestampQuality := .str time.2
  topic := .str topic
  eventKind := .str (classifyEventKind topic).text
  isHistorical := .bool false
  payload := payload
  rawPayloadBase64 := rawPayloadOf topic payloadBytes
  sourceApplication := none
  payloadSchemaId := none
  payloadSchemaVersion := none
  contentType := none
  originalPayload := none
  archiveEligible := none

/-- `_build_v1_envelope`. -/
def buildV1Envelope (lim : Limits) (config : IngestionConfig) (record : Str → RejectionRecord) (topic : Str)
    (payloadBytes : Bytes) (decoded : Option (List (Str × Json))) (receipt : Receipt)
    (ownership : OwnershipMapping) : Except Unresolved HistoricEventEnvelope := do
  let payload ← v1Payload record topic decoded
  let time ← payloadTime config.timestampAttribute payload receipt
  let envelope ← escaping (construct (v1Arguments topic ownership payloadBytes receipt time payload))
  finalizeEnvelope lim record envelope

/-! ## Resolution -/

/-- The route of the topic, where publications are enabled; `_resolve_publication_route` takes an
`EnvelopeError` for none. -/
def publicationRoute (config : IngestionConfig) (topic : Str) : Option PublicationRoute :=
  if config.v2PublicationsEnabled && !config.publicationRoutes.isEmpty then
    (resolveRoute topic config.publicationRoutes).toOption
  else none

/-- `_rejection_record`. -/
def IngestionConfig.rejection (config : IngestionConfig) (topic : Str) (payloadBytes : Bytes) (receipt : Receipt)
    (reason : Str) : RejectionRecord :=
  ingressRejection config.shardId topic reason payloadBytes receipt.receivedAt

/-- `_resolve_ingress`. -/
def resolveIngress (lim : Limits) (config : IngestionConfig) (topic : Str) (payloadBytes : Bytes)
    (decoded : Option (List (Str × Json))) (receipt : Receipt) : Except Unresolved HistoricEventEnvelope :=
  if maxRejectionBytes < payloadBytes.length then .error (.unarchivable (lit "oversize"))
  else
    match publicationRoute config topic with
    | some route =>
        buildV2Envelope lim (config.rejection topic payloadBytes receipt) topic route payloadBytes receipt
    | none =>
        match resolveOwnership topic config.ownershipMappings with
        | none => .error (.dlq (config.rejection topic payloadBytes receipt (lit "unknown_ownership")))
        | some ownership =>
            buildV1Envelope lim config (config.rejection topic payloadBytes receipt) topic payloadBytes decoded receipt
              ownership

/-! ## Which messages resolve -/

section Resolved

variable {lim : Limits} {config : IngestionConfig} {record : Str → RejectionRecord} {topic : Str}
  {route : PublicationRoute} {ownership : OwnershipMapping} {payloadBytes : Bytes}
  {decoded : Option (List (Str × Json))} {receipt : Receipt} {e : HistoricEventEnvelope}

theorem rejecting_ok {α : Type} {r : Except Raised α} {a : α} : rejecting record r = .ok a ↔ r = .ok a := by
  constructor
  · intro h
    match r with
    | .ok _ =>
        cases h
        rfl
  · rintro rfl
    rfl

theorem escaping_ok {α : Type} {r : Except Raised α} {a : α} : escaping r = .ok a ↔ r = .ok a := by
  constructor
  · intro h
    match r with
    | .ok _ =>
        cases h
        rfl
  · rintro rfl
    rfl

/-- `encode_event` bounds what it returns, so the second check never rejects. -/
theorem length_encodeEvent {b : Bytes} (h : encodeEvent lim e = .ok b) : b.length ≤ maxEnvelopeBytes := by
  simp only [encodeEvent, bind_eq_ok, require_eq_ok, decide_eq_true_eq, Except.ok.injEq] at h
  obtain ⟨-, -, -, -, b', -, -, hsize, rfl⟩ := h
  exact hsize

theorem finalizeEnvelope_ok {a : HistoricEventEnvelope} :
    finalizeEnvelope lim record a = .ok e ↔ e = a ∧ ∃ b, encodeEvent lim e = .ok b := by
  simp only [finalizeEnvelope, bind_ok, rejecting_ok]
  constructor
  · rintro ⟨b, hb, h⟩
    rw [if_neg (not_lt.mpr (length_encodeEvent hb))] at h
    cases h
    exact ⟨rfl, b, hb⟩
  · rintro ⟨rfl, b, hb⟩
    exact ⟨b, hb, if_neg (not_lt.mpr (length_encodeEvent hb))⟩

/-- What a v2 envelope is built from. -/
structure FromPublication (lim : Limits) (topic : Str) (route : PublicationRoute) (payloadBytes : Bytes)
    (receipt : Receipt) (e : HistoricEventEnvelope) (message : PublisherMessage) (identity : Str × Str)
    (payload : List (Str × Json)) : Prop where
  eligible : route.archiveEligible = true
  resolved : resolvePublisherMessage lim payloadBytes route = .ok message
  identified : publicationIdentity lim route message receipt = .ok identity
  compatible : compatibilityPayload lim message route = .ok payload
  constructed : construct (v2Arguments topic route message receipt identity payload) = .ok e
  encoded : ∃ b, encodeEvent lim e = .ok b

/-- What a v1 envelope is built from. -/
structure FromOwnership (lim : Limits) (config : IngestionConfig) (topic : Str) (payloadBytes : Bytes)
    (decoded : Option (List (Str × Json))) (receipt : Receipt) (ownership : OwnershipMapping)
    (e : HistoricEventEnvelope) (payload : List (Str × Json)) (time : Datetime × Str) : Prop where
  accepted : (startsWith topic sparkplugPrefix = true ∧ payload = decoded.getD []) ∨ decoded = some payload
  timed : payloadTime config.timestampAttribute payload receipt = .ok time
  constructed : construct (v1Arguments topic ownership payloadBytes receipt time payload) = .ok e
  encoded : ∃ b, encodeEvent lim e = .ok b

theorem buildV2Envelope_ok : buildV2Envelope lim record topic route payloadBytes receipt = .ok e ↔
    ∃ message identity payload, FromPublication lim topic route payloadBytes receipt e message identity payload := by
  unfold buildV2Envelope
  by_cases heligible : route.archiveEligible = false
  · rw [if_pos heligible]
    constructor
    · intro h
      cases h
    · rintro ⟨message, identity, payload, h⟩
      exact absurd h.eligible (by simp [heligible])
  · rw [if_neg heligible]
    simp only [bind_ok, rejecting_ok, escaping_ok, finalizeEnvelope_ok]
    constructor
    · rintro ⟨message, hmessage, identity, hidentity, payload, hpayload, a, ha, rfl, hencoded⟩
      exact ⟨message, identity, payload, by simpa using heligible, hmessage, hidentity, hpayload, ha, hencoded⟩
    · rintro ⟨message, identity, payload, h⟩
      exact ⟨message, h.resolved, identity, h.identified, payload, h.compatible, e, h.constructed, rfl, h.encoded⟩

theorem v1Payload_ok {payload : List (Str × Json)} : v1Payload record topic decoded = .ok payload →
    (startsWith topic sparkplugPrefix = true ∧ payload = decoded.getD []) ∨ decoded = some payload := by
  intro h
  unfold v1Payload at h
  by_cases hspb : startsWith topic sparkplugPrefix = true
  · rw [if_pos hspb] at h
    cases h
    exact Or.inl ⟨hspb, rfl⟩
  · rw [if_neg hspb] at h
    cases decoded with
    | none => cases h
    | some p =>
        cases h
        exact Or.inr rfl

theorem buildV1Envelope_ok
    (h : buildV1Envelope lim config record topic payloadBytes decoded receipt ownership = .ok e) :
    ∃ payload time, FromOwnership lim config topic payloadBytes decoded receipt ownership e payload time := by
  simp only [buildV1Envelope, bind_ok, escaping_ok, finalizeEnvelope_ok] at h
  obtain ⟨payload, hpayload, time, htime, a, ha, rfl, hencoded⟩ := h
  exact ⟨payload, time, v1Payload_ok hpayload, htime, ha, hencoded⟩

/-- An envelope is a publication on its route, or a message of the owner of its topic. -/
theorem resolveIngress_ok (h : resolveIngress lim config topic payloadBytes decoded receipt = .ok e) :
    (∃ route message identity payload, publicationRoute config topic = some route ∧
      FromPublication lim topic route payloadBytes receipt e message identity payload) ∨
    (∃ ownership payload time, publicationRoute config topic = none ∧
      resolveOwnership topic config.ownershipMappings = some ownership ∧
      FromOwnership lim config topic payloadBytes decoded receipt ownership e payload time) := by
  unfold resolveIngress at h
  split at h
  · cases h
  cases hroute : publicationRoute config topic with
  | some route =>
      simp only [hroute, buildV2Envelope_ok] at h
      obtain ⟨message, identity, payload, h⟩ := h
      exact Or.inl ⟨route, message, identity, payload, rfl, h⟩
  | none =>
      cases hown : resolveOwnership topic config.ownershipMappings with
      | none =>
          simp only [hroute, hown] at h
          cases h
      | some ownership =>
          simp only [hroute, hown] at h
          obtain ⟨payload, time, h⟩ := buildV1Envelope_ok h
          exact Or.inr ⟨ownership, payload, time, rfl, rfl, h⟩

end Resolved

end Uns.Kafka
