/-
# `Config.Publications` — what a publisher sends

`publications.py`: a publication is a JSON object with the bytes it carries, and a raw
publication is those bytes alone.  Either is checked against the route of its topic.
-/
import UnifiedNamespace.Config.PublicationRoutes

namespace Uns.Config

open Py

structure PublisherMessage where
  sourceApplication : Str
  siteId : Str
  payloadSchemaId : Str
  payloadSchemaVersion : Str
  contentType : Str
  originalPayload : Bytes
  occurredAt : Option Zoned
  sourceBootId : Option Str
  /-- An `int`, which a `bool` is too. -/
  sourceSequence : Option Json

def publicationFields : List String :=
  ["source_application", "site_id", "payload_schema_id", "payload_schema_version", "content_type",
    "original_payload_base64"]

/-! ## Fields -/

def isAsciiDigitPair : Str → Bool
  | a :: b :: _ => isDigit a && isDigit b
  | _ => false

/-- `[+-]\d{2}:\d{2}` at the start; a digit that is not ASCII matches too, but is not parsed later. -/
def startsOffset : Str → Bool
  | sign :: rest =>
      decide (sign = 43 ∨ sign = 45) && isAsciiDigitPair rest && decide ((rest.drop 2).head? = some 58) &&
        isAsciiDigitPair (rest.drop 3)
  | [] => false

/-- `re.search(r"[+-]\d{2}:\d{2}|Z$", s)`; `$` is also before a last newline. -/
def hasZone : Str → Bool
  | [] => false
  | c :: s => startsOffset (c :: s) || decide (c = 90 ∧ (s = [] ∨ s = [10])) || hasZone s

/-- `_parse_occurred_at`. -/
def parseOccurredAt : Json → Except Raised Zoned
  | .str s =>
      if hasZone s then
        match fromisoformat (replaceZ s) with
        | some (t, some offset) => .ok (t, some offset)
        | _ => .error (envelopeError "invalid_field" "occurred_at")
      else .error (envelopeError "invalid_field" "occurred_at")
  | _ => .error (envelopeError "invalid_field" "occurred_at")

def occurredAtField (parsed : List (Str × Json)) : Except Raised (Option Zoned) :=
  if isNone (field parsed "occurred_at") then .ok none
  else (parseOccurredAt (field parsed "occurred_at")).map some

/-- `_decode_original_payload_base64`. -/
def originalPayloadField (parsed : List (Str × Json)) : Except Raised Bytes :=
  match field parsed "original_payload_base64" with
  | .str s => decodeOriginalPayloadBase64 s
  | _ => .error (envelopeError "invalid_field" "original_payload_base64")

/-- A field that is a route id. -/
def routeField (parsed : List (Str × Json)) (name : String) : Except Raised Str :=
  match field parsed name with
  | .str s => if isRouteId s then .ok s else .error (envelopeError "invalid_field" name)
  | _ => .error (envelopeError "invalid_field" name)

def contentTypeField (parsed : List (Str × Json)) : Except Raised Str :=
  match field parsed "content_type" with
  | .str s => if s = [] then .error (envelopeError "invalid_field" "content_type") else .ok s
  | _ => .error (envelopeError "invalid_field" "content_type")

def bootIdField (parsed : List (Str × Json)) : Except Raised (Option Str) :=
  match field parsed "source_boot_id" with
  | .null => .ok none
  | .str s => .ok (some s)
  | _ => .error (envelopeError "invalid_field" "source_boot_id")

/-- `isinstance(v, int)`. -/
def isInt : Json → Bool
  | .int _ => true
  | .bool _ => true
  | _ => false

def sequenceField (parsed : List (Str × Json)) : Except Raised (Option Json) :=
  if isNone (field parsed "source_sequence") then .ok none
  else if isInt (field parsed "source_sequence") then .ok (some (field parsed "source_sequence"))
  else .error (envelopeError "invalid_field" "source_sequence")

/-! ## Messages -/

/-- `decode_publication`; the checks of `_validate_publisher_message_fields` come last. -/
def decodePublication (lim : Limits) (wire : Bytes) : Except Raised PublisherMessage := do
  let parsed ← parseObject lim wire
  require (← inSet (field parsed "publication_version") fun v => eqInt v 1) "unsupported_publication_version" ""
  requireFields parsed publicationFields
  require (isNone (field parsed "source_boot_id") == isNone (field parsed "source_sequence"))
    "invalid_field" "source_identity"
  let occurredAt ← occurredAtField parsed
  let originalPayload ← originalPayloadField parsed
  let sourceApplication ← routeField parsed "source_application"
  let siteId ← routeField parsed "site_id"
  let payloadSchemaId ← routeField parsed "payload_schema_id"
  let payloadSchemaVersion ← routeField parsed "payload_schema_version"
  let contentType ← contentTypeField parsed
  let sourceBootId ← bootIdField parsed
  let sourceSequence ← sequenceField parsed
  .ok { sourceApplication, siteId, payloadSchemaId, payloadSchemaVersion, contentType, originalPayload,
        occurredAt, sourceBootId, sourceSequence }

/-- `_validate_publisher_message_fields` on fields of the right types. -/
def validatePublisherMessageFields (message : PublisherMessage) : Except Raised Unit := do
  require (isRouteId message.sourceApplication) "invalid_field" "source_application"
  require (isRouteId message.siteId) "invalid_field" "site_id"
  require (isRouteId message.payloadSchemaId) "invalid_field" "payload_schema_id"
  require (isRouteId message.payloadSchemaVersion) "invalid_field" "payload_schema_version"
  require (message.contentType ≠ []) "invalid_field" "content_type"

def validatePublisherMessage (message : PublisherMessage) (route : PublicationRoute) : Except Raised Unit := do
  validatePublisherMessageFields message
  if message.sourceApplication ≠ route.sourceApplication then
    .error (.envelope ⟨lit "forged_application", message.sourceApplication⟩)
  else if message.siteId ≠ route.siteId then .error (.envelope ⟨lit "forged_site", message.siteId⟩)
  else if ⟨message.payloadSchemaId, message.payloadSchemaVersion⟩ ∉ route.allowedSchemaPairs then
    .error (.envelope ⟨lit "schema_pair_mismatch",
      message.payloadSchemaId ++ lit ":" ++ message.payloadSchemaVersion⟩)
  else .ok ()

/-- The message of a raw publication. -/
def rawMessage (wire : Bytes) (route : PublicationRoute) (pair : SchemaPair) : PublisherMessage where
  sourceApplication := route.sourceApplication
  siteId := route.siteId
  payloadSchemaId := pair.payloadSchemaId
  payloadSchemaVersion := pair.payloadSchemaVersion
  contentType := route.contentType
  originalPayload := wire
  occurredAt := none
  sourceBootId := none
  sourceSequence := none

def resolvePublisherMessage (lim : Limits) (wire : Bytes) (route : PublicationRoute) :
    Except Raised PublisherMessage :=
  if route.wireFormat = lit "raw" then
    match route.defaultSchemaPair with
    | none => .error (envelopeError "missing_field" "default_schema_pair")
    | some pair => do
        validatePublisherMessage (rawMessage wire route pair) route
        .ok (rawMessage wire route pair)
  else do
    let message ← decodePublication lim wire
    validatePublisherMessage message route
    .ok message

end Uns.Config
