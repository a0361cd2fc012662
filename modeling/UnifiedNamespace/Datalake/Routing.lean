/-
# `Datalake.Routing` — the lake route of an event

`routing.py`: a v2 event names its own route, a v1 event is looked up in the
legacy map by topic, source and site.  `decode_event` leaves fields that may
still be any JSON value, so the lookup hashes whatever they hold; where a route
takes the site, only a string can be left (`siteText`).
-/
import UnifiedNamespace.Config.Events
import UnifiedNamespace.Lib.Dict

namespace Uns

open Py

inductive PayloadFidelity where
  | original
  | legacyNormalized
  deriving DecidableEq

def lakePrefixV2 : Str := lit "raw/v2"

/-- Topic, source and site. -/
abbrev LegacyRouteKey := Str × Str × Str

structure LakeRoute where
  application : Str
  site : Str
  schema : Str
  version : Str
  ingestionDate : Date
  deriving DecidableEq

structure LegacyRouteEntry where
  application : Str
  schema : Str
  version : Str
  deriving DecidableEq

/-- The routes in the order of `sorted(routes.items())`. -/
def sortedRoutes (routes : Lib.Dict LegacyRouteKey LegacyRouteEntry) :
    List (LegacyRouteKey × LegacyRouteEntry) :=
  routes.entries.insertionSort fun a b =>
    [a.1.1, a.1.2.1, a.1.2.2] ≤ [b.1.1, b.1.2.1, b.1.2.2]

def legacyRouteWire (e : LegacyRouteKey × LegacyRouteEntry) : Json :=
  .obj [(lit "topic", .str e.1.1),
    (lit "source_id", .str e.1.2.1),
    (lit "site_id", .str e.1.2.2),
    (lit "application", .str e.2.application),
    (lit "schema", .str e.2.schema),
    (lit "version", .str e.2.version)]

def computeLegacyMapDigest (lim : Limits) (revision : Str)
    (routes : Lib.Dict LegacyRouteKey LegacyRouteEntry) : Except Raised Str :=
  (jsonBytes lim (.obj [(lit "revision", .str revision),
    (lit "routes", .arr ((sortedRoutes routes).map legacyRouteWire))])).map sha256Hex

/-- A map whose digest is the digest of its routes. -/
structure LegacyRouteMap (lim : Limits) where
  revision : Str
  contentDigest : Str
  routes : Lib.Dict LegacyRouteKey LegacyRouteEntry
  digest : computeLegacyMapDigest lim revision routes = .ok contentDigest

structure ResolvedLakeEvent where
  envelope : HistoricEventEnvelope
  route : LakeRoute
  originalPayload : Option Bytes
  payloadFidelity : PayloadFidelity
  legacyRouteRevision : Option Str

/-- A Kafka partition: topic and number. -/
abbrev PartitionKey := Str × Nat

structure LakeRecord where
  kafkaTopic : Str
  partition : Nat
  offset : Nat
  resolved : ResolvedLakeEvent
  envelopeBytes : Bytes

def LakeRecord.envelope (r : LakeRecord) : HistoricEventEnvelope := r.resolved.envelope

def LakeRecord.partitionKey (r : LakeRecord) : PartitionKey := (r.kafkaTopic, r.partition)

/-- `received_at.astimezone(UTC).date()`; an envelope's times are in UTC. -/
def ingestionDate (e : HistoricEventEnvelope) : Date := e.receivedAt.date

/-- The site of a decoded v2 envelope: its validator accepts a string only. -/
def siteText : Json → Str
  | .str s => s
  | _ => []

def resolveV2 (e : HistoricEventEnvelope) : Except Raised ResolvedLakeEvent :=
  match e.sourceApplication, e.payloadSchemaId, e.payloadSchemaVersion with
  | none, _, _ => .error (envelopeError "missing_field" "source_application")
  | some _, none, _ => .error (envelopeError "missing_field" "payload_schema_id")
  | some _, some _, none => .error (envelopeError "missing_field" "payload_schema_version")
  | some application, some schema, some version =>
      .ok {
        envelope := e
        route := ⟨application, siteText e.siteId, schema, version, ingestionDate e⟩
        originalPayload := e.originalPayload
        payloadFidelity := .original
        legacyRouteRevision := none }

/-- `routes.get((topic, source_id, site_id))`: the tuple is hashed, and equals a key only when all
three are strings. -/
def legacyRoute (routes : Lib.Dict LegacyRouteKey LegacyRouteEntry) (e : HistoricEventEnvelope) :
    Except Raised (Option (Str × LegacyRouteEntry)) :=
  if unhashable e.topic || unhashable e.sourceId || unhashable e.siteId then .error .typeError
  else
    match e.topic, e.sourceId, e.siteId with
    | .str topic, .str sourceId, .str siteId =>
        .ok ((routes.get? (topic, sourceId, siteId)).map fun entry => (siteId, entry))
    | _, _, _ => .ok none

/-- The original payload a v1 envelope carries, if it does. -/
def rawPayload (e : HistoricEventEnvelope) : Except Raised (Option Bytes × PayloadFidelity) :=
  match e.rawPayloadBase64 with
  | none | some [] => .ok (none, .legacyNormalized)
  | some s =>
      match b64decode s with
      | some bytes => .ok (some bytes, .original)
      | none => .error (envelopeError "invalid_field" "raw_payload_base64")

def resolveV1 {lim : Limits} (e : HistoricEventEnvelope) (legacyMap : LegacyRouteMap lim) :
    Except Raised ResolvedLakeEvent := do
  match ← legacyRoute legacyMap.routes e with
  | none => .error (envelopeError "missing_legacy_route" "")
  | some (siteId, entry) => do
      let (originalPayload, payloadFidelity) ← rawPayload e
      .ok {
        envelope := e
        route := ⟨entry.application, siteId, entry.schema, entry.version, ingestionDate e⟩
        originalPayload := originalPayload
        payloadFidelity := payloadFidelity
        legacyRouteRevision := some legacyMap.revision }

def resolveLakeEvent {lim : Limits} (e : HistoricEventEnvelope)
    (legacyMap : Option (LegacyRouteMap lim)) : Except Raised ResolvedLakeEvent :=
  if eqInt e.schemaVersion 2 then resolveV2 e
  else if eqInt e.schemaVersion 1 then
    match legacyMap with
    | none => .error (envelopeError "missing_legacy_route" "")
    | some legacyMap => resolveV1 e legacyMap
  else .error (envelopeError "unsupported_schema" "")

def lakeObjectPath (route : LakeRoute) (objectId : Str) : Str :=
  let filename := if (lit ".parquet").isSuffixOf objectId then objectId else objectId ++ lit ".parquet"
  lakePrefixV2 ++ lit "/application=" ++ route.application ++ lit "/site=" ++ route.site ++
    lit "/schema=" ++ route.schema ++ lit "/version=" ++ route.version ++
    lit "/ingestion_date=" ++ dateText route.ingestionDate ++ lit "/" ++ filename

/-- The resolved event keeps the envelope. -/
theorem envelope_resolveLakeEvent {lim : Limits} {e : HistoricEventEnvelope}
    {legacyMap : Option (LegacyRouteMap lim)} {r : ResolvedLakeEvent}
    (h : resolveLakeEvent e legacyMap = .ok r) : r.envelope = e := by
  unfold resolveLakeEvent at h
  split at h
  · unfold resolveV2 at h
    split at h <;> cases h
    rfl
  · split at h
    · split at h
      · cases h
      · unfold resolveV1 at h
        rename_i legacyMap
        cases hroute : legacyRoute legacyMap.routes e with
        | error e => simp [hroute, bind, Except.bind] at h
        | ok found =>
            cases found with
            | none => simp [hroute, bind, Except.bind] at h
            | some found =>
                cases hraw : rawPayload e with
                | error e => simp [hroute, hraw, bind, Except.bind] at h
                | ok raw =>
                    simp only [hroute, hraw, bind, Except.bind, Except.ok.injEq] at h
                    rw [← h]
    · cases h

end Uns
