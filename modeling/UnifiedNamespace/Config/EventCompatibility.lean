/-
# `Config.EventCompatibility` — the v1 view of an event

`event_compatibility.py`: what the historian and other consumers of telemetry make
of a decoded event.  An event of a kind that is no metric input has no view; a v2
event is rebuilt as v1, so its payload is normalized once here and once more by
the constructor.
-/
import UnifiedNamespace.Config.Events

namespace Uns

open Py

def legacyTelemetryKinds : List Str :=
  [lit "telemetry", lit "sparkplug_raw", lit "lifecycle", lit "command"]

def nonMetricKinds : List Str := [lit "business_event", lit "state_snapshot"]

/-- The v1 envelope of a v2 event. -/
def legacyEnvelope (e : HistoricEventEnvelope) : Except Raised HistoricEventEnvelope := do
  let payload ← normalizePayloadTimestamps e.payload
  construct
    { schemaVersion := .int 1
      eventId := e.eventId
      identityQuality := e.identityQuality
      sourceId := e.sourceId
      sourceBootId := e.sourceBootId
      sourceSequence := e.sourceSequence
      siteId := e.siteId
      time := (e.time, some 0)
      receivedAt := (e.receivedAt, some 0)
      timestampQuality := e.timestampQuality
      topic := e.topic
      eventKind := e.eventKind
      isHistorical := e.isHistorical
      payload := payload
      rawPayloadBase64 := none
      sourceApplication := none
      payloadSchemaId := none
      payloadSchemaVersion := none
      contentType := none
      originalPayload := none
      archiveEligible := none }

/-- A v1 telemetry view, or nothing when the event is not metric input.  The payload is an
object whatever the event, so the source's test of that never fails. -/
def asLegacyTelemetry (e : HistoricEventEnvelope) : Except Raised (Option HistoricEventEnvelope) := do
  if ← inWords nonMetricKinds e.eventKind then .ok none
  else
    require (← inWords legacyTelemetryKinds e.eventKind) "invalid_field" "event_kind"
    if eqInt e.schemaVersion 1 then .ok (some e)
    else
      let legacy ← legacyEnvelope e
      .ok (some legacy)

end Uns
