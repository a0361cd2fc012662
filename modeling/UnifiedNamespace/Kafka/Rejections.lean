/-
# `Kafka.Rejections` — records for the dead-letter topic

`rejections.py`: what a rejected message becomes on the DLQ.  The captured bytes
are bounded by a field of the record, as its constructor checks; the encoded
record is bounded by `encode_rejection`, and base64 makes the second bound the
tighter one.
-/
import UnifiedNamespace.Config.Events

namespace Uns

open Py

def dlqTopic : Str := lit "uns.historic-events.dlq"

def maxRejectionBytes : Nat := 65536

def rejectionSchemaVersion : Int := 1

/-- `RejectionError` with its reason, or what `json` and the codec raise. -/
inductive RejectionRaised where
  | rejection (reason : Str)
  | other (e : Raised)
  deriving DecidableEq

structure RejectionRecord where
  stage : Str
  origin : Str
  reason : Str
  capturedAt : Datetime
  topic : Str
  originalBytes : Bytes
  eventId : Option Str
  bounded : originalBytes.length ≤ maxRejectionBytes

/-- `value[:65_536]`: what a caller captures. -/
def captured (value : Bytes) : Bytes := value.take maxRejectionBytes

theorem length_captured (value : Bytes) : (captured value).length ≤ maxRejectionBytes := by
  rw [captured, List.length_take]
  exact Nat.min_le_left _ _

def rejectionWire (r : RejectionRecord) : List (Str × Json) :=
  [(lit "schema_version", .int rejectionSchemaVersion),
    (lit "stage", .str r.stage),
    (lit "origin", .str r.origin),
    (lit "reason", .str r.reason),
    (lit "captured_at", .str (formatTime r.capturedAt)),
    (lit "topic", .str r.topic),
    (lit "event_id", optStr r.eventId),
    (lit "original_base64", .str (b64encode r.originalBytes))]

def encodeRejection (lim : Limits) (r : RejectionRecord) : Except RejectionRaised Bytes :=
  match jsonBytes lim (.obj (rejectionWire r)) with
  | .error e => .error (.other e)
  | .ok encoded =>
      if maxRejectionBytes < encoded.length then .error (.rejection (lit "oversize"))
      else .ok encoded

end Uns
