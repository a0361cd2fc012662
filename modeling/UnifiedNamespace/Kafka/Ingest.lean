/-
# `Kafka.Ingest` — messages on their way to Kafka

`ingest.py`: a QoS 1 message is acknowledged when Kafka has it.  Until then it is pending,
under a UUID, and the pending records and their bytes are bounded; a message that finds no
room asks for a disconnect, so that the broker sends it again.

What `_resolve_ingress` makes of a message is a parameter here (`Ingress`), and so is what a
call of `publish_event` does: it may run delivery callbacks, its own among them, and it may
raise.  The hooks for metrics are left out.
-/
import UnifiedNamespace.Lib.Dict
import UnifiedNamespace.Lib.Transition
import UnifiedNamespace.Python.Str

namespace Uns.Kafka

open Py Lib

/-! ## The owner -/

structure ReceiptToken where
  connectionGeneration : Nat
  packetId : Nat
  qos : Nat
  deriving DecidableEq

/-- `target` of a pending delivery. -/
inductive DeliveryTarget where
  | historic
  | dlq
  deriving DecidableEq

structure PendingDelivery where
  token : ReceiptToken
  byteSize : Nat
  target : DeliveryTarget
  dlqReason : Option Str

/-- A UUID. -/
abbrev DeliveryId := Nat

/-- The limits of `IngestionConfig`, which nothing checks. -/
structure PendingLimits where
  recordLimit : Int
  byteLimit : Int

structure IngestionOwner where
  connectionGeneration : Nat
  ready : Bool
  disconnectRequested : Bool
  pendingRecords : Int
  pendingBytes : Int
  halted : Bool
  haltReason : Option Str
  pending : Dict DeliveryId PendingDelivery
  /-- The calls of `ack`. -/
  acks : List ReceiptToken

def IngestionOwner.start : IngestionOwner := ⟨1, true, false, 0, 0, false, none, .empty, []⟩

namespace IngestionOwner

/-- `on_reconnect`, without the backoff. -/
def onReconnect (s : IngestionOwner) : IngestionOwner := { s with connectionGeneration := s.connectionGeneration + 1 }

/-- `_mark_backpressure`. -/
def markBackpressure (s : IngestionOwner) : IngestionOwner := { s with ready := false, disconnectRequested := true }

def ack (s : IngestionOwner) (token : ReceiptToken) : IngestionOwner := { s with acks := s.acks ++ [token] }

/-- `_release_without_publish`. -/
def releaseWithoutPublish (s : IngestionOwner) (token : ReceiptToken) : IngestionOwner :=
  if token.connectionGeneration ≠ s.connectionGeneration then s else s.ack token

/-- The delivery is forgotten, and so are a record and the bytes. -/
def release (s : IngestionOwner) (deliveryId : DeliveryId) (byteSize : Nat) : IngestionOwner :=
  { s with
    pending := s.pending.erase deliveryId
    pendingRecords := s.pendingRecords - 1
    pendingBytes := s.pendingBytes - byteSize }

/-- `complete_delivery`. -/
def completeDelivery (s : IngestionOwner) (deliveryId : DeliveryId) (success : Bool) : IngestionOwner :=
  match s.pending.get? deliveryId with
  | none => s
  | some pending =>
      let released := s.release deliveryId pending.byteSize
      if success = false then released.markBackpressure
      else if pending.token.connectionGeneration ≠ released.connectionGeneration then released
      else released.ack pending.token

end IngestionOwner

/-! ## Publishing -/

/-- How `publish_event` ends. -/
inductive PublishEnding where
  | returns
  | bufferError
  | raises
  deriving DecidableEq

/-- What `publish_event` does: the deliveries whose callbacks it runs, with their success, and
how it ends. -/
structure Publish where
  callbacks : List (DeliveryId × Bool)
  ending : PublishEnding

/-- Callbacks, one after the other. -/
def runCallbacks (s : IngestionOwner) (callbacks : List (DeliveryId × Bool)) : IngestionOwner :=
  callbacks.foldl (fun s callback => s.completeDelivery callback.1 callback.2) s

/-- `_reserve_pending` has room. -/
def hasRoom (limits : PendingLimits) (s : IngestionOwner) (byteSize : Nat) : Bool :=
  decide (s.pendingRecords + 1 ≤ limits.recordLimit) && decide (s.pendingBytes + byteSize ≤ limits.byteLimit)

/-- `_reserve_pending`, and the entry. -/
def IngestionOwner.reserve (s : IngestionOwner) (deliveryId : DeliveryId) (pending : PendingDelivery) : IngestionOwner :=
  { s with
    pendingRecords := s.pendingRecords + 1
    pendingBytes := s.pendingBytes + pending.byteSize
    pending := s.pending.update deliveryId pending fun _ => pending }

/-- The call of `publish_event` in `_begin_delivery`: the state afterwards, and whether an exception
escapes. -/
def attemptPublish (s : IngestionOwner) (deliveryId : DeliveryId) (byteSize : Nat) (publish : Publish) :
    IngestionOwner × Bool :=
  match publish.ending with
  | .returns => (runCallbacks s publish.callbacks, false)
  | .bufferError => (((runCallbacks s publish.callbacks).release deliveryId byteSize).markBackpressure, false)
  | .raises => (runCallbacks s publish.callbacks, true)

/-- A delivery to begin: what is sent, or that encoding it raises. -/
structure Delivery where
  wire : Option (List Nat)
  target : DeliveryTarget
  dlqReason : Option Str

/-- `_begin_delivery`, with the UUID it takes. -/
def beginDelivery (limits : PendingLimits) (s : IngestionOwner) (token : ReceiptToken) (delivery : Delivery)
    (deliveryId : DeliveryId) (publish : Publish) : IngestionOwner × Bool :=
  match delivery.wire with
  | none => (s, true)
  | some wire =>
      if hasRoom limits s wire.length then
        attemptPublish (s.reserve deliveryId ⟨token, wire.length, delivery.target, delivery.dlqReason⟩) deliveryId
          wire.length publish
      else (s.markBackpressure, false)

/-! ## Messages -/

/-- What `_resolve_ingress` does with a message. -/
inductive Ingress where
  | deliver (delivery : Delivery)
  | exclude
  | unarchivable (reason : Str)
  | raises

/-- `ingest_qos1`, with whether the topic is one of historic events. -/
def ingestQos1 (limits : PendingLimits) (s : IngestionOwner) (token : ReceiptToken) (isHistoricEventTopic : Bool)
    (ingress : Ingress) (deliveryId : DeliveryId) (publish : Publish) : IngestionOwner × Bool :=
  if token.qos ≠ 1 then (s, true)
  else if token.connectionGeneration ≠ s.connectionGeneration then (s, false)
  else if isHistoricEventTopic = false then (s, false)
  else if s.halted then (s, false)
  else if s.ready = false then (s.markBackpressure, false)
  else
    match ingress with
    | .exclude => (s.releaseWithoutPublish token, false)
    | .deliver delivery => beginDelivery limits s token delivery deliveryId publish
    | .unarchivable reason =>
        ({ s with halted := true, haltReason := some reason, ready := false, disconnectRequested := true }, false)
    | .raises => (s, true)

/-! ## Runs -/

inductive IngestInput where
  | ingest (token : ReceiptToken) (isHistoricEventTopic : Bool) (ingress : Ingress) (deliveryId : DeliveryId)
      (publish : Publish)
  | callback (deliveryId : DeliveryId) (success : Bool)
  | reconnect

/-- Messages, callbacks and reconnects in any order; a UUID is new. -/
def ingestSystem (limits : PendingLimits) : System IngestionOwner IngestInput where
  init s := s = .start
  step s input s' :=
    match input with
    | .ingest token isHistoricEventTopic ingress deliveryId publish =>
        s.pending.get? deliveryId = none ∧
          s' = (ingestQos1 limits s token isHistoricEventTopic ingress deliveryId publish).1
    | .callback deliveryId success => s' = s.completeDelivery deliveryId success
    | .reconnect => s' = s.onReconnect

end Uns.Kafka
