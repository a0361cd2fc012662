/-
# `Kafka.AckSafety` — an acknowledgement has a delivery behind it

The ingest acknowledges a message in two places: when its route excludes it, and in the
callback of its delivery.  Beside the owner a log keeps what happened outside of it: the
messages that came in, those handed to a producer with their UUIDs, the deliveries that
Kafka reported successful with the connection generation of the moment, and the messages
that were excluded.

In every run each acknowledgement of a token has a message of its own in that log, delivered
in the token's generation or excluded (`ack_safety`).
-/
import UnifiedNamespace.Kafka.PendingAccounts

namespace Uns.Kafka

open Py Lib

/-! ## The log -/

/-- What happened around the owner. -/
structure IngestLog where
  receipts : List ReceiptToken
  handed : List (DeliveryId × ReceiptToken)
  /-- The successful deliveries, with the connection generation when they were reported. -/
  reports : List (DeliveryId × Nat)
  excluded : List ReceiptToken

namespace IngestLog

def empty : IngestLog := ⟨[], [], [], []⟩

def receive (log : IngestLog) (token : ReceiptToken) : IngestLog := { log with receipts := log.receipts ++ [token] }

def hand (log : IngestLog) (deliveryId : DeliveryId) (token : ReceiptToken) : IngestLog :=
  { log with handed := log.handed ++ [(deliveryId, token)] }

def exclude (log : IngestLog) (token : ReceiptToken) : IngestLog := { log with excluded := log.excluded ++ [token] }

/-- A callback of a producer. -/
def report (generation : Nat) (log : IngestLog) (callback : DeliveryId × Bool) : IngestLog :=
  if callback.2 then { log with reports := log.reports ++ [(callback.1, generation)] } else log

end IngestLog

/-- What `ingest_qos1` does with a message, up to the call of `publish_event`. -/
inductive Admission where
  | hands (byteSize : Nat)
  | excludes
  | neither

def admission (limits : PendingLimits) (s : IngestionOwner) (token : ReceiptToken) (isHistoricEventTopic : Bool)
    (ingress : Ingress) : Admission :=
  if token.qos = 1 ∧ token.connectionGeneration = s.connectionGeneration ∧ isHistoricEventTopic = true ∧
      s.halted = false ∧ s.ready = true then
    match ingress with
    | .exclude => .excludes
    | .deliver delivery =>
        match delivery.wire with
        | some wire => if hasRoom limits s wire.length then .hands wire.length else .neither
        | none => .neither
    | .unarchivable _ => .neither
    | .raises => .neither
  else .neither

def IngestLog.next (limits : PendingLimits) (s : IngestionOwner) (log : IngestLog) : IngestInput → IngestLog
  | .ingest token isHistoricEventTopic ingress deliveryId publish =>
      match admission limits s token isHistoricEventTopic ingress with
      | .hands _ =>
          publish.callbacks.foldl (IngestLog.report s.connectionGeneration) ((log.receive token).hand deliveryId token)
      | .excludes => (log.receive token).exclude token
      | .neither => log.receive token
  | .callback deliveryId success => log.report s.connectionGeneration (deliveryId, success)
  | .reconnect => log

/-- The UUID of a message was not handed out before. -/
def IngestLog.Fresh (log : IngestLog) : IngestInput → Prop
  | .ingest _ _ _ deliveryId _ => deliveryId ∉ log.handed.map Prod.fst
  | _ => True

/-- The owner beside the log. -/
def loggedSystem (limits : PendingLimits) : System (IngestionOwner × IngestLog) IngestInput where
  init := fun p => p = (.start, .empty)
  step := fun p input p' =>
    (ingestSystem limits).step p.1 input p'.1 ∧ p.2.Fresh input ∧ p'.2 = p.2.next limits p.1 input

/-! ## Acknowledgements -/

/-- The message was delivered in the generation of its token. -/
def DeliveredIn (log : IngestLog) (e : DeliveryId × ReceiptToken) : Prop :=
  (e.1, e.2.connectionGeneration) ∈ log.reports

instance (log : IngestLog) (e : DeliveryId × ReceiptToken) : Decidable (DeliveredIn log e) :=
  inferInstanceAs (Decidable (_ ∈ _))

/-- The acknowledgements of each token are no more than its messages that were delivered or excluded,
and no more than its messages. -/
structure AckSafe (s : IngestionOwner) (log : IngestLog) : Prop where
  justified : ∀ token ∈ s.acks, (∃ deliveryId, (deliveryId, token) ∈ log.handed ∧ DeliveredIn log (deliveryId, token)) ∨
    token ∈ log.excluded
  settled : ∀ token, s.acks.count token ≤
    (log.handed.countP fun e => decide (e.2 = token ∧ DeliveredIn log e)) + log.excluded.count token
  once : ∀ token, s.acks.count token ≤ log.receipts.count token

variable {limits : PendingLimits} {s s' : IngestionOwner} {log : IngestLog} {deliveryId : DeliveryId}

/-- A handed message with the token, delivered, and no longer pending. -/
def Settled (s : IngestionOwner) (log : IngestLog) (token : ReceiptToken) (e : DeliveryId × ReceiptToken) : Bool :=
  decide (e.2 = token ∧ DeliveredIn log e ∧ s.pending.get? e.1 = none)

/-- The invariant: pending deliveries are handed messages, and those that are no longer pending and were
delivered account for the acknowledgements. -/
structure AckInvariant (s : IngestionOwner) (log : IngestLog) : Prop where
  pending : ∀ deliveryId p, s.pending.get? deliveryId = some p → (deliveryId, p.token) ∈ log.handed
  acks : ∀ token, s.acks.count token ≤ log.handed.countP (Settled s log token) + log.excluded.count token
  receipts : ∀ token, log.handed.countP (fun e => decide (e.2 = token)) + log.excluded.count token ≤
    log.receipts.count token

theorem countP_lt {α : Type} {p q : α → Bool} (himp : ∀ a, p a = true → q a = true) {l : List α} {a : α} (ha : a ∈ l)
    (hp : p a = false) (hq : q a = true) : l.countP p + 1 ≤ l.countP q := by
  induction l with
  | nil => cases ha
  | cons b l ih =>
      rw [List.countP_cons, List.countP_cons]
      rcases List.mem_cons.mp ha with rfl | ha
      · have hmono : l.countP p ≤ l.countP q := List.countP_mono_left fun x _ => himp x
        rw [hp, hq]
        simp only [Bool.false_eq_true, if_false, if_true]
        omega
      · have hrest := ih ha
        cases hb : p b with
        | false =>
            simp only [Bool.false_eq_true, if_false]
            omega
        | true =>
            rw [himp b hb]
            simp only [if_true]
            omega

/-- What only takes from the pending deliveries and adds to the reports keeps the messages settled. -/
theorem countP_settled_mono {log' : IngestLog} (hhanded : log'.handed = log.handed)
    (hreports : ∀ r ∈ log.reports, r ∈ log'.reports)
    (hpending : ∀ id, s.pending.get? id = none → s'.pending.get? id = none) (token : ReceiptToken) :
    log.handed.countP (Settled s log token) ≤ log'.handed.countP (Settled s' log' token) := by
  rw [hhanded]
  refine List.countP_mono_left fun e _ he => ?_
  rw [Settled, decide_eq_true_iff] at he ⊢
  exact ⟨he.1, hreports _ he.2.1, hpending _ he.2.2⟩

theorem report_handed (generation : Nat) (log : IngestLog) (callback : DeliveryId × Bool) :
    (log.report generation callback).handed = log.handed ∧ (log.report generation callback).excluded = log.excluded ∧
      (log.report generation callback).receipts = log.receipts ∧
      ∀ r ∈ log.reports, r ∈ (log.report generation callback).reports := by
  rw [IngestLog.report]
  split
  · exact ⟨rfl, rfl, rfl, fun r hr => List.mem_append_left _ hr⟩
  · exact ⟨rfl, rfl, rfl, fun r hr => hr⟩

theorem acks_completeDelivery {p : PendingDelivery} (h : s.pending.get? deliveryId = some p) (success : Bool) :
    (s.completeDelivery deliveryId success).acks =
      if success = true ∧ p.token.connectionGeneration = s.connectionGeneration then s.acks ++ [p.token] else s.acks := by
  rw [IngestionOwner.completeDelivery, h]
  dsimp only
  cases success with
  | false => rfl
  | true =>
      have hreleased : (s.release deliveryId p.byteSize).connectionGeneration = s.connectionGeneration := rfl
      rw [if_neg (by decide), hreleased]
      by_cases hgeneration : p.token.connectionGeneration = s.connectionGeneration
      · rw [if_neg (not_not.mpr hgeneration), if_pos ⟨rfl, hgeneration⟩]
        rfl
      · rw [if_pos hgeneration, if_neg fun hacked => hgeneration hacked.2]
        rfl

theorem generation_completeDelivery (deliveryId : DeliveryId) (success : Bool) :
    (s.completeDelivery deliveryId success).connectionGeneration = s.connectionGeneration := by
  rw [IngestionOwner.completeDelivery]
  split
  · rfl
  · dsimp only
    split
    · rfl
    · split <;> rfl

theorem pending_completeDelivery (deliveryId : DeliveryId) (success : Bool) {id : DeliveryId} :
    ∀ p, (s.completeDelivery deliveryId success).pending.get? id = some p → s.pending.get? id = some p := by
  intro p hp
  cases hget : s.pending.get? deliveryId with
  | none =>
      rw [completeDelivery_of_none hget] at hp
      exact hp
  | some q =>
      rw [(completeDelivery_of_some hget success).2.2] at hp
      rcases eq_or_ne id deliveryId with rfl | hne
      · rw [Dict.get?_erase_self] at hp
        cases hp
      · rw [Dict.get?_erase_ne _ hne] at hp
        exact hp

/-- A callback acknowledges the message of its delivery alone, and settles it. -/
theorem ackInvariant_completeDelivery (h : AckInvariant s log) (deliveryId : DeliveryId) (success : Bool) :
    AckInvariant (s.completeDelivery deliveryId success)
      (log.report s.connectionGeneration (deliveryId, success)) := by
  obtain ⟨hhanded, hexcluded, hreceipts, hreports⟩ := report_handed s.connectionGeneration log (deliveryId, success)
  have hgone : ∀ id, s.pending.get? id = none → (s.completeDelivery deliveryId success).pending.get? id = none := by
    intro id hnone
    refine Option.eq_none_iff_forall_ne_some.mpr fun p hp => ?_
    rw [pending_completeDelivery deliveryId success p hp] at hnone
    cases hnone
  have hmono := @countP_settled_mono s (s.completeDelivery deliveryId success) log _ hhanded hreports hgone
  refine ⟨fun id p hp => ?_, fun token => ?_, fun token => ?_⟩
  · rw [hhanded]
    exact h.pending id p (pending_completeDelivery deliveryId success p hp)
  · rw [hexcluded]
    have hold := (h.acks token).trans (Nat.add_le_add_right (hmono token) _)
    cases hget : s.pending.get? deliveryId with
    | none =>
        have hacks : (s.completeDelivery deliveryId success).acks = s.acks := by rw [completeDelivery_of_none hget]
        rw [hacks]
        exact hold
    | some p =>
        rw [acks_completeDelivery hget]
        split
        · next hacked =>
            obtain ⟨rfl, hgeneration⟩ := hacked
            rw [List.count_append, List.count_singleton]
            rcases eq_or_ne p.token token with rfl | hne
            · -- the message leaves the pending ones and is delivered now
              have hstrict : log.handed.countP (Settled s log p.token) + 1 ≤
                  log.handed.countP (Settled (s.completeDelivery deliveryId true)
                    (log.report s.connectionGeneration (deliveryId, true)) p.token) := by
                refine countP_lt ?_ (h.pending deliveryId p hget) ?_ ?_
                · intro e he
                  rw [Settled, decide_eq_true_iff] at he ⊢
                  exact ⟨he.1, hreports _ he.2.1, hgone _ he.2.2⟩
                · rw [Settled, decide_eq_false_iff_not]
                  rintro ⟨-, -, hnone⟩
                  rw [hget] at hnone
                  cases hnone
                · rw [Settled, decide_eq_true_iff, (completeDelivery_of_some hget true).2.2]
                  refine ⟨rfl, ?_, Dict.get?_erase_self _ _⟩
                  change (deliveryId, p.token.connectionGeneration) ∈ log.reports ++ [(deliveryId, s.connectionGeneration)]
                  rw [hgeneration]
                  exact List.mem_append_right _ List.mem_cons_self
              have hacks := h.acks p.token
              rw [hhanded]
              simp only [beq_self_eq_true, if_true]
              omega
            · rw [if_neg (by rw [beq_iff_eq]; exact hne)]
              exact hold
        · exact hold
  · rw [hhanded, hexcluded, hreceipts]
    exact h.receipts token

theorem ackInvariant_runCallbacks (h : AckInvariant s log) (callbacks : List (DeliveryId × Bool)) :
    AckInvariant (runCallbacks s callbacks) (callbacks.foldl (IngestLog.report s.connectionGeneration) log) := by
  induction callbacks generalizing s log with
  | nil => exact h
  | cons callback callbacks ih =>
      have hnext := ih (ackInvariant_completeDelivery h callback.1 callback.2)
      rw [generation_completeDelivery] at hnext
      exact hnext

/-- The owner forgets deliveries and acknowledges nothing. -/
theorem AckInvariant.forget (h : AckInvariant s log) (hacks : s'.acks = s.acks)
    (hpending : ∀ id p, s'.pending.get? id = some p → s.pending.get? id = some p) : AckInvariant s' log where
  pending id p hp := h.pending id p (hpending id p hp)
  acks token := by
    rw [hacks]
    refine (h.acks token).trans (Nat.add_le_add_right (countP_settled_mono rfl (fun r hr => hr) ?_ token) _)
    intro id hnone
    refine Option.eq_none_iff_forall_ne_some.mpr fun p hp => ?_
    rw [hpending id p hp] at hnone
    cases hnone
  receipts := h.receipts

theorem ackInvariant_attemptPublish (h : AckInvariant s log) (byteSize : Nat) (publish : Publish) :
    AckInvariant (attemptPublish s deliveryId byteSize publish).1
      (publish.callbacks.foldl (IngestLog.report s.connectionGeneration) log) := by
  have hrun := ackInvariant_runCallbacks h publish.callbacks
  rw [attemptPublish]
  cases publish.ending with
  | returns => exact hrun
  | raises => exact hrun
  | bufferError =>
      refine hrun.forget rfl fun id p hp => ?_
      change ((runCallbacks s publish.callbacks).pending.erase deliveryId).get? id = some p at hp
      rcases eq_or_ne id deliveryId with rfl | hne
      · rw [Dict.get?_erase_self] at hp
        cases hp
      · rw [Dict.get?_erase_ne _ hne] at hp
        exact hp

theorem AckInvariant.receive (h : AckInvariant s log) (token : ReceiptToken) : AckInvariant s (log.receive token) where
  pending := h.pending
  acks := h.acks
  receipts t := (h.receipts t).trans (by rw [IngestLog.receive, List.count_append]; omega)

/-- A message handed out is pending, not settled. -/
theorem AckInvariant.hand (h : AckInvariant s log) {token : ReceiptToken} {p : PendingDelivery} (htoken : p.token = token)
    (hfresh : deliveryId ∉ log.handed.map Prod.fst) :
    AckInvariant (s.reserve deliveryId p) ((log.receive token).hand deliveryId token) := by
  have hget : ∀ id, id ≠ deliveryId → (s.reserve deliveryId p).pending.get? id = s.pending.get? id :=
    fun id hne => Dict.get?_update_ne _ _ _ hne
  refine ⟨fun id q hq => ?_, fun t => ?_, fun t => ?_⟩
  · rcases eq_or_ne id deliveryId with rfl | hne
    · have hself : (s.reserve id p).pending.get? id = some p := Dict.get?_update_self _ _ _ _
      rw [hself] at hq
      rw [← Option.some.inj hq, htoken]
      exact List.mem_append_right _ List.mem_cons_self
    · rw [hget id hne] at hq
      exact List.mem_append_left _ (h.pending id q hq)
  · have hmono : log.handed.countP (Settled s log t) ≤
        log.handed.countP (Settled (s.reserve deliveryId p) ((log.receive token).hand deliveryId token) t) := by
      refine List.countP_mono_left fun e he hsettled => ?_
      rw [Settled, decide_eq_true_iff] at hsettled ⊢
      have hne : e.1 ≠ deliveryId := fun heq => hfresh (heq ▸ List.mem_map_of_mem he)
      rw [hget e.1 hne]
      exact hsettled
    have hacks := h.acks t
    change s.acks.count t ≤ (log.handed ++ [(deliveryId, token)]).countP _ + log.excluded.count t
    rw [List.countP_append]
    omega
  · have hreceipts := h.receipts t
    change (log.handed ++ [(deliveryId, token)]).countP _ + log.excluded.count t ≤ (log.receipts ++ [token]).count t
    rw [List.countP_append, List.count_append, List.countP_singleton, List.count_singleton]
    simp only [beq_iff_eq, decide_eq_true_eq]
    omega

theorem AckInvariant.exclude (h : AckInvariant s log) (token : ReceiptToken) :
    AckInvariant (s.ack token) ((log.receive token).exclude token) := by
  refine ⟨h.pending, fun t => ?_, fun t => ?_⟩
  · have hacks := h.acks t
    change (s.acks ++ [token]).count t ≤ log.handed.countP (Settled s log t) + (log.excluded ++ [token]).count t
    rw [List.count_append, List.count_append]
    omega
  · have hreceipts := h.receipts t
    change log.handed.countP _ + (log.excluded ++ [token]).count t ≤ (log.receipts ++ [token]).count t
    rw [List.count_append, List.count_append]
    omega

/-! ## Runs -/

/-- A message is handed out, excluded, or nothing becomes of it. -/
theorem admission_cases (limits : PendingLimits) (s : IngestionOwner) (token : ReceiptToken) (isHistoricEventTopic : Bool)
    (ingress : Ingress) (deliveryId : DeliveryId) (publish : Publish) :
    (∃ p byteSize, p.token = token ∧
      admission limits s token isHistoricEventTopic ingress = .hands byteSize ∧
      (ingestQos1 limits s token isHistoricEventTopic ingress deliveryId publish).1 =
        (attemptPublish (s.reserve deliveryId p) deliveryId byteSize publish).1) ∨
    (admission limits s token isHistoricEventTopic ingress = .excludes ∧
      (ingestQos1 limits s token isHistoricEventTopic ingress deliveryId publish).1 = s.ack token) ∨
    (admission limits s token isHistoricEventTopic ingress = .neither ∧
      (ingestQos1 limits s token isHistoricEventTopic ingress deliveryId publish).1.acks = s.acks ∧
      (ingestQos1 limits s token isHistoricEventTopic ingress deliveryId publish).1.pending = s.pending) := by
  unfold admission
  by_cases hguard : token.qos = 1 ∧ token.connectionGeneration = s.connectionGeneration ∧ isHistoricEventTopic = true ∧
      s.halted = false ∧ s.ready = true
  · obtain ⟨hqos, hgeneration, htopic, hhalted, hready⟩ := hguard
    have hingest : ingestQos1 limits s token isHistoricEventTopic ingress deliveryId publish =
        match ingress with
        | .exclude => (s.releaseWithoutPublish token, false)
        | .deliver delivery => beginDelivery limits s token delivery deliveryId publish
        | .unarchivable reason =>
            ({ s with halted := true, haltReason := some reason, ready := false, disconnectRequested := true }, false)
        | .raises => (s, true) := by
      unfold ingestQos1
      refine (if_neg (not_not.mpr hqos)).trans ?_
      refine (if_neg (not_not.mpr hgeneration)).trans ?_
      refine (if_neg (by rw [htopic]; decide)).trans ?_
      refine (if_neg (by rw [hhalted]; decide)).trans ?_
      refine (if_neg (by rw [hready]; decide)).trans ?_
      cases ingress <;> rfl
    rw [if_pos ⟨hqos, hgeneration, htopic, hhalted, hready⟩, hingest]
    cases ingress with
    | exclude =>
        refine .inr (.inl ⟨rfl, ?_⟩)
        change s.releaseWithoutPublish token = s.ack token
        rw [IngestionOwner.releaseWithoutPublish, if_neg (not_not.mpr hgeneration)]
    | unarchivable reason => exact .inr (.inr ⟨rfl, rfl, rfl⟩)
    | raises => exact .inr (.inr ⟨rfl, rfl, rfl⟩)
    | deliver delivery =>
        dsimp only
        rw [beginDelivery]
        cases hwire : delivery.wire with
        | none => exact .inr (.inr ⟨rfl, rfl, rfl⟩)
        | some wire =>
            dsimp only
            by_cases hroom : hasRoom limits s wire.length = true
            · rw [if_pos hroom, if_pos hroom]
              exact .inl ⟨⟨token, wire.length, delivery.target, delivery.dlqReason⟩, wire.length, rfl, rfl, rfl⟩
            · rw [if_neg hroom, if_neg hroom]
              exact .inr (.inr ⟨rfl, rfl, rfl⟩)
  · rw [if_neg hguard]
    refine .inr (.inr ⟨rfl, ?_⟩)
    unfold ingestQos1
    split
    · exact ⟨rfl, rfl⟩
    split
    · exact ⟨rfl, rfl⟩
    split
    · exact ⟨rfl, rfl⟩
    split
    · exact ⟨rfl, rfl⟩
    split
    · exact ⟨rfl, rfl⟩
    next hqos hgeneration htopic hhalted hready =>
    exact absurd ⟨not_not.mp hqos, not_not.mp hgeneration, Bool.of_not_eq_false htopic, Bool.of_not_eq_true hhalted,
      Bool.of_not_eq_false hready⟩ hguard

theorem ackInvariant_next (h : AckInvariant s log) {input : IngestInput} (hstep : (ingestSystem limits).step s input s')
    (hfresh : log.Fresh input) : AckInvariant s' (log.next limits s input) := by
  cases input with
  | ingest token isHistoricEventTopic ingress deliveryId publish =>
      obtain ⟨-, rfl⟩ := hstep
      rw [IngestLog.next]
      rcases admission_cases limits s token isHistoricEventTopic ingress deliveryId publish with
        ⟨p, byteSize, htoken, hadmission, hstate⟩ | ⟨hadmission, hstate⟩ | ⟨hadmission, hacks, hpending⟩
      · rw [hadmission, hstate]
        exact ackInvariant_attemptPublish (h.hand htoken hfresh) byteSize publish
      · rw [hadmission, hstate]
        exact h.exclude token
      · rw [hadmission]
        exact (h.receive token).forget hacks fun id p hp => hpending ▸ hp
  | callback deliveryId success =>
      obtain rfl := hstep
      exact ackInvariant_completeDelivery h deliveryId success
  | reconnect =>
      obtain rfl := hstep
      exact h.forget rfl fun id p hp => hp

theorem ackInvariant_of_reachable {p : IngestionOwner × IngestLog} (h : (loggedSystem limits).Reachable p) :
    AckInvariant p.1 p.2 := by
  refine System.invariant (I := fun p => AckInvariant p.1 p.2) ?_ ?_ h
  · rintro _ rfl
    refine ⟨fun id p hp => ?_, fun token => ?_, fun token => ?_⟩
    · cases hp
    · exact Nat.le_refl 0
    · exact Nat.le_refl 0
  · rintro ⟨s, log⟩ input ⟨s', log'⟩ - hs ⟨hstep, hfresh, hlog⟩
    obtain rfl := hlog
    exact ackInvariant_next hs hstep hfresh

/-- In every run each acknowledgement has a message of its own that was delivered in its generation or
excluded. -/
theorem ack_safety (limits : PendingLimits) {p : IngestionOwner × IngestLog} (h : (loggedSystem limits).Reachable p) :
    AckSafe p.1 p.2 := by
  have hinvariant := ackInvariant_of_reachable h
  have hsettled : ∀ token, p.2.handed.countP (Settled p.1 p.2 token) ≤
      p.2.handed.countP fun e => decide (e.2 = token ∧ DeliveredIn p.2 e) := by
    intro token
    refine List.countP_mono_left fun e _ he => ?_
    rw [Settled, decide_eq_true_iff] at he
    exact decide_eq_true ⟨he.1, he.2.1⟩
  have hhanded : ∀ token, p.2.handed.countP (Settled p.1 p.2 token) ≤
      p.2.handed.countP fun e => decide (e.2 = token) := by
    intro token
    refine List.countP_mono_left fun e _ he => ?_
    rw [Settled, decide_eq_true_iff] at he
    exact decide_eq_true he.1
  refine ⟨fun token hmem => ?_, fun token => ?_, fun token => ?_⟩
  · have hpos := List.count_pos_iff.mpr hmem
    have hacks := hinvariant.acks token
    rcases Nat.eq_zero_or_pos (p.2.handed.countP (Settled p.1 p.2 token)) with hzero | hpos'
    · exact .inr (List.count_pos_iff.mp (by omega))
    · obtain ⟨e, he, hdelivered⟩ := List.countP_pos_iff.mp hpos'
      rw [Settled, decide_eq_true_iff] at hdelivered
      obtain ⟨rfl, hdelivered, -⟩ := hdelivered
      exact .inl ⟨e.1, he, hdelivered⟩
  · exact (hinvariant.acks token).trans (Nat.add_le_add_right (hsettled token) _)
  · have hacks := hinvariant.acks token
    have hreceipts := hinvariant.receipts token
    have hle := hhanded token
    omega

/-- A message of the first connection, to be delivered under the first UUID. -/
def firstMessage : IngestInput :=
  .ingest ⟨1, 7, 1⟩ true (.deliver ⟨some [123, 125], .historic, none⟩) 0 ⟨[], .returns⟩

def firstHanded : IngestionOwner :=
  (ingestQos1 ⟨1000, 16777216⟩ .start ⟨1, 7, 1⟩ true (.deliver ⟨some [123, 125], .historic, none⟩) 0 ⟨[], .returns⟩).1

/-- It is handed out, delivered, and acknowledged. -/
theorem ack_safety_delivered : (firstHanded.completeDelivery 0 true).acks = [⟨1, 7, 1⟩] ∧
    AckSafe (firstHanded.completeDelivery 0 true)
      ((IngestLog.empty.next ⟨1000, 16777216⟩ .start firstMessage).next ⟨1000, 16777216⟩ firstHanded (.callback 0 true)) := by
  have hstart : (loggedSystem ⟨1000, 16777216⟩).Reachable (.start, .empty) := .init rfl
  have hhanded : (loggedSystem ⟨1000, 16777216⟩).Reachable
      (firstHanded, IngestLog.empty.next ⟨1000, 16777216⟩ .start firstMessage) :=
    .step (i := firstMessage) hstart ⟨⟨rfl, rfl⟩, List.not_mem_nil, rfl⟩
  have hdelivered : (loggedSystem ⟨1000, 16777216⟩).Reachable (firstHanded.completeDelivery 0 true,
      (IngestLog.empty.next ⟨1000, 16777216⟩ .start firstMessage).next ⟨1000, 16777216⟩ firstHanded (.callback 0 true)) :=
    .step (i := .callback 0 true) hhanded ⟨rfl, trivial, rfl⟩
  exact ⟨rfl, ack_safety ⟨1000, 16777216⟩ hdelivered⟩

end Uns.Kafka
