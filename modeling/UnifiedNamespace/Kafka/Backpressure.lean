/-
# `Kafka.Backpressure` — what never comes back

`ready` is set at the start and cleared by backpressure, by a failed delivery and by a message
that cannot be archived; nothing sets it again, `on_reconnect` included.  An ingest admits
messages after a reconnect as long as none of these has happened (`undisturbed_recovers`), and
never again after one (`disturbed_for_good`).
-/
import UnifiedNamespace.Kafka.PendingAccounts

namespace Uns.Kafka

open Py Lib

variable {limits : PendingLimits} {s s' : IngestionOwner}

/-! ## Recovery -/

/-- The owner reports ready. -/
def IngestionOwner.reportsReady (s : IngestionOwner) : Bool := s.ready && !s.halted

/-- After a reconnect a message that fits the limits is published and pending, and the owner
reports ready and asks for no disconnect. -/
def Recovers (limits : PendingLimits) (s : IngestionOwner) : Prop :=
  ∀ packetId wire target dlqReason deliveryId, 1 ≤ limits.recordLimit → (wire.length : Int) ≤ limits.byteLimit →
    let after := (ingestQos1 limits s.onReconnect ⟨s.onReconnect.connectionGeneration, packetId, 1⟩ true
      (.deliver ⟨some wire, target, dlqReason⟩) deliveryId ⟨[], .returns⟩).1
    (after.pending.get? deliveryId).isSome = true ∧ after.reportsReady = true ∧ after.disconnectRequested = false

/-- A callback fails a delivery that is pending. -/
def FailsIn : IngestionOwner → List (DeliveryId × Bool) → Prop
  | _, [] => False
  | s, callback :: callbacks =>
      (callback.2 = false ∧ (s.pending.get? callback.1).isSome = true) ∨
        FailsIn (s.completeDelivery callback.1 callback.2) callbacks

/-- The step finds no room or a full queue, fails a delivery, or meets a message that cannot be
archived. -/
def Disturbs (limits : PendingLimits) (s : IngestionOwner) : IngestInput → Prop
  | .reconnect => False
  | .callback deliveryId success => FailsIn s [(deliveryId, success)]
  | .ingest token isHistoricEventTopic ingress deliveryId publish =>
      token.qos = 1 ∧ token.connectionGeneration = s.connectionGeneration ∧ isHistoricEventTopic = true ∧
        match ingress with
        | .exclude => False
        | .raises => False
        | .unarchivable _ => True
        | .deliver delivery => ∃ wire, delivery.wire = some wire ∧
            (hasRoom limits s wire.length = false ∨ publish.ending = .bufferError ∨
              FailsIn (s.reserve deliveryId ⟨token, wire.length, delivery.target, delivery.dlqReason⟩) publish.callbacks)

/-! ## The flags -/

theorem completeDelivery_flags (deliveryId : DeliveryId) (success : Bool) :
    (s.completeDelivery deliveryId success).halted = s.halted ∧
      ((s.completeDelivery deliveryId success).ready = true ↔
        s.ready = true ∧ ¬ (success = false ∧ (s.pending.get? deliveryId).isSome = true)) := by
  cases hpending : s.pending.get? deliveryId with
  | none =>
      rw [completeDelivery_of_none hpending]
      exact ⟨rfl, (and_iff_left fun h => by cases h.2).symm⟩
  | some pending =>
      rw [IngestionOwner.completeDelivery, hpending]
      dsimp only
      split
      · next hfailed => exact ⟨rfl, iff_of_false (fun h => by cases h) fun h => h.2 ⟨hfailed, rfl⟩⟩
      · next hsuccess =>
          split
          · exact ⟨rfl, (and_iff_left fun h => hsuccess h.1).symm⟩
          · exact ⟨rfl, (and_iff_left fun h => hsuccess h.1).symm⟩

/-- Callbacks leave the owner ready unless one of them fails a delivery. -/
theorem runCallbacks_flags (callbacks : List (DeliveryId × Bool)) :
    (runCallbacks s callbacks).halted = s.halted ∧
      ((runCallbacks s callbacks).ready = true ↔ s.ready = true ∧ ¬ FailsIn s callbacks) := by
  induction callbacks generalizing s with
  | nil => exact ⟨rfl, (and_iff_left id).symm⟩
  | cons callback callbacks ih =>
      obtain ⟨hhalted, hready⟩ := @completeDelivery_flags s callback.1 callback.2
      obtain ⟨hhalted', hready'⟩ := @ih (s.completeDelivery callback.1 callback.2)
      refine ⟨hhalted'.trans hhalted, ?_⟩
      rw [runCallbacks, List.foldl_cons]
      rw [runCallbacks] at hready'
      rw [hready', hready, FailsIn, not_or, and_assoc]

theorem attemptPublish_flags (deliveryId : DeliveryId) (byteSize : Nat) (publish : Publish) :
    (attemptPublish s deliveryId byteSize publish).1.halted = s.halted ∧
      ((attemptPublish s deliveryId byteSize publish).1.ready = true ↔
        s.ready = true ∧ publish.ending ≠ .bufferError ∧ ¬ FailsIn s publish.callbacks) := by
  obtain ⟨hhalted, hready⟩ := @runCallbacks_flags s publish.callbacks
  rw [attemptPublish]
  cases hending : publish.ending with
  | returns =>
      refine ⟨hhalted, hready.trans (and_congr_right fun _ => (and_iff_right ?_).symm)⟩
      intro h
      cases h
  | raises =>
      refine ⟨hhalted, hready.trans (and_congr_right fun _ => (and_iff_right ?_).symm)⟩
      intro h
      cases h
  | bufferError => exact ⟨hhalted, iff_of_false (fun h => by cases h) fun h => h.2.1 rfl⟩

theorem beginDelivery_flags (token : ReceiptToken) (delivery : Delivery) (deliveryId : DeliveryId) (publish : Publish) :
    (beginDelivery limits s token delivery deliveryId publish).1.halted = s.halted ∧
      ((beginDelivery limits s token delivery deliveryId publish).1.ready = true ↔
        s.ready = true ∧ ¬ ∃ wire, delivery.wire = some wire ∧
          (hasRoom limits s wire.length = false ∨ publish.ending = .bufferError ∨
            FailsIn (s.reserve deliveryId ⟨token, wire.length, delivery.target, delivery.dlqReason⟩)
              publish.callbacks)) := by
  rw [beginDelivery]
  cases hwire : delivery.wire with
  | none =>
      refine ⟨rfl, (and_iff_left ?_).symm⟩
      rintro ⟨wire, h, -⟩
      cases h
  | some wire =>
      dsimp only
      split
      · next hroom =>
          obtain ⟨hhalted, hready⟩ := @attemptPublish_flags
            (s.reserve deliveryId ⟨token, wire.length, delivery.target, delivery.dlqReason⟩) deliveryId wire.length publish
          refine ⟨hhalted, hready.trans (and_congr_right fun _ => ?_)⟩
          constructor
          · rintro ⟨hending, hfails⟩ ⟨_, hsome, hdisturbs⟩
            cases hsome
            rcases hdisturbs with hfull | hbuffer | hfail
            · rw [hroom] at hfull
              cases hfull
            · exact hending hbuffer
            · exact hfails hfail
          · intro h
            exact ⟨fun hbuffer => h ⟨wire, rfl, .inr (.inl hbuffer)⟩, fun hfail => h ⟨wire, rfl, .inr (.inr hfail)⟩⟩
      · next hfull =>
          refine ⟨rfl, iff_of_false (fun h => by cases h) fun h => h.2 ⟨wire, rfl, .inl ?_⟩⟩
          exact Bool.eq_false_iff.mpr hfull

/-- An ingest leaves the owner ready exactly when it was ready and is not disturbed. -/
theorem ingestQos1_flags (token : ReceiptToken) (isHistoricEventTopic : Bool) (ingress : Ingress)
    (deliveryId : DeliveryId) (publish : Publish) :
    (ingestQos1 limits s token isHistoricEventTopic ingress deliveryId publish).1.ready = true ∧
        (ingestQos1 limits s token isHistoricEventTopic ingress deliveryId publish).1.halted = false ↔
      (s.ready = true ∧ s.halted = false) ∧
        ¬ Disturbs limits s (.ingest token isHistoricEventTopic ingress deliveryId publish) := by
  unfold ingestQos1
  split
  · next hqos => exact (and_iff_left fun h => hqos h.1).symm
  split
  · next hgeneration => exact (and_iff_left fun h => hgeneration h.2.1).symm
  split
  · next htopic =>
      refine (and_iff_left fun h => ?_).symm
      rw [h.2.2.1] at htopic
      cases htopic
  split
  · next hhalted => exact (and_iff_left_of_imp fun h => absurd h.2 (by rw [hhalted]; exact Bool.noConfusion)).symm
  split
  · next hready =>
      refine iff_of_false (fun h => by cases h.1) fun h => ?_
      rw [h.1.1] at hready
      cases hready
  next hqos hgeneration htopic _ _ =>
  rw [not_not] at hqos hgeneration
  rw [Bool.not_eq_false] at htopic
  cases ingress with
  | raises => exact (and_iff_left fun h => h.2.2.2).symm
  | unarchivable reason =>
      exact iff_of_false (fun h => by cases h.1) fun h => h.2 ⟨hqos, hgeneration, htopic, trivial⟩
  | exclude =>
      refine Iff.trans ?_ (and_iff_left fun h => h.2.2.2).symm
      dsimp only
      rw [IngestionOwner.releaseWithoutPublish]
      split
      · exact Iff.rfl
      · exact Iff.rfl
  | deliver delivery =>
      obtain ⟨hhalted, hready⟩ := @beginDelivery_flags limits s token delivery deliveryId publish
      dsimp only
      rw [hhalted, hready, and_right_comm]
      refine and_congr_right fun _ => not_congr ?_
      exact ⟨fun h => ⟨hqos, hgeneration, htopic, h⟩, fun h => h.2.2.2⟩

/-- A step leaves the owner ready exactly when it was ready and the step does not disturb it. -/
theorem reportsReady_step {input : IngestInput} (hstep : (ingestSystem limits).step s input s')  :
    s'.reportsReady = true ↔ s.reportsReady = true ∧ ¬ Disturbs limits s input := by
  rw [IngestionOwner.reportsReady, IngestionOwner.reportsReady, Bool.and_eq_true, Bool.and_eq_true, Bool.not_eq_true',
    Bool.not_eq_true']
  cases input with
  | reconnect =>
      cases hstep
      exact (and_iff_left id).symm
  | callback deliveryId success =>
      cases hstep
      obtain ⟨hhalted, hready⟩ := @runCallbacks_flags s [(deliveryId, success)]
      show ((runCallbacks s [(deliveryId, success)]).ready = true ∧ (runCallbacks s [(deliveryId, success)]).halted = false) ↔ _
      rw [hhalted, hready, and_right_comm]
      rfl
  | ingest token isHistoricEventTopic ingress deliveryId publish =>
      obtain ⟨-, rfl⟩ := hstep
      exact ingestQos1_flags token isHistoricEventTopic ingress deliveryId publish

/-- A delivery that completes and leaves the owner ready asks for no disconnect. -/
theorem completeDelivery_disconnectRequested (deliveryId : DeliveryId) (success : Bool)
    (hready : (s.completeDelivery deliveryId success).ready = true) :
    (s.completeDelivery deliveryId success).disconnectRequested = s.disconnectRequested := by
  rw [IngestionOwner.completeDelivery] at hready ⊢
  cases hpending : s.pending.get? deliveryId with
  | none => rfl
  | some pending =>
      rw [hpending] at hready
      dsimp only at hready ⊢
      split at hready
      · cases hready
      · next hsuccess =>
          rw [if_neg hsuccess]
          split
          · rfl
          · rfl

theorem runCallbacks_disconnectRequested (callbacks : List (DeliveryId × Bool))
    (hready : (runCallbacks s callbacks).ready = true) :
    (runCallbacks s callbacks).disconnectRequested = s.disconnectRequested := by
  induction callbacks generalizing s with
  | nil => rfl
  | cons callback callbacks ih =>
      have hfirst := ((runCallbacks_flags callbacks).2.mp hready).1
      exact (ih hready).trans (completeDelivery_disconnectRequested _ _ hfirst)

theorem ingestQos1_disconnectRequested (token : ReceiptToken) (isHistoricEventTopic : Bool) (ingress : Ingress)
    (deliveryId : DeliveryId) (publish : Publish)
    (hready : (ingestQos1 limits s token isHistoricEventTopic ingress deliveryId publish).1.ready = true) :
    (ingestQos1 limits s token isHistoricEventTopic ingress deliveryId publish).1.disconnectRequested =
      s.disconnectRequested := by
  unfold ingestQos1 at hready ⊢
  split
  · rfl
  split
  · rfl
  split
  · rfl
  split
  · rfl
  next hqos hgeneration htopic hhalted =>
  rw [if_neg hqos, if_neg hgeneration, if_neg htopic, if_neg hhalted] at hready
  split
  · next hnot =>
      rw [if_pos hnot] at hready
      cases hready
  next hisReady =>
  rw [if_neg hisReady] at hready
  cases ingress with
  | raises => rfl
  | unarchivable reason => cases hready
  | exclude =>
      dsimp only
      rw [IngestionOwner.releaseWithoutPublish]
      split
      · rfl
      · rfl
  | deliver delivery =>
      dsimp only at hready ⊢
      rw [beginDelivery] at hready ⊢
      cases hwire : delivery.wire with
      | none => rfl
      | some wire =>
          rw [hwire] at hready
          dsimp only at hready ⊢
          split at hready
          · next hroom =>
              rw [if_pos hroom, attemptPublish]
              rw [attemptPublish] at hready
              cases hending : publish.ending with
              | bufferError =>
                  rw [hending] at hready
                  cases hready
              | returns =>
                  rw [hending] at hready
                  exact runCallbacks_disconnectRequested publish.callbacks hready
              | raises =>
                  rw [hending] at hready
                  exact runCallbacks_disconnectRequested publish.callbacks hready
          · cases hready

/-! ## Runs -/

/-- A step that leaves the owner ready asks for no disconnect. -/
theorem disconnectRequested_step {input : IngestInput} (hstep : (ingestSystem limits).step s input s')
    (hready : s'.ready = true) : s'.disconnectRequested = s.disconnectRequested := by
  cases input with
  | reconnect =>
      cases hstep
      rfl
  | callback deliveryId success =>
      cases hstep
      exact completeDelivery_disconnectRequested deliveryId success hready
  | ingest token isHistoricEventTopic ingress deliveryId publish =>
      obtain ⟨-, rfl⟩ := hstep
      exact ingestQos1_disconnectRequested token isHistoricEventTopic ingress deliveryId publish hready

/-- An undisturbed owner is ready, and its counters are those of its pending deliveries. -/
structure Undisturbed (limits : PendingLimits) (s : IngestionOwner) : Prop where
  reportsReady : s.reportsReady = true
  disconnectRequested : s.disconnectRequested = false
  accounted : Accounted limits s

theorem undisturbed_step {input : IngestInput} (h : Undisturbed limits s) (hnot : ¬ Disturbs limits s input)
    (hstep : (ingestSystem limits).step s input s') : Undisturbed limits s' := by
  have hready := (reportsReady_step hstep).mpr ⟨h.reportsReady, hnot⟩
  refine ⟨hready, ?_, ?_⟩
  · rw [IngestionOwner.reportsReady, Bool.and_eq_true] at hready
    rw [disconnectRequested_step hstep hready.1, h.disconnectRequested]
  · cases input with
    | reconnect =>
        cases hstep
        exact h.accounted.congr rfl rfl rfl
    | callback deliveryId success =>
        cases hstep
        exact accounted_completeDelivery h.accounted deliveryId success
    | ingest token isHistoricEventTopic ingress deliveryId publish =>
        obtain ⟨hnew, rfl⟩ := hstep
        refine accounted_ingestQos1 h.accounted fun hqos hgeneration htopic delivery hdeliver => ?_
        subst hdeliver
        refine accounted_beginDelivery h.accounted hnew (fun wire hwire hbuffer => ?_) token
        exact absurd ⟨hqos, hgeneration, htopic, wire, hwire, .inr (.inl hbuffer)⟩ hnot

/-- With nothing pending, an owner that is ready and accounted admits what fits. -/
theorem Undisturbed.recovers (h : Undisturbed limits s) (hempty : s.pending.entries = []) : Recovers limits s := by
  intro packetId wire target dlqReason deliveryId hrecordLimit hbyteLimit
  have hready := h.reportsReady
  rw [IngestionOwner.reportsReady, Bool.and_eq_true, Bool.not_eq_true'] at hready
  have hrecords : s.pendingRecords = 0 := by rw [h.accounted.records, hempty]; rfl
  have hbytes : s.pendingBytes = 0 := by rw [h.accounted.bytes, Dict.weight, hempty]; rfl
  have hroom : hasRoom limits s.onReconnect wire.length = true := by
    rw [hasRoom, Bool.and_eq_true, decide_eq_true_iff, decide_eq_true_iff]
    show s.pendingRecords + 1 ≤ _ ∧ s.pendingBytes + _ ≤ _
    rw [hrecords, hbytes]
    exact ⟨by omega, by omega⟩
  have hafter : (ingestQos1 limits s.onReconnect ⟨s.onReconnect.connectionGeneration, packetId, 1⟩ true
      (.deliver ⟨some wire, target, dlqReason⟩) deliveryId ⟨[], .returns⟩).1 =
        s.onReconnect.reserve deliveryId
          ⟨⟨s.onReconnect.connectionGeneration, packetId, 1⟩, wire.length, target, dlqReason⟩ := by
    have hhalted : s.onReconnect.halted = false := hready.2
    have hready' : s.onReconnect.ready = true := hready.1
    simp [ingestQos1, hhalted, hready', beginDelivery, hroom, attemptPublish, runCallbacks]
  rw [hafter]
  refine ⟨?_, h.reportsReady, h.disconnectRequested⟩
  exact congrArg Option.isSome (Dict.get?_update_self _ _ _ _)

/-- An owner whose run was not disturbed recovers, once nothing is pending. -/
theorem undisturbed_recovers {limits : PendingLimits} {s : IngestionOwner}
    (h : ((ingestSystem limits).restrict fun s input => ¬ Disturbs limits s input).Reachable s)
    (hempty : s.pending.entries = []) : Recovers limits s := by
  intro packetId wire target dlqReason deliveryId hrecordLimit hbyteLimit
  have hundisturbed : Undisturbed limits s := by
    refine System.invariant ?_ ?_ h
    · rintro s rfl
      exact ⟨rfl, rfl, ⟨rfl, rfl, le_trans (by decide) hrecordLimit, le_trans (Int.natCast_nonneg _) hbyteLimit⟩⟩
    · rintro s input s' _ hs ⟨hnot, hstep⟩
      exact undisturbed_step hs hnot hstep
  exact hundisturbed.recovers hempty packetId wire target dlqReason deliveryId hrecordLimit hbyteLimit

/-- An owner that has been disturbed never recovers, whatever follows. -/
theorem disturbed_for_good {input : IngestInput} (hrecordLimit : 1 ≤ limits.recordLimit) (hbyteLimit : 0 ≤ limits.byteLimit)
    (hdisturbs : Disturbs limits s input) (hstep : (ingestSystem limits).step s input s') {t : IngestionOwner}
    (h : ({ ingestSystem limits with init := (· = s') } : System IngestionOwner IngestInput).Reachable t) :
    ¬ Recovers limits t := by
  have hunready : t.reportsReady = false := by
    refine System.invariant (I := fun t => t.reportsReady = false) ?_ ?_ h
    · rintro _ rfl
      exact Bool.eq_false_iff.mpr fun hready => ((reportsReady_step hstep).mp hready).2 hdisturbs
    · intro before input after _ hbefore hlater
      refine Bool.eq_false_iff.mpr fun hready => ?_
      have hstep' : (ingestSystem limits).step before input after := hlater
      rw [((reportsReady_step hstep').mp hready).1] at hbefore
      cases hbefore
  intro hrecovers
  obtain ⟨-, hready, -⟩ := hrecovers 0 [] .historic none 0 hrecordLimit hbyteLimit
  rw [IngestionOwner.reportsReady, Bool.and_eq_true, Bool.not_eq_true'] at hready
  obtain ⟨hready', hhalted⟩ := ((ingestQos1_flags _ _ _ _ _).mp hready).1
  have hafter : t.reportsReady = true := by
    rw [IngestionOwner.reportsReady, Bool.and_eq_true, Bool.not_eq_true']
    exact ⟨hready', hhalted⟩
  rw [hunready] at hafter
  cases hafter

/-- A message is delivered, and after a reconnect the next is admitted. -/
theorem delivered_recovers :
    Recovers defaultLimits ((ingestQos1 defaultLimits .start ⟨1, 7, 1⟩ true (.deliver ⟨some [123], .historic, none⟩) 1
      ⟨[], .returns⟩).1.completeDelivery 1 true) := by
  refine undisturbed_recovers (.step (i := .callback 1 true) (.step (i := .ingest ⟨1, 7, 1⟩ true
    (.deliver ⟨some [123], .historic, none⟩) 1 ⟨[], .returns⟩) (.init rfl) ⟨?_, rfl, rfl⟩) ⟨?_, rfl⟩) rfl
  · rintro ⟨-, -, -, wire, hwire, hdisturbs⟩
    cases hwire
    rcases hdisturbs with hfull | hbuffer | hfail
    · cases hfull
    · cases hbuffer
    · exact hfail
  · rintro (⟨hfailed, -⟩ | hfail)
    · cases hfailed
    · exact hfail

/-- A delivery fails, and nothing is admitted after a reconnect. -/
theorem failed_delivery_never_recovers :
    ¬ ∀ s, (ingestSystem defaultLimits).Reachable s → s.pending.entries = [] → Recovers defaultLimits s := by
  intro h
  obtain ⟨-, hready, -⟩ := h _ (.step (i := .callback 1 false) (.step (i := .ingest ⟨1, 7, 1⟩ true
    (.deliver ⟨some [123], .historic, none⟩) 1 ⟨[], .returns⟩) (.init rfl) ⟨rfl, rfl⟩) rfl) rfl 8 [123] .historic none 2
    (by decide) (by decide)
  cases hready

end Uns.Kafka
