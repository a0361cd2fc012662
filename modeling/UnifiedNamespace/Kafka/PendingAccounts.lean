/-
# `Kafka.PendingAccounts` — what is pending is what is counted

The counters of the pending records and bytes are those of the pending deliveries, within
the limits, over every run in which a `BufferError` comes before the callback of its own
delivery (`pending_accounted`).  A publish that fails with a `BufferError` restores them; one
that raises anything else leaves its delivery pending.
-/
import UnifiedNamespace.Kafka.Ingest

namespace Uns.Kafka

open Py Lib

/-! ## Accounts -/

/-- The counters are those of the pending deliveries, within the limits. -/
structure Accounted (limits : PendingLimits) (s : IngestionOwner) : Prop where
  records : s.pendingRecords = s.pending.entries.length
  bytes : s.pendingBytes = s.pending.weight fun _ pending => pending.byteSize
  recordLimit : s.pendingRecords ≤ limits.recordLimit
  byteLimit : s.pendingBytes ≤ limits.byteLimit

theorem Accounted.nonneg {limits : PendingLimits} {s : IngestionOwner} (h : Accounted limits s) :
    0 ≤ s.pendingRecords ∧ 0 ≤ s.pendingBytes := by
  rw [h.records, h.bytes]
  exact ⟨Int.natCast_nonneg _, Int.natCast_nonneg _⟩

variable {limits : PendingLimits} {s t : IngestionOwner} {deliveryId : DeliveryId} {pending : PendingDelivery}

/-- Only the counters and the pending deliveries matter. -/
theorem Accounted.congr (h : Accounted limits s) (hrecords : t.pendingRecords = s.pendingRecords)
    (hbytes : t.pendingBytes = s.pendingBytes) (hpending : t.pending = s.pending) : Accounted limits t where
  records := by rw [hrecords, hpending, h.records]
  bytes := by rw [hbytes, hpending, h.bytes]
  recordLimit := hrecords ▸ h.recordLimit
  byteLimit := hbytes ▸ h.byteLimit

theorem accounted_release (h : Accounted limits s) (hpending : s.pending.get? deliveryId = some pending) :
    Accounted limits (s.release deliveryId pending.byteSize) := by
  have hcount := s.pending.weight_erase_of_get? (w := fun _ _ => 1) hpending
  have hweight := s.pending.weight_erase_of_get? (w := fun _ pending => pending.byteSize) hpending
  rw [Dict.weight_one, Dict.weight_one] at hcount
  have hrecords := h.records
  have hbytes := h.bytes
  have hrecordLimit := h.recordLimit
  have hbyteLimit := h.byteLimit
  refine ⟨?_, ?_, ?_, ?_⟩
  · show s.pendingRecords - 1 = ((s.pending.erase deliveryId).entries.length : Int)
    omega
  · show s.pendingBytes - pending.byteSize = ((s.pending.erase deliveryId).weight fun _ pending => pending.byteSize : Int)
    omega
  · show s.pendingRecords - 1 ≤ limits.recordLimit
    omega
  · show s.pendingBytes - pending.byteSize ≤ limits.byteLimit
    omega

theorem accounted_completeDelivery (h : Accounted limits s) (deliveryId : DeliveryId) (success : Bool) :
    Accounted limits (s.completeDelivery deliveryId success) := by
  rw [IngestionOwner.completeDelivery]
  cases hpending : s.pending.get? deliveryId with
  | none => exact h
  | some pending =>
      have hreleased := accounted_release h hpending
      dsimp only
      split
      · exact hreleased.congr rfl rfl rfl
      · split
        · exact hreleased
        · exact hreleased.congr rfl rfl rfl

theorem accounted_runCallbacks (h : Accounted limits s) (callbacks : List (DeliveryId × Bool)) :
    Accounted limits (runCallbacks s callbacks) := by
  induction callbacks generalizing s with
  | nil => exact h
  | cons callback callbacks ih => exact ih (accounted_completeDelivery h _ _)

theorem accounted_reserve (h : Accounted limits s) (hnew : s.pending.get? deliveryId = none)
    (hroom : hasRoom limits s pending.byteSize = true) : Accounted limits (s.reserve deliveryId pending) := by
  have hentries := Dict.entries_update_of_none pending (fun _ => pending) hnew
  rw [hasRoom, Bool.and_eq_true, decide_eq_true_iff, decide_eq_true_iff] at hroom
  refine ⟨?_, ?_, hroom.1, hroom.2⟩
  · show s.pendingRecords + 1 = ((s.pending.update deliveryId pending fun _ => pending).entries.length : Int)
    rw [hentries, h.records, List.length_append]
    rfl
  · show s.pendingBytes + pending.byteSize =
      ((s.pending.update deliveryId pending fun _ => pending).weight fun _ pending => pending.byteSize : Int)
    rw [h.bytes, Dict.weight, Dict.weight, hentries, List.map_append, List.sum_append]
    simp

/-! ## A publish beside the callbacks it runs -/

/-- `t` is `s` with one more delivery. -/
structure Beside (deliveryId : DeliveryId) (pending : PendingDelivery) (s t : IngestionOwner) : Prop where
  records : t.pendingRecords = s.pendingRecords + 1
  bytes : t.pendingBytes = s.pendingBytes + pending.byteSize
  own : t.pending.get? deliveryId = some pending
  other : ∀ id, id ≠ deliveryId → t.pending.get? id = s.pending.get? id
  new : s.pending.get? deliveryId = none

/-- `t` has what `s` has. -/
structure Level (s t : IngestionOwner) : Prop where
  records : t.pendingRecords = s.pendingRecords
  bytes : t.pendingBytes = s.pendingBytes
  pending : ∀ id, t.pending.get? id = s.pending.get? id

theorem completeDelivery_of_none (h : s.pending.get? deliveryId = none) (success : Bool) :
    s.completeDelivery deliveryId success = s := by
  rw [IngestionOwner.completeDelivery, h]

theorem completeDelivery_of_some (h : s.pending.get? deliveryId = some pending) (success : Bool) :
    (s.completeDelivery deliveryId success).pendingRecords = s.pendingRecords - 1 ∧
      (s.completeDelivery deliveryId success).pendingBytes = s.pendingBytes - pending.byteSize ∧
      (s.completeDelivery deliveryId success).pending = s.pending.erase deliveryId := by
  rw [IngestionOwner.completeDelivery, h]
  dsimp only
  split
  · exact ⟨rfl, rfl, rfl⟩
  · split
    · exact ⟨rfl, rfl, rfl⟩
    · exact ⟨rfl, rfl, rfl⟩

theorem Level.completeDelivery (h : Level s t) (id : DeliveryId) (success : Bool) :
    Level (s.completeDelivery id success) (t.completeDelivery id success) := by
  cases hs : s.pending.get? id with
  | none =>
      rw [completeDelivery_of_none hs, completeDelivery_of_none ((h.pending id).trans hs)]
      exact h
  | some pending =>
      obtain ⟨hrecords, hbytes, hpending⟩ := completeDelivery_of_some hs success
      obtain ⟨hrecords', hbytes', hpending'⟩ := completeDelivery_of_some ((h.pending id).trans hs) success
      refine ⟨by rw [hrecords, hrecords', h.records], by rw [hbytes, hbytes', h.bytes], ?_⟩
      intro other
      rw [hpending, hpending']
      rcases eq_or_ne other id with rfl | hne
      · rw [Dict.get?_erase_self, Dict.get?_erase_self]
      · rw [Dict.get?_erase_ne _ hne, Dict.get?_erase_ne _ hne, h.pending other]

/-- The callback of another delivery completes it on both sides. -/
theorem Beside.completeDelivery (h : Beside deliveryId pending s t) {id : DeliveryId} (hne : id ≠ deliveryId)
    (success : Bool) :
    Beside deliveryId pending (s.completeDelivery id success) (t.completeDelivery id success) := by
  cases hs : s.pending.get? id with
  | none =>
      rw [completeDelivery_of_none hs, completeDelivery_of_none ((h.other id hne).trans hs)]
      exact h
  | some completed =>
      obtain ⟨hrecords, hbytes, hpending⟩ := completeDelivery_of_some hs success
      obtain ⟨hrecords', hbytes', hpending'⟩ := completeDelivery_of_some ((h.other id hne).trans hs) success
      have hrecord := h.records
      have hbyte := h.bytes
      refine ⟨by omega, by omega, ?_, ?_, ?_⟩
      · rw [hpending', Dict.get?_erase_ne _ hne.symm, h.own]
      · intro other hother
        rw [hpending, hpending']
        rcases eq_or_ne other id with rfl | hid
        · rw [Dict.get?_erase_self, Dict.get?_erase_self]
        · rw [Dict.get?_erase_ne _ hid, Dict.get?_erase_ne _ hid, h.other other hother]
      · rw [hpending, Dict.get?_erase_ne _ hne.symm, h.new]

/-- Its own callback takes the delivery away again. -/
theorem Beside.completeOwn (h : Beside deliveryId pending s t) (success : Bool) :
    Level (s.completeDelivery deliveryId success) (t.completeDelivery deliveryId success) := by
  obtain ⟨hrecords, hbytes, hpending⟩ := completeDelivery_of_some h.own success
  have hrecord := h.records
  have hbyte := h.bytes
  rw [completeDelivery_of_none h.new]
  refine ⟨by omega, by omega, ?_⟩
  intro id
  rw [hpending]
  rcases eq_or_ne id deliveryId with rfl | hne
  · rw [Dict.get?_erase_self, h.new]
  · rw [Dict.get?_erase_ne _ hne, h.other id hne]

theorem Level.runCallbacks (h : Level s t) (callbacks : List (DeliveryId × Bool)) :
    Level (Kafka.runCallbacks s callbacks) (Kafka.runCallbacks t callbacks) := by
  induction callbacks generalizing s t with
  | nil => exact h
  | cons callback callbacks ih => exact ih (h.completeDelivery _ _)

theorem Beside.runCallbacks (h : Beside deliveryId pending s t) {callbacks : List (DeliveryId × Bool)}
    (hnot : deliveryId ∉ callbacks.map Prod.fst) :
    Beside deliveryId pending (Kafka.runCallbacks s callbacks) (Kafka.runCallbacks t callbacks) := by
  induction callbacks generalizing s t with
  | nil => exact h
  | cons callback callbacks ih =>
      rw [List.map_cons, List.mem_cons, not_or] at hnot
      exact ih (h.completeDelivery (Ne.symm hnot.1) _) hnot.2

theorem Beside.runOwn (h : Beside deliveryId pending s t) {callbacks : List (DeliveryId × Bool)}
    (hmem : deliveryId ∈ callbacks.map Prod.fst) :
    Level (Kafka.runCallbacks s callbacks) (Kafka.runCallbacks t callbacks) := by
  induction callbacks generalizing s t with
  | nil => cases hmem
  | cons callback callbacks ih =>
      rcases eq_or_ne callback.1 deliveryId with rfl | hne
      · exact (h.completeOwn callback.2).runCallbacks callbacks
      · rw [List.map_cons] at hmem
        exact ih (h.completeDelivery hne _) (List.mem_of_ne_of_mem hne.symm hmem)

theorem beside_reserve (hnew : s.pending.get? deliveryId = none) (pending : PendingDelivery) :
    Beside deliveryId pending s (s.reserve deliveryId pending) where
  records := rfl
  bytes := rfl
  own := Dict.get?_update_self _ _ _ _
  other _ hne := Dict.get?_update_ne _ _ _ hne
  new := hnew

/-! ## Failed publishes -/

/-- A `BufferError` comes before the callback of its own delivery. -/
def Publish.BufferErrorFirst (publish : Publish) (deliveryId : DeliveryId) : Prop :=
  publish.ending = .bufferError → deliveryId ∉ publish.callbacks.map Prod.fst

/-- The counters are what they were. -/
def Restored (before after : IngestionOwner) : Prop :=
  after.pendingRecords = before.pendingRecords ∧ after.pendingBytes = before.pendingBytes

variable {publish : Publish}

theorem accounted_attemptPublish (h : Accounted limits s) (hnew : s.pending.get? deliveryId = none)
    (hroom : hasRoom limits s pending.byteSize = true) (hfirst : publish.BufferErrorFirst deliveryId) :
    Accounted limits (attemptPublish (s.reserve deliveryId pending) deliveryId pending.byteSize publish).1 := by
  have hrun := accounted_runCallbacks (accounted_reserve h hnew hroom) publish.callbacks
  rw [attemptPublish]
  cases hending : publish.ending with
  | returns => exact hrun
  | raises => exact hrun
  | bufferError =>
      have hbeside := (beside_reserve hnew pending).runCallbacks (hfirst hending)
      exact (accounted_release hrun hbeside.own).congr rfl rfl rfl

/-- A failed publish gives back what it reserved when it failed with a `BufferError`, or when its
callback has run. -/
theorem restored_attemptPublish (hnew : s.pending.get? deliveryId = none)
    (hfirst : publish.BufferErrorFirst deliveryId) (hfails : publish.ending ≠ .returns) :
    Restored (runCallbacks s publish.callbacks)
        (attemptPublish (s.reserve deliveryId pending) deliveryId pending.byteSize publish).1 ↔
      publish.ending = .bufferError ∨ deliveryId ∈ publish.callbacks.map Prod.fst := by
  rw [attemptPublish]
  cases hending : publish.ending with
  | returns => exact absurd hending hfails
  | bufferError =>
      have hbeside := (beside_reserve hnew pending).runCallbacks (hfirst hending)
      have hrecords := hbeside.records
      have hbytes := hbeside.bytes
      refine iff_of_true ⟨?_, ?_⟩ (.inl rfl)
      · show (runCallbacks (s.reserve deliveryId pending) publish.callbacks).pendingRecords - 1 = _
        omega
      · show (runCallbacks (s.reserve deliveryId pending) publish.callbacks).pendingBytes - pending.byteSize = _
        omega
  | raises =>
      refine Iff.trans ?_ (or_iff_right (by intro h; cases h)).symm
      by_cases hown : deliveryId ∈ publish.callbacks.map Prod.fst
      · have hlevel := (beside_reserve hnew pending).runOwn hown
        exact iff_of_true ⟨hlevel.records, hlevel.bytes⟩ hown
      · have hrecords := ((beside_reserve hnew pending).runCallbacks hown).records
        refine iff_of_false ?_ hown
        rintro ⟨hsame, -⟩
        dsimp only at hsame
        omega

/-! ## Runs -/

theorem accounted_beginDelivery (h : Accounted limits s) (hnew : s.pending.get? deliveryId = none)
    {delivery : Delivery} (hfirst : ∀ wire, delivery.wire = some wire → publish.BufferErrorFirst deliveryId)
    (token : ReceiptToken) : Accounted limits (beginDelivery limits s token delivery deliveryId publish).1 := by
  rw [beginDelivery]
  cases hwire : delivery.wire with
  | none => exact h
  | some wire =>
      dsimp only
      split
      · next hroom =>
          exact @accounted_attemptPublish _ _ _ ⟨token, wire.length, delivery.target, delivery.dlqReason⟩ _ h hnew hroom
            (hfirst wire hwire)
      · exact h.congr rfl rfl rfl

theorem accounted_ingestQos1 (h : Accounted limits s) {token : ReceiptToken} {isHistoricEventTopic : Bool}
    {ingress : Ingress}
    (hdeliver : token.qos = 1 → token.connectionGeneration = s.connectionGeneration → isHistoricEventTopic = true →
      ∀ delivery, ingress = .deliver delivery →
        Accounted limits (beginDelivery limits s token delivery deliveryId publish).1) :
    Accounted limits (ingestQos1 limits s token isHistoricEventTopic ingress deliveryId publish).1 := by
  unfold ingestQos1
  split
  · exact h
  split
  · exact h
  split
  · exact h
  split
  · exact h
  split
  · exact h.congr rfl rfl rfl
  next hqos hgeneration htopic _ _ =>
  cases ingress with
  | deliver delivery =>
      exact hdeliver (not_not.mp hqos) (not_not.mp hgeneration) (Bool.of_not_eq_false htopic) delivery rfl
  | unarchivable reason => exact h.congr rfl rfl rfl
  | raises => exact h
  | exclude =>
      show Accounted limits (s.releaseWithoutPublish token)
      rw [IngestionOwner.releaseWithoutPublish]
      split
      · exact h
      · exact h.congr rfl rfl rfl

def IngestInput.BufferErrorFirst : IngestInput → Prop
  | .ingest _ _ _ deliveryId publish => publish.BufferErrorFirst deliveryId
  | _ => True

theorem accounted_step {s' : IngestionOwner} {input : IngestInput} (h : Accounted limits s)
    (hfirst : input.BufferErrorFirst) (hstep : (ingestSystem limits).step s input s') : Accounted limits s' := by
  cases input with
  | ingest token isHistoricEventTopic ingress deliveryId publish =>
      obtain ⟨hnew, rfl⟩ := hstep
      exact accounted_ingestQos1 h fun _ _ _ _ _ => accounted_beginDelivery h hnew (fun _ _ => hfirst) token
  | callback deliveryId success =>
      cases hstep
      exact accounted_completeDelivery h deliveryId success
  | reconnect =>
      cases hstep
      exact h.congr rfl rfl rfl

/-- In a run whose `BufferError`s come first the counters are those of the pending deliveries, within
the limits, and a publish that fails next restores them exactly when it fails with a `BufferError`, or
after its own callback. -/
theorem pending_accounted {limits : PendingLimits} (hrecordLimit : 0 ≤ limits.recordLimit)
    (hbyteLimit : 0 ≤ limits.byteLimit) {s : IngestionOwner}
    (h : ((ingestSystem limits).restrict fun _ input => input.BufferErrorFirst).Reachable s) :
    Accounted limits s ∧ 0 ≤ s.pendingRecords ∧ 0 ≤ s.pendingBytes ∧
      ∀ deliveryId pending publish, s.pending.get? deliveryId = none → hasRoom limits s pending.byteSize = true →
        publish.BufferErrorFirst deliveryId → publish.ending ≠ .returns →
          (Restored (runCallbacks s publish.callbacks)
              (attemptPublish (s.reserve deliveryId pending) deliveryId pending.byteSize publish).1 ↔
            publish.ending = .bufferError ∨ deliveryId ∈ publish.callbacks.map Prod.fst) := by
  have haccounted : Accounted limits s := by
    refine System.invariant ?_ ?_ h
    · rintro s rfl
      exact ⟨rfl, rfl, hrecordLimit, hbyteLimit⟩
    · rintro s input s' _ hs ⟨hfirst, hstep⟩
      exact accounted_step hs hfirst hstep
  refine ⟨haccounted, haccounted.nonneg.1, haccounted.nonneg.2, ?_⟩
  intro deliveryId pending publish hnew _ hfirst hfails
  exact restored_attemptPublish hnew hfirst hfails

/-- The default limits. -/
def defaultLimits : PendingLimits := ⟨1000, 16777216⟩

/-- With the default limits a message is admitted, and a second one finds a full queue. -/
theorem pending_accounted_full_queue :
    Accounted defaultLimits
      (ingestQos1 defaultLimits (ingestQos1 defaultLimits .start ⟨1, 7, 1⟩ true (.deliver ⟨some [123], .historic, none⟩) 1
        ⟨[], .returns⟩).1 ⟨1, 8, 1⟩ true (.deliver ⟨some [123], .historic, none⟩) 2 ⟨[], .bufferError⟩).1 := by
  refine (pending_accounted (by decide) (by decide) (.step (i := .ingest ⟨1, 8, 1⟩ true (.deliver ⟨some [123], .historic,
    none⟩) 2 ⟨[], .bufferError⟩) (.step (i := .ingest ⟨1, 7, 1⟩ true (.deliver ⟨some [123], .historic, none⟩) 1
    ⟨[], .returns⟩) (.init rfl) ⟨fun h => (by cases h), rfl, rfl⟩) ⟨fun _ => List.not_mem_nil, rfl, rfl⟩)).1

/-- A produce call that refuses the message leaves its reservation. -/
theorem refused_message_not_restored :
    ¬ ∀ s, (ingestSystem defaultLimits).Reachable s → ∀ deliveryId pending publish, s.pending.get? deliveryId = none →
      hasRoom defaultLimits s pending.byteSize = true → publish.ending ≠ .returns →
        Restored (runCallbacks s publish.callbacks)
          (attemptPublish (s.reserve deliveryId pending) deliveryId pending.byteSize publish).1 := by
  intro h
  obtain ⟨hrecords, -⟩ := h .start (.init rfl) 1 ⟨⟨1, 7, 1⟩, 1, .historic, none⟩ ⟨[], .raises⟩ rfl rfl (by decide)
  revert hrecords
  decide

end Uns.Kafka
