/-
# `Datalake.Mapper` — the archival loop

`mapper.py`: messages are decoded, routed and buffered per partition; a full
buffer is frozen into route groups; each group is encoded, published and
verified; the partition's offset is committed once its prefix is resolved.
Undecodable messages go to the DLQ.

The program is an `Eff` on `Mapper`, with the source's statements in the source's
order.  What it does not decide is in `Env`: the clocks, the ids, the answers of
the store, the DLQ and the broker, and the Parquet encoder.  Each reading takes
the next tick, so an `Env` is an arbitrary sequence of answers, and what holds for
every `Env` holds under any pattern of failures.

Three fields are not the program's: `ticks`, the number of readings; `paused`,
what the consumer was last told; and `trace`, what the program did, newest first.
No function reads the trace.
-/
import UnifiedNamespace.Lib.Effect
import UnifiedNamespace.Datalake.Checkpoint
import UnifiedNamespace.Datalake.Batch
import UnifiedNamespace.Kafka.Rejections

namespace Uns

open Py Lib

structure PendingRejection where
  kafkaTopic : Str
  partition : Nat
  offset : Nat
  payload : Bytes
  reason : Str

def PendingRejection.partitionKey (r : PendingRejection) : PartitionKey := (r.kafkaTopic, r.partition)

def PendingRejection.coord (r : PendingRejection) : Coord := (r.partitionKey, r.offset)

/-- A consumed message; `value` is `None` for a tombstone. -/
structure Message where
  topic : Str
  partition : Nat
  offset : Nat
  value : Option Bytes

def Message.partitionKey (m : Message) : PartitionKey := (m.topic, m.partition)

def Message.coord (m : Message) : Coord := (m.partitionKey, m.offset)

/-- `message.value() or b""`. -/
def Message.payload (m : Message) : Bytes := m.value.getD []

/-- What `consumer.poll` returns. -/
inductive Poll where
  | none
  | message (m : Message)
  | partitionEof
  | offsetOutOfRange
  | error

structure FrozenObject where
  key : Str
  data : Bytes
  sha256 : Str
  rowCount : Nat

def FrozenObject.fromBytes (key : Str) (data : Bytes) (rowCount : Nat) : FrozenObject :=
  ⟨key, data, sha256Hex data, rowCount⟩

/-- A store call returns, raises `IntegrityError` or raises anything else. -/
inductive StoreAnswer where
  | accepted
  | integrityError
  | failed
  deriving DecidableEq

/-- The configuration and what the mapper cannot decide: answer `n` is given at tick `n`. -/
structure Env (lim : Limits) where
  limits : FlushLimits
  legacyMap : Option (LegacyRouteMap lim)
  uploadMaxAttempts : Nat
  recordsToParquet : List LakeRecord → Str → Option Bytes
  monotonic : Nat → PartitionKey → ℚ
  now : Nat → Datetime
  newFlushId : Nat → Str
  newObjectId : Nat → Nat → Str
  publishExact : Nat → StoreAnswer
  verifyExact : Nat → StoreAnswer
  dlqPublish : Nat → Bool
  commit : Nat → CommitAnswer

inductive Event where
  | assigned
  | handed (m : Message)
  | buffered (r : LakeRecord)
  | resolved (c : Coord)
  | published (object : FrozenObject) (answer : StoreAnswer)
  | verified (object : FrozenObject) (answer : StoreAnswer)
  | dlqPublished (r : PendingRejection) (delivered : Bool)
  | committed (key : PartitionKey) (offset : Nat) (answer : CommitAnswer)
  | froze (key : PartitionKey)
  | thawed (key : PartitionKey)

structure Mapper where
  batch : BatchManager
  ownedPartitions : Finset PartitionKey
  revoked : Bool
  ownershipActive : Bool
  generation : Nat
  consumedPrefixes : PartitionKey → ConsumedPrefix
  frozenFlush : Option FrozenPartitionFlush
  frozenGeneration : Nat
  groupIndex : Nat
  frozenObject : Option FrozenObject
  pendingCommitOffset : Option Nat
  pendingRejections : List PendingRejection
  uploadAttempts : Nat
  commitAttempts : Nat
  ticks : Nat
  paused : Bool
  trace : List Event

/-- What comes out of a call besides its result. -/
inductive MapperRaised where
  | ownershipLost
  | ledger (e : PrefixError)
  | escaped (e : Raised)
  | commitRaised
  | encodeRaised
  | oversize
  deriving DecidableEq

abbrev Action := Eff Mapper MapperRaised

variable {lim : Limits}

/-- A mapper before its first assignment. -/
def Mapper.start (env : Env lim) : Mapper where
  batch := .empty env.limits
  ownedPartitions := ∅
  revoked := false
  ownershipActive := false
  generation := 0
  consumedPrefixes := fun _ => .empty
  frozenFlush := none
  frozenGeneration := 0
  groupIndex := 0
  frozenObject := none
  pendingCommitOffset := none
  pendingRejections := []
  uploadAttempts := 0
  commitAttempts := 0
  ticks := 0
  paused := false
  trace := []

open Eff (state change raise)

/-- The number of the next reading. -/
def tick : Action Nat := do
  let m ← state
  change fun m => { m with ticks := m.ticks + 1 }
  pure m.ticks

def log (e : Event) : Action Unit := change fun m => { m with trace := e :: m.trace }

/-! ## Ledgers -/

def Mapper.setPrefix (m : Mapper) (key : PartitionKey) (p : ConsumedPrefix) : Mapper :=
  { m with consumedPrefixes := Function.update m.consumedPrefixes key p }

@[simp] theorem Mapper.setPrefix_self (m : Mapper) (key : PartitionKey) (p : ConsumedPrefix) :
    (m.setPrefix key p).consumedPrefixes key = p := Function.update_self _ _ _

theorem Mapper.setPrefix_ne (m : Mapper) {key k : PartitionKey} (p : ConsumedPrefix) (h : k ≠ key) :
    (m.setPrefix key p).consumedPrefixes k = m.consumedPrefixes k := Function.update_of_ne h _ _

/-- A ledger operation on `_prefix(key)`. -/
def onPrefix (key : PartitionKey) (f : ConsumedPrefix → Except PrefixError ConsumedPrefix) :
    Action Unit := do
  let m ← state
  match f (m.consumedPrefixes key) with
  | .error e => raise (.ledger e)
  | .ok p => change fun m => m.setPrefix key p

def observe (key : PartitionKey) (offset : Nat) : Action Unit := onPrefix key (·.observe offset)

def resolve (key : PartitionKey) (offset : Nat) : Action Unit := do
  onPrefix key (·.resolve offset)
  log (.resolved (key, offset))

def discardCommitted (key : PartitionKey) (nextOffset : Nat) : Action Unit :=
  onPrefix key (·.discardCommitted nextOffset)

/-! ## Commits -/

/-- `consumer.commit` of one partition. -/
def consumerCommit (env : Env lim) (key : PartitionKey) (nextOffset : Nat) : Action CommitAnswer := do
  let n ← tick
  log (.committed key nextOffset (env.commit n))
  pure (env.commit n)

def commitPartition (env : Env lim) (key : PartitionKey) (nextOffset : Nat) : Action Bool := do
  let m ← state
  if mayCommitKafka m.ownershipActive m.revoked = false then pure false
  else do
    match ← consumerCommit env key nextOffset with
    | .raised => raise .commitRaised
    | .returned result =>
        if inspectCommitResult result ≠ [] then pure false
        else do
          discardCommitted key nextOffset
          pure true

def tryCommitReadyPrefix (env : Env lim) (key : PartitionKey) : Action Bool := do
  let m ← state
  if m.frozenFlush.isSome then pure true
  else
    match (m.consumedPrefixes key).nextOffset with
    | none => pure true
    | some nextOffset =>
        if mayCommitKafka m.ownershipActive m.revoked = false then pure false
        else commitPartition env key nextOffset

/-! ## Rejections -/

def rejectionRecord (r : PendingRejection) (now : Datetime) : RejectionRecord where
  stage := lit "datalake"
  origin := lit "uns_datalake"
  reason := r.reason
  capturedAt := now
  topic := r.kafkaTopic
  originalBytes := captured r.payload
  eventId := none
  bounded := length_captured r.payload

def rejectionBlocked (m : Mapper) (r : PendingRejection) : Bool :=
  (m.consumedPrefixes r.partitionKey).hasUnresolvedBefore r.offset ||
    (m.batch.buffer r.partitionKey).records.any fun record => record.offset < r.offset

/-- Whatever the encoder or the publisher raises is caught. -/
def publishRejection (env : Env lim) (r : PendingRejection) : Action Bool := do
  let n ← tick
  match utf8Encode r.kafkaTopic, encodeRejection lim (rejectionRecord r (env.now n)) with
  | some _, .ok _ => do
      log (.dlqPublished r (env.dlqPublish n))
      pure (env.dlqPublish n)
  | _, _ => pure false

/-- One turn of the loop; the result says whether the rejection remains. -/
def advanceRejection (env : Env lim) (r : PendingRejection) : Action Bool := do
  let m ← state
  if rejectionBlocked m r then pure true
  else if !(← publishRejection env r) then pure true
  else do
    resolve r.partitionKey r.offset
    let committed ← tryCommitReadyPrefix env r.partitionKey
    pure (!committed)

def advanceRejections (env : Env lim) : List PendingRejection → Action (List PendingRejection)
  | [] => pure []
  | r :: rs => do
      let remains ← advanceRejection env r
      let remaining ← advanceRejections env rs
      pure (if remains then r :: remaining else remaining)

def tryAdvanceRejections (env : Env lim) : Action Bool := do
  let m ← state
  let remaining ← advanceRejections env m.pendingRejections
  change fun m => { m with pendingRejections := remaining }
  pure true

/-! ## Freezing -/

def isArchiveEligible (e : HistoricEventEnvelope) : Bool :=
  if eqInt e.schemaVersion 2 then decide (e.archiveEligible ≠ some false) else true

/-- `prefix.resolve(record.offset)` for each record. -/
def resolveRecords (key : PartitionKey) : List LakeRecord → Action Unit
  | [] => pure ()
  | r :: rs => do
      resolve key r.offset
      resolveRecords key rs

/-- `pause` or `resume` of the owned partitions, when there are some. -/
def setPaused (paused : Bool) : Action Unit :=
  change fun m => { m with paused := if m.ownedPartitions = ∅ then m.paused else paused }

def Mapper.freeze (m : Mapper) (flush : FrozenPartitionFlush) : Mapper :=
  { m with
    frozenFlush := some flush
    frozenGeneration := m.generation
    groupIndex := 0
    frozenObject := none
    pendingCommitOffset := none
    uploadAttempts := 0
    commitAttempts := 0 }

def freezePartition (env : Env lim) (key : PartitionKey) (records : List LakeRecord) :
    Action Unit := do
  resolveRecords key (records.filter fun r => !isArchiveEligible r.envelope)
  let n ← tick
  let flush := freezePartitionRecords key (records.filter fun r => isArchiveEligible r.envelope)
    (env.newFlushId n) (env.newObjectId n)
  change fun m => m.freeze flush
  log (.froze key)
  setPaused true
  let m ← state
  if flush.routeGroups = [] then
    change fun t => { t with pendingCommitOffset := (m.consumedPrefixes key).nextOffset }
  else pure ()

/-- Pop the partition and freeze what it held. -/
def flushPartition (env : Env lim) (key : PartitionKey) : Action Bool := do
  let m ← state
  let popped := m.batch.popPartition key
  change fun m => { m with batch := popped.2 }
  if popped.1.isEmpty then pure false
  else do
    freezePartition env key popped.1.records
    pure true

/-- The loop of `_flush_ready_partitions` without a forced partition.  It goes round once: a chosen
partition is never empty (`not_isEmpty_of_choose`). -/
def flushChosen (env : Env lim) : Action Unit := do
  let n ← tick
  let m ← state
  match m.batch.chooseFlushPartition (env.monotonic n) with
  | none => pure ()
  | some key => do
      let _ ← flushPartition env key
      pure ()

def flushReadyPartitions (env : Env lim) : Option PartitionKey → Action Unit
  | none => flushChosen env
  | some key => do
      if ← flushPartition env key then pure () else flushChosen env

/-! ## The frozen flush -/

def Mapper.thaw (m : Mapper) : Mapper :=
  { m with
    frozenFlush := none
    groupIndex := 0
    frozenObject := none
    pendingCommitOffset := none
    uploadAttempts := 0
    commitAttempts := 0 }

def completeCommit (env : Env lim) (key : PartitionKey) (nextOffset : Nat) : Action Bool := do
  let m ← state
  if mayCommitKafka m.ownershipActive m.revoked = false then raise .ownershipLost
  else if m.frozenGeneration ≠ m.generation then raise .ownershipLost
  else do
    match ← consumerCommit env key nextOffset with
    | .raised => raise .commitRaised
    | .returned result =>
        if inspectCommitResult result ≠ [] then do
          change fun m => { m with commitAttempts := m.commitAttempts + 1 }
          pure true
        else do
          discardCommitted key nextOffset
          change fun m => m.thaw
          log (.thawed key)
          setPaused false
          tryAdvanceRejections env

/-- All groups are published: commit, when the prefix allows it. -/
def commitResolved (env : Env lim) (key : PartitionKey) : Action Bool := do
  let m ← state
  match (m.consumedPrefixes key).nextOffset with
  | none => pure true
  | some nextOffset => do
      change fun m => { m with pendingCommitOffset := some nextOffset }
      completeCommit env key nextOffset

/-- The encoded object, from an earlier attempt or encoded now. -/
def encodeGroup (env : Env lim) (flush : FrozenPartitionFlush) (group : FrozenRouteGroup) :
    Action FrozenObject := do
  let m ← state
  match m.frozenObject with
  | some object => pure object
  | none =>
      match env.recordsToParquet group.records flush.flushId with
      | none => raise .encodeRaised
      | some data => do
          let object := FrozenObject.fromBytes group.objectPath data group.records.length
          change fun m => { m with frozenObject := some object }
          pure object

/-- `publish_exact`, then `verify_exact`. -/
def storeExact (env : Env lim) (object : FrozenObject) : Action StoreAnswer := do
  let n ← tick
  log (.published object (env.publishExact n))
  match env.publishExact n with
  | .accepted => do
      let k ← tick
      log (.verified object (env.verifyExact k))
      pure (env.verifyExact k)
  | answer => pure answer

/-- The state at the next group. -/
def Mapper.nextGroup (m : Mapper) : Mapper :=
  { m with frozenObject := none, uploadAttempts := 0, groupIndex := m.groupIndex + 1 }

/-- The group is stored: resolve its records, and commit after the last group. -/
def settleGroup (env : Env lim) (flush : FrozenPartitionFlush) (group : FrozenRouteGroup) :
    Action Bool := do
  resolveRecords flush.partitionKey group.records
  change fun m => m.nextGroup
  let m ← state
  if flush.routeGroups.length ≤ m.groupIndex then commitResolved env flush.partitionKey
  else pure true

def publishGroup (env : Env lim) (flush : FrozenPartitionFlush) (group : FrozenRouteGroup) :
    Action Bool := do
  let object ← encodeGroup env flush group
  match ← storeExact env object with
  | .integrityError => pure false
  | .failed => do
      change fun m => { m with uploadAttempts := m.uploadAttempts + 1 }
      let m ← state
      pure (decide (m.uploadAttempts < env.uploadMaxAttempts))
  | .accepted => settleGroup env flush group

def advanceFrozenFlush (env : Env lim) (flush : FrozenPartitionFlush) : Action Bool := do
  let m ← state
  if m.frozenGeneration ≠ m.generation ∨ m.revoked = true then raise .ownershipLost
  else
    match m.pendingCommitOffset with
    | some nextOffset => completeCommit env flush.partitionKey nextOffset
    | none =>
        match flush.routeGroups[m.groupIndex]? with
        | none => commitResolved env flush.partitionKey
        | some group => publishGroup env flush group

/-! ## Messages -/

/-- What a payload is to the mapper. -/
inductive Classified where
  | rejected (reason : Str)
  | escapes (e : Raised)
  | ineligible
  | eligible (resolved : ResolvedLakeEvent)

def classify (env : Env lim) (payload : Bytes) : Classified :=
  match decodeEvent lim payload with
  | .error (.envelope e) => .rejected e.reason
  | .error e => .escapes e
  | .ok envelope =>
      match resolveLakeEvent envelope env.legacyMap with
      | .error (.envelope e) => .rejected e.reason
      | .error e => .escapes e
      | .ok resolved => if isArchiveEligible envelope then .eligible resolved else .ineligible

def Message.rejection (msg : Message) (reason : Str) : PendingRejection :=
  ⟨msg.topic, msg.partition, msg.offset, msg.payload, reason⟩

def Message.record (msg : Message) (resolved : ResolvedLakeEvent) : LakeRecord :=
  ⟨msg.topic, msg.partition, msg.offset, resolved, msg.payload⟩

def rejectMessage (env : Env lim) (msg : Message) (reason : Str) : Action Bool := do
  change fun m => { m with pendingRejections := m.pendingRejections ++ [msg.rejection reason] }
  tryAdvanceRejections env

/-- `batch.try_add(record)`; `none` is its `ValueError`. -/
def tryAdd (env : Env lim) (r : LakeRecord) : Action (Option Bool) := do
  let n ← tick
  let m ← state
  match m.batch.tryAdd (env.monotonic n r.partitionKey) r with
  | none => pure none
  | some (false, _) => pure (some false)
  | some (true, batch) => do
      change fun m => { m with batch := batch }
      log (.buffered r)
      pure (some true)

/-- The end of `_handle_message`, after the record was buffered. -/
def afterBuffered (env : Env lim) : Action Bool := do
  flushReadyPartitions env none
  tryAdvanceRejections env

def admitRecord (env : Env lim) (msg : Message) (r : LakeRecord) : Action Bool := do
  match ← tryAdd env r with
  | none => rejectMessage env msg (lit "oversize")
  | some true => afterBuffered env
  | some false => do
      flushReadyPartitions env (some r.partitionKey)
      match ← tryAdd env r with
      | none => raise .oversize
      | some false => pure false
      | some true => afterBuffered env

/-- `_handle_message` once the offset is observed. -/
def handlePayload (env : Env lim) (msg : Message) : Action Bool :=
  match classify env msg.payload with
  | .rejected reason => rejectMessage env msg reason
  | .escapes e => raise (.escaped e)
  | .ineligible => do
      resolve msg.partitionKey msg.offset
      tryCommitReadyPrefix env msg.partitionKey
  | .eligible resolved => admitRecord env msg (msg.record resolved)

def handleMessage (env : Env lim) (msg : Message) : Action Bool := do
  log (.handed msg)
  observe msg.partitionKey msg.offset
  handlePayload env msg

/-- The state in which an observed message's payload is handled. -/
def Mapper.handed (m : Mapper) (msg : Message) (p : ConsumedPrefix) : Mapper :=
  { m with trace := .handed msg :: m.trace }.setPrefix msg.partitionKey p

theorem handleMessage_of_observe (env : Env lim) {m : Mapper} {msg : Message} {p : ConsumedPrefix}
    (hp : (m.consumedPrefixes msg.partitionKey).observe msg.offset = .ok p) :
    handleMessage env msg m = handlePayload env msg (m.handed msg p) := by
  have hobserve : Uns.observe msg.partitionKey msg.offset { m with trace := .handed msg :: m.trace } =
      (.ok (), m.handed msg p) := by
    unfold Uns.observe onPrefix
    simp only [Eff.bind_apply, Eff.state, hp]
    rfl
  exact Eff.bind_of_ok hobserve _

/-! ## The loop -/

/-- `run_once` up to the poll; a result when it returns before. -/
def untilPoll (env : Env lim) : Action (Option Bool) := do
  let m ← state
  match m.frozenFlush with
  | some flush => do
      let result ← advanceFrozenFlush env flush
      pure (some result)
  | none => do
      flushReadyPartitions env none
      if !(← tryAdvanceRejections env) then pure (some false)
      else do
        let m ← state
        pure (if m.frozenFlush.isSome then some true else none)

def onPoll (env : Env lim) : Poll → Action Bool
  | .none => pure true
  | .partitionEof => pure true
  | .offsetOutOfRange => pure false
  | .error => pure false
  | .message msg => handleMessage env msg

def runOnce (env : Env lim) (poll : Poll) : Action Bool := do
  match ← untilPoll env with
  | some result => pure result
  | none => onPoll env poll

/-! ## Rebalances -/

/-- `on_assign`; the assigned partitions start unpaused. -/
def onAssign (partitions : Finset PartitionKey) (m : Mapper) : Mapper :=
  { m with
    generation := m.generation + 1
    revoked := false
    ownershipActive := true
    ownedPartitions := partitions
    consumedPrefixes := fun _ => .empty
    paused := false
    trace := .assigned :: m.trace }

def onRevoke (partitions : Finset PartitionKey) : Action Unit := do
  change fun m =>
    { m with
      ownedPartitions := m.ownedPartitions \ partitions
      ownershipActive := m.ownershipActive && decide (m.ownedPartitions \ partitions ≠ ∅)
      revoked := true }
  change fun m => m.thaw
  setPaused false
  let m ← state
  if 0 < m.batch.totalBufferedBytes ∨ m.pendingRejections ≠ [] then raise .ownershipLost
  else pure ()

theorem decodeEvent_nil (lim : Limits) :
    decodeEvent lim [] = .error (envelopeError "invalid_json" "") := by
  have hd : utf8Decode [] = some [] := utf8Decode_encode (s := []) rfl
  have hp : parseObject lim [] = .error (envelopeError "invalid_json" "") := by
    rw [parseObject, hd]
    rfl
  rw [decodeEvent, hp]
  rfl

/-- An empty payload is rejected. -/
theorem classify_nil (env : Env lim) : classify env [] = .rejected (lit "invalid_json") := by
  rw [classify, decodeEvent_nil]
  rfl

/-- What is buffered is eligible. -/
theorem isArchiveEligible_of_classify {env : Env lim} {payload : Bytes}
    {resolved : ResolvedLakeEvent} (h : classify env payload = .eligible resolved) :
    isArchiveEligible resolved.envelope = true := by
  unfold classify at h
  split at h
  · cases h
  · cases h
  · split at h
    · cases h
    · cases h
    · rename_i hres
      split at h
      · rename_i he
        cases h
        rw [envelope_resolveLakeEvent hres]
        exact he
      · cases h

/-- A chosen partition has records, so `_flush_ready_partitions` does not loop on it. -/
theorem not_isEmpty_of_choose {b : BatchManager} {monotonic : PartitionKey → ℚ} {key : PartitionKey}
    (h : b.chooseFlushPartition monotonic = some key) : (b.buffer key).isEmpty = false := by
  have hentry : ∀ e ∈ b.buffers.entries, e.2.isEmpty = false → e.1 = key →
      (b.buffer key).isEmpty = false := by
    intro e he hne hk
    rw [BatchManager.buffer, ← hk, Dict.get?_of_mem he]
    exact hne
  unfold BatchManager.chooseFlushPartition at h
  split at h
  · unfold BatchManager.partitionNeedingPressureFlush at h
    split at h
    · cases h
    · obtain ⟨e, he, hk⟩ := Option.map_eq_some_iff.mp h
      obtain ⟨hmem, hne⟩ := List.mem_filter.mp (mem_firstMin he)
      exact hentry e hmem (by simpa using hne) hk
  · obtain ⟨e, he, hk⟩ := List.mem_map.mp (mem_firstMin h)
    obtain ⟨hmem, hflush⟩ := List.mem_filter.mp he
    simp only [BatchManager.shouldFlush, Bool.and_eq_true, Bool.not_eq_eq_eq_not, Bool.not_true]
      at hflush
    exact hentry e hmem hflush.1 hk

end Uns
