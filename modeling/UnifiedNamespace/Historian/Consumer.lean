/-
# `Historian.Consumer` — the poll loop and its tasks

`kafka_consumer.py` and the collector of `batch.py`.  A poll thread asks the broker
for messages and leaves each to the event loop as a task of its own.  A task runs
until it awaits the database or the topic binder, and whatever else the loop and the
poll thread do happens there, so `Task` says where a task has stopped and what
follows, and `World.next` is one stretch between two stops.

A transaction is one step: it is committed, or rolled back, or committed without the
client being told.  What the environment decides comes with the move: the readings of
the clock, the answers of the database and of the broker, when the group is
rebalanced, when the process dies.  `World.requests` are commits that the broker was
sent and did not answer; it may apply them later.  The client revokes what it has
assigned before it assigns again, which is what the guard of `assign` says.

Two fields of `World` are for the statements only: the `history` of the process, and
the places `recorded` by committed transactions, handled or found below a checkpoint.
-/
import UnifiedNamespace.Config.EventCompatibility
import UnifiedNamespace.Historian.Checkpoints
import UnifiedNamespace.Historian.Replay

namespace Uns.Historian

open Py Lib

/-! ## The collector -/

/-- The bounds of a batch; the one on metric rows is `Setting.maxMetricRows`. -/
structure BatchLimits where
  maxEvents : Nat
  maxBytes : Nat
  maxAge : ℤ

/-- A consumed event with the bytes it was decoded from. -/
structure CollectedEvent extends ConsumedEvent where
  envelopeBytes : Bytes

structure BatchCollector where
  events : List CollectedEvent
  byteTotal : Nat
  startedAt : Option ℤ

def BatchCollector.empty : BatchCollector := ⟨[], 0, none⟩

def BatchCollector.isFull (L : BatchLimits) (c : BatchCollector) (now : ℤ) : Bool :=
  if c.events.isEmpty then false
  else
    decide (L.maxEvents ≤ c.events.length) || decide (L.maxBytes ≤ c.byteTotal) ||
      c.startedAt.any fun started => L.maxAge ≤ now - started

/-- `try_add`: whether the event was added. -/
def BatchCollector.tryAdd (L : BatchLimits) (c : BatchCollector) (e : CollectedEvent) (now : ℤ) :
    BatchCollector × Bool :=
  let c := { c with startedAt := some (c.startedAt.getD now) }
  if !c.events.isEmpty && c.isFull L now then (c, false)
  else
    let projectedBytes := c.byteTotal + e.envelopeBytes.length
    if L.maxEvents < c.events.length + 1 ∨ L.maxBytes < projectedBytes then (c, false)
    else ({ c with events := c.events ++ [e], byteTotal := projectedBytes }, true)

/-! ## The mapper -/

/-- What is fixed for a run: the interpreter and the database, the limits, the epoch, the topic
and what its log holds; a record may have no value. -/
structure Env where
  setting : Setting
  limits : BatchLimits
  epoch : Nat
  topic : Str
  log : PartitionKey → Nat → Option (Option Bytes)

structure Message where
  topic : Str
  partition : Nat
  offset : Nat
  value : Option Bytes

def Message.partitionKey (msg : Message) : PartitionKey := (msg.topic, msg.partition)

/-- `message.value() or b""`. -/
def Message.payload (msg : Message) : Bytes := msg.value.getD []

structure Mapper where
  collector : BatchCollector
  ownedPartitions : List PartitionKey
  revoked : Bool
  ownershipActive : Bool
  batchInFlight : Bool

def Mapper.start : Mapper := ⟨.empty, [], false, false, false⟩

def mayCommitKafka (ownershipActive revoked : Bool) : Bool := ownershipActive && !revoked

def Mapper.onAssign (m : Mapper) (partitions : List PartitionKey) : Mapper :=
  { m with revoked := false, ownershipActive := true, ownedPartitions := partitions }

def Mapper.onRevoke (m : Mapper) (partitions : List PartitionKey) : Mapper :=
  let owned := m.ownedPartitions.filter fun key => key ∉ partitions
  { m with
    ownedPartitions := owned
    ownershipActive := if owned.isEmpty then false else m.ownershipActive
    revoked := true }

def Mapper.shouldPauseForBackpressure (L : BatchLimits) (m : Mapper) (now : ℤ) : Bool :=
  m.batchInFlight || m.collector.isFull L now

def Mapper.recordSqlSuccess (m : Mapper) (result : BatchPersistResult) : Dict PartitionKey Nat :=
  if mayCommitKafka m.ownershipActive m.revoked then result.nextOffsets else .empty

structure BufferMessageResult where
  consumed : Option CollectedEvent
  ignored : Option IgnoredConsumedRecord
  needsFlush : Bool

/-- The event of a message, when its id is a string. -/
def collectedEvent (msg : Message) (legacy : HistoricEventEnvelope) : Option CollectedEvent :=
  match h : legacy.eventId with
  | .str id =>
      some {
        kafkaTopic := msg.topic
        partition := msg.partition
        offset := msg.offset
        envelope := legacy
        eventId := id
        hasId := h
        envelopeBytes := msg.payload }
  | _ => none

/-- What a record is to the historian: an event, or nothing it projects. -/
def readRecord (lim : Limits) (payload : Bytes) : Except Raised (Option HistoricEventEnvelope) := do
  let envelope ← decodeEvent lim payload
  asLegacyTelemetry envelope

/-- A decoded event has a string for its id, so the last exception is never raised. -/
def Mapper.tryBufferMessage (E : Env) (m : Mapper) (msg : Message) (now : ℤ) :
    Except Raised (Mapper × BufferMessageResult) :=
  match readRecord E.setting.lim msg.payload with
  | .error raised => if raised.isEnvelope then .ok (m, ⟨none, none, false⟩) else .error raised
  | .ok none => .ok (m, ⟨none, some ⟨msg.topic, msg.partition, msg.offset⟩, false⟩)
  | .ok (some legacy) =>
      match collectedEvent msg legacy with
      | none => .error .typeError
      | some event =>
          let added := m.collector.tryAdd E.limits event now
          .ok ({ m with collector := added.1 }, ⟨some event, none, !added.2⟩)

/-! ## Tasks -/

/-- What a task does once the flush it awaits has ended. -/
inductive Resume where
  | finished
  | handling (msg : Message)
  | ignoring (record : IgnoredConsumedRecord)
  | retrying (msg : Message)

inductive Task where
  | flush
  | handle (msg : Message)
  | persisting (events : List CollectedEvent) (next : Resume)
  | persisted (events : List CollectedEvent) (outcome : Except PersistRaised BatchPersistResult)
      (next : Resume)
  | observing (next : Resume)
  | checkpointing (record : IgnoredConsumedRecord)
  | checkpointed (record : IgnoredConsumedRecord) (outcome : Option BatchPersistResult)

/-- The readings of the clock in one stretch, in the order the code makes them. -/
abbrev Clock := Nat → ℤ

/-- `_maybe_flush` up to its await: the batch is taken out of the collector; without a batch to
flush, what comes after it goes on at once. -/
def Mapper.maybeFlush (E : Env) (m : Mapper) (force : Bool) (now : ℤ) (next : Resume)
    (after : Mapper → Mapper × Option Task) : Mapper × Option Task :=
  if m.batchInFlight then after m
  else if !force && !m.collector.isFull E.limits now then after m
  else if m.collector.events.isEmpty then after m
  else ({ m with collector := .empty, batchInFlight := true }, some (.persisting m.collector.events next))

/-- The second `try_buffer_message`, whose result is not looked at. -/
def Mapper.bufferAgain (E : Env) (clock : Clock) (m : Mapper) (msg : Message) : Mapper × Option Task :=
  match m.tryBufferMessage E msg (clock 4) with
  | .error _ => (m, none)
  | .ok (m', _) => (m', none)

/-- `_handle_message` from `try_buffer_message` on. -/
def Mapper.bufferMessage (E : Env) (clock : Clock) (m : Mapper) (msg : Message) : Mapper × Option Task :=
  match m.tryBufferMessage E msg (clock 2) with
  | .error _ => (m, none)
  | .ok (m', buffered) =>
      match buffered.ignored with
      | some record => m'.maybeFlush E true (clock 3) (.ignoring record) fun m => (m, some (.checkpointing record))
      | none =>
          if buffered.needsFlush then
            m'.maybeFlush E true (clock 3) (.retrying msg) fun m => m.bufferAgain E clock msg
          else m'.maybeFlush E false (clock 3) .finished fun m => (m, none)

/-- A task after its flush. -/
def Mapper.resume (E : Env) (clock : Clock) (m : Mapper) : Resume → Mapper × Option Task
  | .finished => (m, none)
  | .handling msg =>
      if m.shouldPauseForBackpressure E.limits (clock 1) then (m, none)
      else m.bufferMessage E clock msg
  | .ignoring record => (m, some (.checkpointing record))
  | .retrying msg => m.bufferAgain E clock msg

def Mapper.handleMessage (E : Env) (clock : Clock) (m : Mapper) (msg : Message) : Mapper × Option Task :=
  if m.shouldPauseForBackpressure E.limits (clock 0) then
    m.maybeFlush E true (clock 3) (.handling msg) fun m => m.resume E clock (.handling msg)
  else m.bufferMessage E clock msg

/-! ## The process and what it runs against -/

/-- The poll thread: what it does next. -/
inductive Poller where
  | check
  | poll
  | reading (partitions : List Nat)
  | reconciling (partitions : List Nat) (checkpoints : Dict Nat Nat)
  | dead

/-- What the process has polled and been assigned. -/
inductive Moment where
  | polled (msg : Message)
  | assigned (seeks : List (PartitionKey × Nat))

structure World where
  tables : Tables
  committed : PartitionKey → Option Nat
  requests : List (PartitionKey × Nat)
  deadLetters : List (PartitionKey × Nat)
  mapper : Mapper
  position : PartitionKey → Option Nat
  paused : List PartitionKey
  poller : Poller
  tasks : List Task
  history : List Moment
  recorded : List (PartitionKey × Nat)

/-- A new process; the database, the broker and the dead-letter topic keep what they have. -/
def World.restarted (w : World) : World :=
  { w with
    mapper := .start
    position := fun _ => none
    paused := []
    poller := .check
    tasks := []
    history := [] }

inductive CommitReply where
  | done
  | raised
  deriving DecidableEq

inductive DbReply where
  | committed
  | rolledBack
  | unanswered
  deriving DecidableEq

/-- `_commit_kafka`, and whether it returned. -/
def World.commitKafka (w : World) (commits : Dict PartitionKey Nat) : CommitReply → World × Bool
  | .done =>
      ({ w with committed := fun key => (commits.get? key).or (w.committed key) }, true)
  | .raised =>
      if commits.entries.isEmpty then (w, true)
      else ({ w with requests := w.requests ++ commits.entries }, false)

def World.resumeOwned (w : World) : World :=
  { w with paused := w.paused.filter fun key => key ∉ w.mapper.ownedPartitions }

def World.withMapper (w : World) (out : Mapper × Option Task) : World × Option Task :=
  ({ w with mapper := out.1 }, out.2)

/-- A stretch of a task on the loop.  A task that awaits a transaction goes on with it. -/
def World.runTask (E : Env) (clock : Clock) (reply : CommitReply) (w : World) : Task → World × Option Task
  | .flush => w.withMapper (w.mapper.maybeFlush E false (clock 3) .finished fun m => (m, none))
  | .handle msg => w.withMapper (w.mapper.handleMessage E clock msg)
  | .persisted _ outcome next =>
      let w := { w with mapper := { w.mapper with batchInFlight := false } }
      match outcome with
      | .error _ => (w, none)
      | .ok result =>
          let sent := w.commitKafka (w.mapper.recordSqlSuccess result) reply
          (sent.1, if sent.2 then some (.observing next) else none)
  | .observing next =>
      let w := w.resumeOwned
      w.withMapper (w.mapper.resume E clock next)
  | .checkpointed _ outcome =>
      match outcome with
      | none => (w, none)
      | some result => ((w.commitKafka (w.mapper.recordSqlSuccess result) reply).1, none)
  | .persisting events next => (w, some (.persisting events next))
  | .checkpointing record => (w, some (.checkpointing record))

/-- The tables a committed transaction leaves. -/
def World.record (w : World) (t : Tables) (places : List (PartitionKey × Nat)) : World :=
  { w with tables := t, recorded := places ++ w.recorded }

def CollectedEvent.place (e : CollectedEvent) : PartitionKey × Nat := (e.partitionKey, e.offset)

def IgnoredConsumedRecord.place (r : IgnoredConsumedRecord) : PartitionKey × Nat := (r.partitionKey, r.offset)

/-- The transaction that a task awaits. -/
def World.runTransaction (E : Env) (reply : DbReply) (w : World) : Task → World × Option Task
  | .persisting events next =>
      match persistBatch E.setting E.epoch (events.map (·.toConsumedEvent)) w.tables with
      | .error raised => (w, some (.persisted events (.error raised) next))
      | .ok (t, result) =>
          match reply with
          | .committed =>
              (w.record t (events.map CollectedEvent.place), some (.persisted events (.ok result) next))
          | .rolledBack => (w, some (.persisted events (.error .database) next))
          | .unanswered =>
              (w.record t (events.map CollectedEvent.place),
                some (.persisted events (.error .database) next))
  | .checkpointing record =>
      let out := checkpointIgnoredRecords E.epoch [record] w.tables
      match reply with
      | .committed => (w.record out.1 [record.place], some (.checkpointed record (some out.2)))
      | .rolledBack => (w, some (.checkpointed record none))
      | .unanswered => (w.record out.1 [record.place], some (.checkpointed record none))
  | task => (w, some task)

/-- The task in its place, or gone. -/
def World.settle (i : Nat) (out : World × Option Task) : World :=
  match out.2 with
  | some task => { out.1 with tasks := out.1.tasks.set i task }
  | none => { out.1 with tasks := out.1.tasks.eraseIdx i }

/-- The loop of `reconcile` over the partitions, up to the first exception. -/
def reconcileAll (E : Env) (checkpoints : Dict Nat Nat) (committed : PartitionKey → Option Nat)
    (low : Nat → Nat) (partitions : List Nat) : Except ReconcileRaised (List (PartitionKey × Nat)) :=
  partitions.mapM fun p =>
    (reconcilePartitionOffset ((checkpoints.get? p).getD 0) (committed (E.topic, p)) (some (low p))).map
      fun seek => ((E.topic, p), seek)

def World.assigned (w : World) (seeks : List (PartitionKey × Nat)) : World :=
  { w with
    mapper := w.mapper.onAssign (seeks.map Prod.fst)
    position := fun key => lookup key seeks
    paused := []
    poller := .poll
    history := .assigned seeks :: w.history }

/-! ## Runs -/

inductive Input where
  | check (now : ℤ)
  | pollNothing
  | pollError
  | pollMessage (key : PartitionKey) (offset : Nat)
  | revoke (partitions : List PartitionKey)
  | assign (partitions : List Nat)
  | readCheckpoints (reply : DbReply)
  | reconcile (low : Nat → Nat) (raises : Bool)
  | run (i : Nat) (clock : Clock) (reply : CommitReply)
  | transact (i : Nat) (reply : DbReply)
  | applyRequest (request : PartitionKey × Nat)
  | deadLetter (key : PartitionKey) (offset : Nat)
  | crash

/-- The next record at or after a position. -/
def Env.isNext (E : Env) (key : PartitionKey) (position offset : Nat) : Bool :=
  decide (position ≤ offset) && (E.log key offset).isSome &&
    (List.range' position (offset - position)).all fun o => (E.log key o).isNone

/-- A message is polled from an assigned partition that is not paused. -/
def World.pollMessage (E : Env) (w : World) (key : PartitionKey) (offset : Nat) : World :=
  match w.position key, E.log key offset with
  | some position, some value =>
      if E.isNext key position offset ∧ key ∉ w.paused then
        let msg : Message := ⟨key.1, key.2, offset, value⟩
        { w with
          position := fun k => if k = key then some (offset + 1) else w.position k
          poller := .check
          tasks := w.tasks ++ [.handle msg]
          history := .polled msg :: w.history }
      else w
  | _, _ => w

/-- One step; an input that is not possible in the state changes nothing. -/
def World.next (E : Env) (w : World) : Input → World
  | .check now =>
      match w.poller with
      | .check =>
          { w with
            poller := .poll
            paused := if w.mapper.shouldPauseForBackpressure E.limits now
              then w.paused ++ w.mapper.ownedPartitions else w.paused }
      | _ => w
  | .pollNothing =>
      match w.poller with
      | .poll => { w with poller := .check, tasks := w.tasks ++ [.flush] }
      | _ => w
  | .pollError =>
      match w.poller with
      | .poll => { w with poller := .check }
      | _ => w
  | .pollMessage key offset =>
      match w.poller with
      | .poll => w.pollMessage E key offset
      | _ => w
  | .revoke partitions =>
      match w.poller with
      | .poll =>
          { w with
            mapper := w.mapper.onRevoke partitions
            position := fun key => if key ∈ partitions then none else w.position key }
      | _ => w
  | .assign partitions =>
      match w.poller with
      | .poll =>
          if mayCommitKafka w.mapper.ownershipActive w.mapper.revoked then w
          else { w with poller := .reading partitions }
      | _ => w
  | .readCheckpoints reply =>
      match w.poller with
      | .reading partitions =>
          let out := readPartitionCheckpoints E.epoch E.topic partitions w.tables
          match reply with
          | .committed => { w with tables := out.1, poller := .reconciling partitions out.2 }
          | .rolledBack => { w with poller := .dead }
          | .unanswered => { w with tables := out.1, poller := .dead }
      | _ => w
  | .reconcile low raises =>
      match w.poller with
      | .reconciling partitions checkpoints =>
          if raises then { w with poller := .dead }
          else
            match reconcileAll E checkpoints w.committed low partitions with
            | .error _ => { w with poller := .dead }
            | .ok seeks => w.assigned seeks
      | _ => w
  | .run i clock reply =>
      match w.tasks[i]? with
      | some task => World.settle i (w.runTask E clock reply task)
      | none => w
  | .transact i reply =>
      match w.tasks[i]? with
      | some task => World.settle i (w.runTransaction E reply task)
      | none => w
  | .applyRequest request =>
      if request ∈ w.requests then
        { w with
          committed := fun key => if key = request.1 then some request.2 else w.committed key
          requests := w.requests.erase request }
      else w
  | .deadLetter key offset => { w with deadLetters := (key, offset) :: w.deadLetters }
  | .crash => w.restarted

/-- A first process over any tables, with nothing committed to Kafka. -/
def World.IsStart (w : World) : Prop :=
  (∀ key, w.committed key = none) ∧ w.requests = [] ∧ w.restarted = w

def consumerSystem (E : Env) : System World Input where
  init := World.IsStart
  step w i w' := w' = w.next E i

/-- The runs of an epoch, whose checkpoints start at 0. -/
def epochSystem (E : Env) : System World Input where
  init w := w.IsStart ∧ ∀ key, w.tables.checkpoint E.epoch key = 0
  step w i w' := w' = w.next E i

def World.checkpoint (E : Env) (w : World) (key : PartitionKey) : Nat := w.tables.checkpoint E.epoch key

def World.run (E : Env) (w : World) (inputs : List Input) : World := inputs.foldl (World.next E) w

theorem reachable_runs {E : Env} {S : System World Input} (hS : ∀ w i, S.step w i (w.next E i))
    {w : World} (h : S.Reachable w) (inputs : List Input) : S.Reachable (w.run E inputs) := by
  induction inputs generalizing w with
  | nil => exact h
  | cons i inputs ih => exact ih (.step h (hS w i))

theorem reachable_run {E : Env} {w : World} (h : (consumerSystem E).Reachable w) (inputs : List Input) :
    (consumerSystem E).Reachable (w.run E inputs) :=
  reachable_runs (fun _ _ => rfl) h inputs

/-- Each input of a list meets a condition where it is taken. -/
def World.Meets (E : Env) (ok : World → Input → Prop) (w : World) : List Input → Prop
  | [] => True
  | i :: inputs => ok w i ∧ (w.next E i).Meets E ok inputs

theorem reachable_run_restrict {E : Env} {S : System World Input} {ok : World → Input → Prop}
    (hS : ∀ w i, S.step w i (w.next E i)) {w : World} (h : (S.restrict ok).Reachable w)
    {inputs : List Input} (hok : w.Meets E ok inputs) : (S.restrict ok).Reachable (w.run E inputs) := by
  induction inputs generalizing w with
  | nil => exact h
  | cons i inputs ih => exact ih (.step h ⟨hok.1, hS w i⟩) hok.2

/-- A first process over empty tables. -/
def World.first : World where
  tables := emptyTables
  committed := fun _ => none
  requests := []
  deadLetters := []
  mapper := .start
  position := fun _ => none
  paused := []
  poller := .check
  tasks := []
  history := []
  recorded := []

def encoded (e : HistoricEventEnvelope) : Bytes :=
  match encodeEvent cpython e with
  | .ok data => data
  | .error _ => []

def plantTopic : Str := lit "uns.historic-events"

/-- A topic whose partition 0 holds the values from offset 0 on. -/
def plantEnv (limits : BatchLimits) (values : List Bytes) : Env where
  setting := openSetting
  limits := limits
  epoch := 1
  topic := plantTopic
  log key offset := if key = (plantTopic, 0) then values[offset]?.map some else none

/-- The partition is assigned to a new process. -/
def assignPlant : List Input :=
  [.check 0, .assign [0], .readCheckpoints .committed, .reconcile (fun _ => 0) false]

/-- A message is polled and handled; the batch it fills is persisted and committed. -/
def consumeOne (offset : Nat) : List Input :=
  [.pollMessage (plantTopic, 0) offset, .run 0 (fun _ => 0) .done, .transact 0 .committed,
    .run 0 (fun _ => 0) .done, .run 0 (fun _ => 0) .done]

/-! ## What a message becomes -/

section Messages

variable {E : Env} {clock : Clock} {m : Mapper} {msg : Message}

/-- The event of a message. -/
def Message.IsEvent (E : Env) (msg : Message) (e : CollectedEvent) : Prop :=
  ∃ legacy, readRecord E.setting.lim msg.payload = .ok (some legacy) ∧ collectedEvent msg legacy = some e

/-- A message that the historian does not project. -/
def Message.IsIgnored (E : Env) (msg : Message) (r : IgnoredConsumedRecord) : Prop :=
  readRecord E.setting.lim msg.payload = .ok none ∧ r = ⟨msg.topic, msg.partition, msg.offset⟩

def Message.Readable (E : Env) (msg : Message) : Prop := (∃ e, msg.IsEvent E e) ∨ ∃ r, msg.IsIgnored E r

theorem Message.IsEvent.place {e : CollectedEvent} (h : msg.IsEvent E e) :
    e.place = (msg.partitionKey, msg.offset) := by
  obtain ⟨legacy, -, he⟩ := h
  rw [collectedEvent] at he
  split at he
  · cases he
    rfl
  · cases he

theorem Message.IsIgnored.place {r : IgnoredConsumedRecord} (h : msg.IsIgnored E r) :
    r.place = (msg.partitionKey, msg.offset) := by
  obtain ⟨-, rfl⟩ := h
  rfl

theorem tryAdd_events (L : BatchLimits) (c : BatchCollector) (e : CollectedEvent) (now : ℤ) :
    (c.tryAdd L e now).1.events = if (c.tryAdd L e now).2 then c.events ++ [e] else c.events := by
  rw [BatchCollector.tryAdd]
  dsimp only
  split
  · rfl
  · split
    · rfl
    · rfl

/-- The event fits a batch of its own. -/
def CollectedEvent.Fits (L : BatchLimits) (e : CollectedEvent) : Prop :=
  1 ≤ L.maxEvents ∧ e.envelopeBytes.length ≤ L.maxBytes

theorem fits_of_tryAdd {L : BatchLimits} {c : BatchCollector} {e : CollectedEvent} {now : ℤ}
    (h : (c.tryAdd L e now).2 = true) : e.Fits L := by
  rw [BatchCollector.tryAdd] at h
  dsimp only at h
  split at h
  · cases h
  · split at h
    · cases h
    · rename_i hroom
      rw [not_or, not_lt, not_lt] at hroom
      exact ⟨by omega, by omega⟩

/-- The four ways of `try_buffer_message`. -/
theorem tryBufferMessage_cases (now : ℤ) :
    (¬ msg.Readable E ∧ ((∃ raised, m.tryBufferMessage E msg now = .error raised) ∨
      m.tryBufferMessage E msg now = .ok (m, ⟨none, none, false⟩))) ∨
    (∃ r, msg.IsIgnored E r ∧ m.tryBufferMessage E msg now = .ok (m, ⟨none, some r, false⟩)) ∨
    ∃ e, msg.IsEvent E e ∧ m.tryBufferMessage E msg now =
      .ok ({ m with collector := (m.collector.tryAdd E.limits e now).1 },
        ⟨some e, none, !(m.collector.tryAdd E.limits e now).2⟩) := by
  rw [Mapper.tryBufferMessage]
  cases hread : readRecord E.setting.lim msg.payload with
  | error raised =>
      have hun : ¬ msg.Readable E := by
        rintro (⟨e, legacy, h, -⟩ | ⟨r, h, -⟩)
        · rw [hread] at h
          cases h
        · rw [hread] at h
          cases h
      refine .inl ⟨hun, ?_⟩
      dsimp only
      split
      · exact .inr rfl
      · exact .inl ⟨raised, rfl⟩
  | ok read =>
      cases read with
      | none => exact .inr (.inl ⟨_, ⟨hread, rfl⟩, rfl⟩)
      | some legacy =>
          cases hevent : collectedEvent msg legacy with
          | none =>
              have hun : ¬ msg.Readable E := by
                rintro (⟨e, legacy', h, he⟩ | ⟨r, h, -⟩)
                · rw [hread] at h
                  cases h
                  rw [hevent] at he
                  cases he
                · rw [hread] at h
                  cases h
              exact .inl ⟨hun, .inl ⟨.typeError, by simp only [hevent]⟩⟩
          | some e => exact .inr (.inr ⟨e, ⟨legacy, hread, hevent⟩, by simp only [hevent]⟩)

/-! ## What a stretch of a task does -/

/-- The events that a task has taken out of the collector. -/
def Task.events : Task → List CollectedEvent
  | .persisting events _ => events
  | .persisted events _ _ => events
  | _ => []

/-- What a task still has to do with a record. -/
def Task.pending : Task → Resume
  | .flush => .finished
  | .handle msg => .handling msg
  | .persisting _ next => next
  | .persisted _ _ next => next
  | .observing next => next
  | .checkpointing record => .ignoring record
  | .checkpointed record _ => .ignoring record

/-- The message that is waiting. -/
def Resume.message : Resume → Option Message
  | .handling msg => some msg
  | .retrying msg => some msg
  | _ => none

def Resume.record : Resume → Option IgnoredConsumedRecord
  | .ignoring record => some record
  | _ => none

/-- The events in memory after a stretch. -/
def heldEvents (out : Mapper × Option Task) : List CollectedEvent :=
  out.1.collector.events ++ (out.2.map Task.events).getD []

/-- What a stretch makes of the mapper and of what its task had still to do. -/
structure Stretch (E : Env) (m : Mapper) (source : Resume) (out : Mapper × Option Task) : Prop where
  owned : out.1.ownedPartitions = m.ownedPartitions
  revoked : out.1.revoked = m.revoked
  active : out.1.ownershipActive = m.ownershipActive
  kept : ∀ e ∈ m.collector.events, e ∈ heldEvents out
  events : ∀ e ∈ heldEvents out, e ∈ m.collector.events ∨
    ∃ msg, source.message = some msg ∧ msg.IsEvent E e ∧ e.Fits E.limits
  task : ∀ t, out.2 = some t → (∃ taken next, t = .persisting taken next) ∨ ∃ r, t = .checkpointing r
  message : ∀ t msg, out.2 = some t → t.pending.message = some msg → source.message = some msg
  record : ∀ t r, out.2 = some t → t.pending.record = some r →
    source.record = some r ∨ ∃ msg, source.message = some msg ∧ msg.IsIgnored E r

/-- The record a task came with is in the collector or still with the task. -/
def Survives (E : Env) (msg : Message) (out : Mapper × Option Task) : Prop :=
  (∃ e ∈ heldEvents out, msg.IsEvent E e) ∨
    ∃ t, out.2 = some t ∧ (t.pending.message = some msg ∨ ∃ r, t.pending.record = some r ∧ msg.IsIgnored E r)

/-- The second `try_buffer_message` adds nothing. -/
def Mapper.RefusesAgain (E : Env) (now : ℤ) (m : Mapper) (msg : Message) : Prop :=
  ¬ ∃ e, msg.IsEvent E e ∧ (m.collector.tryAdd E.limits e now).2 = true

/-- `_handle_message` from `try_buffer_message` on loses the message: it cannot be read, or it is
refused, nothing is flushed, and it is refused again. -/
def Mapper.BufferDiscards (E : Env) (clock : Clock) (m : Mapper) (msg : Message) : Prop :=
  ¬ msg.Readable E ∨ (m.batchInFlight = true ∨ m.collector.events = []) ∧
    ∃ e, msg.IsEvent E e ∧ (m.collector.tryAdd E.limits e (clock 2)).2 = false ∧
      Mapper.RefusesAgain E (clock 4) { m with collector := (m.collector.tryAdd E.limits e (clock 2)).1 } msg

/-- A task loses its message after its flush. -/
def Mapper.Discards (E : Env) (clock : Clock) (m : Mapper) : Resume → Prop
  | .handling msg => m.shouldPauseForBackpressure E.limits (clock 1) = true ∨ m.BufferDiscards E clock msg
  | .retrying msg => m.RefusesAgain E (clock 4) msg
  | _ => False

/-- `_handle_message` loses its message before any flush. -/
def Mapper.HandleDiscards (E : Env) (clock : Clock) (m : Mapper) (msg : Message) : Prop :=
  if m.shouldPauseForBackpressure E.limits (clock 0) then
    (m.batchInFlight = true ∨ m.collector.events = []) ∧ m.Discards E clock (.handling msg)
  else m.BufferDiscards E clock msg

theorem maybeFlush_cases (force : Bool) (now : ℤ) (next : Resume) (after : Mapper → Mapper × Option Task) :
    (force = true → m.batchInFlight = true ∨ m.collector.events = []) ∧
        m.maybeFlush E force now next after = after m ∨
      m.batchInFlight = false ∧ m.collector.events ≠ [] ∧
      m.maybeFlush E force now next after =
        ({ m with collector := .empty, batchInFlight := true }, some (.persisting m.collector.events next)) := by
  rw [Mapper.maybeFlush]
  split
  · rename_i hflight
    exact .inl ⟨fun _ => .inl hflight, rfl⟩
  · rename_i hidle
    split
    · rename_i hwait
      refine .inl ⟨?_, rfl⟩
      rintro rfl
      cases hwait
    · split
      · rename_i hevents
        exact .inl ⟨fun _ => .inr (List.isEmpty_iff.mp hevents), rfl⟩
      · rename_i hevents
        refine .inr ⟨Bool.eq_false_iff.mpr hidle, ?_, rfl⟩
        intro h
        exact hevents (List.isEmpty_iff.mpr h)

/-- A batch that is taken out is with its task. -/
theorem stretch_flush {next source : Resume}
    (hmessage : ∀ msg, next.message = some msg → source.message = some msg)
    (hrecord : ∀ r, next.record = some r →
      source.record = some r ∨ ∃ msg, source.message = some msg ∧ msg.IsIgnored E r) :
    Stretch E m source
      ({ m with collector := .empty, batchInFlight := true }, some (.persisting m.collector.events next)) := by
  refine ⟨rfl, rfl, rfl, fun _ he => he, fun _ he => .inl he, ?_, ?_, ?_⟩
  · rintro t h
    cases h
    exact .inl ⟨_, _, rfl⟩
  · rintro t msg h hmsg
    cases h
    exact hmessage msg hmsg
  · rintro t r h hr
    cases h
    exact hrecord r hr

/-- A stretch that ends its task, or leaves it to checkpoint a record. -/
theorem stretch_end {source : Resume} {c : BatchCollector} {t : Option Task}
    (hkept : ∀ e ∈ m.collector.events, e ∈ c.events)
    (hevents : ∀ e ∈ c.events, e ∈ m.collector.events ∨
      ∃ msg, source.message = some msg ∧ msg.IsEvent E e ∧ e.Fits E.limits)
    (htask : ∀ u, t = some u → ∃ r, u = .checkpointing r ∧
      (source.record = some r ∨ ∃ msg, source.message = some msg ∧ msg.IsIgnored E r)) :
    Stretch E m source ({ m with collector := c }, t) := by
  have hnone : (t.map Task.events).getD [] = [] := by
    cases t with
    | none => rfl
    | some u =>
        obtain ⟨r, rfl, -⟩ := htask u rfl
        rfl
  have hheld : heldEvents ({ m with collector := c }, t) = c.events := by
    rw [heldEvents, hnone, List.append_nil]
  refine ⟨rfl, rfl, rfl, ?_, ?_, ?_, ?_, ?_⟩
  · rw [hheld]
    exact hkept
  · rw [hheld]
    exact hevents
  · rintro u hu
    obtain ⟨r, rfl, -⟩ := htask u hu
    exact .inr ⟨r, rfl⟩
  · rintro u msg hu hmsg
    obtain ⟨r, rfl, -⟩ := htask u hu
    cases hmsg
  · rintro u r hu hr
    obtain ⟨q, rfl, hq⟩ := htask u hu
    cases hr
    exact hq

theorem stretch_still {source : Resume} : Stretch E m source (m, none) :=
  stretch_end (c := m.collector) (fun _ he => he) (fun _ he => .inl he) (fun _ h => nomatch h)

theorem mem_tryAdd {e : CollectedEvent} {now : ℤ} (h : (m.collector.tryAdd E.limits e now).2 = true) :
    e ∈ (m.collector.tryAdd E.limits e now).1.events := by
  rw [tryAdd_events, if_pos h]
  exact List.mem_append_right _ List.mem_cons_self

/-- A call of `try_add` adds the event or nothing. -/
theorem stretch_added {source : Resume} {e : CollectedEvent} (hsource : source.message = some msg)
    (he : msg.IsEvent E e) (now : ℤ) :
    Stretch E m source ({ m with collector := (m.collector.tryAdd E.limits e now).1 }, none) := by
  have hadd := tryAdd_events E.limits m.collector e now
  refine stretch_end ?_ ?_ (fun _ h => nomatch h)
  · intro x hx
    rw [hadd]
    split
    · exact List.mem_append_left _ hx
    · exact hx
  · intro x hx
    rw [hadd] at hx
    split at hx
    · rename_i hadded
      rcases List.mem_append.mp hx with hx | hx
      · exact .inl hx
      · rw [List.mem_singleton.mp hx]
        exact .inr ⟨msg, hsource, he, fits_of_tryAdd hadded⟩
    · exact .inl hx

theorem IsEvent.unique {e e' : CollectedEvent} (h : msg.IsEvent E e) (h' : msg.IsEvent E e') : e = e' := by
  obtain ⟨legacy, hread, he⟩ := h
  obtain ⟨legacy', hread', he'⟩ := h'
  rw [hread] at hread'
  cases hread'
  rw [he] at he'
  exact Option.some.inj he'

/-- The second `try_buffer_message`. -/
theorem stretch_retry {source : Resume} (hsource : source.message = some msg) :
    Stretch E m source (m.bufferAgain E clock msg) ∧
      (¬ m.RefusesAgain E (clock 4) msg → Survives E msg (m.bufferAgain E clock msg)) := by
  rw [Mapper.bufferAgain]
  rcases @tryBufferMessage_cases E m msg (clock 4) with
    ⟨hun, ⟨raised, h⟩ | h⟩ | ⟨r, hr, h⟩ | ⟨e, he, h⟩
  · rw [h]
    refine ⟨stretch_still, ?_⟩
    intro hadds
    obtain ⟨e, he, -⟩ := not_not.mp hadds
    exact absurd (.inl ⟨e, he⟩) hun
  · rw [h]
    refine ⟨stretch_still, ?_⟩
    intro hadds
    obtain ⟨e, he, -⟩ := not_not.mp hadds
    exact absurd (.inl ⟨e, he⟩) hun
  · rw [h]
    refine ⟨stretch_still, ?_⟩
    intro hadds
    obtain ⟨e, ⟨legacy, hread, -⟩, -⟩ := not_not.mp hadds
    rw [hr.1] at hread
    cases hread
  · rw [h]
    refine ⟨stretch_added hsource he _, ?_⟩
    intro hadds
    obtain ⟨e', he', hadd⟩ := not_not.mp hadds
    obtain rfl := IsEvent.unique he he'
    exact .inl ⟨e, List.mem_append_left _ (mem_tryAdd hadd), he⟩

/-- A stretch after a call of `try_add`. -/
theorem Stretch.after_added {source : Resume} {e : CollectedEvent} {now : ℤ}
    (hsource : source.message = some msg) (he : msg.IsEvent E e) {out : Mapper × Option Task}
    (h : Stretch E { m with collector := (m.collector.tryAdd E.limits e now).1 } source out) :
    Stretch E m source out := by
  have hfirst := stretch_added (m := m) hsource he now
  refine ⟨h.owned, h.revoked, h.active, ?_, ?_, h.task, h.message, h.record⟩
  · intro x hx
    have hx' := hfirst.kept x hx
    rw [heldEvents] at hx'
    exact h.kept x (by simpa using hx')
  · intro x hx
    rcases h.events x hx with hx | hx
    · exact hfirst.events x (List.mem_append_left _ hx)
    · exact .inr hx

theorem stretch_buffer {source : Resume} (hsource : source.message = some msg) :
    Stretch E m source (m.bufferMessage E clock msg) ∧
      (¬ m.BufferDiscards E clock msg → Survives E msg (m.bufferMessage E clock msg)) := by
  have hunreadable : ¬ msg.Readable E →
      ¬ m.BufferDiscards E clock msg → Survives E msg (m, none) :=
    fun hun h => absurd (.inl hun) h
  rw [Mapper.bufferMessage]
  rcases @tryBufferMessage_cases E m msg (clock 2) with
    ⟨hun, ⟨raised, h⟩ | h⟩ | ⟨r, hr, h⟩ | ⟨e, he, h⟩
  · rw [h]
    exact ⟨stretch_still, hunreadable hun⟩
  · simp only [h, Bool.false_eq_true, if_false]
    rcases maybeFlush_cases (m := m) (E := E) false (clock 3) .finished fun m => (m, none) with ⟨-, hf⟩ | ⟨-, -, hf⟩
    · rw [hf]
      exact ⟨stretch_still, hunreadable hun⟩
    · rw [hf]
      refine ⟨stretch_flush (fun _ h => nomatch h) (fun _ h => nomatch h), ?_⟩
      exact fun h => absurd (.inl hun) h
  · simp only [h]
    have hrecord : ∀ q, (Resume.ignoring r).record = some q →
        source.record = some q ∨ ∃ msg, source.message = some msg ∧ msg.IsIgnored E q := by
      intro q hq
      cases hq
      exact .inr ⟨msg, hsource, hr⟩
    rcases maybeFlush_cases (m := m) (E := E) true (clock 3) (.ignoring r)
      fun m => (m, some (.checkpointing r)) with ⟨-, hf⟩ | ⟨-, -, hf⟩
    · rw [hf]
      refine ⟨stretch_end (c := m.collector) (fun _ he => he) (fun _ he => .inl he) ?_, ?_⟩
      · rintro u hu
        cases hu
        exact ⟨r, rfl, hrecord r rfl⟩
      · exact fun _ => .inr ⟨_, rfl, .inr ⟨r, rfl, hr⟩⟩
    · rw [hf]
      refine ⟨stretch_flush (fun _ h => nomatch h) hrecord, ?_⟩
      exact fun _ => .inr ⟨_, rfl, .inr ⟨r, rfl, hr⟩⟩
  · simp only [h]
    generalize hm1 : ({ m with collector := (m.collector.tryAdd E.limits e (clock 2)).1 } : Mapper) = m1
    have hback : ∀ {out}, Stretch E m1 source out → Stretch E m source out := by
      rw [← hm1]
      exact Stretch.after_added hsource he
    cases hadd : (m.collector.tryAdd E.limits e (clock 2)).2 with
    | true =>
        simp only [Bool.not_true, Bool.false_eq_true, if_false]
        have hmem : e ∈ m1.collector.events := by
          rw [← hm1]
          exact mem_tryAdd hadd
        rcases maybeFlush_cases (m := m1) (E := E) false (clock 3) .finished fun m => (m, none) with
          ⟨-, hf⟩ | ⟨-, -, hf⟩
        · rw [hf]
          exact ⟨hback stretch_still, fun _ => .inl ⟨e, List.mem_append_left _ hmem, he⟩⟩
        · rw [hf]
          refine ⟨hback (stretch_flush (fun _ h => nomatch h) (fun _ h => nomatch h)), ?_⟩
          exact fun _ => .inl ⟨e, List.mem_append_right _ hmem, he⟩
    | false =>
        simp only [Bool.not_false, if_true]
        rcases maybeFlush_cases (m := m1) (E := E) true (clock 3) (.retrying msg)
          (fun m => m.bufferAgain E clock msg) with ⟨hwhy, hf⟩ | ⟨-, -, hf⟩
        · rw [hf]
          obtain ⟨hstretch, hsurvives⟩ := @stretch_retry E clock m1 msg source hsource
          refine ⟨hback hstretch, fun hkeeps => hsurvives ?_⟩
          intro hrefuses
          rw [← hm1] at hwhy hrefuses
          have hsame : (m.collector.tryAdd E.limits e (clock 2)).1.events = m.collector.events := by
            rw [tryAdd_events, hadd]
            rfl
          refine hkeeps (.inr ⟨?_, e, he, hadd, hrefuses⟩)
          rw [← hsame]
          exact hwhy rfl
        · rw [hf]
          refine ⟨hback (stretch_flush ?_ (fun _ h => nomatch h)), ?_⟩
          · intro q hq
            cases hq
            exact hsource
          · exact fun _ => .inr ⟨_, rfl, .inl rfl⟩

/-- A task after its flush. -/
theorem stretch_resume (source : Resume) :
    Stretch E m source (m.resume E clock source) ∧
      ∀ msg, source.message = some msg → ¬ m.Discards E clock source →
        Survives E msg (m.resume E clock source) := by
  cases source with
  | finished => exact ⟨stretch_still, fun _ h => nomatch h⟩
  | handling msg =>
      rw [Mapper.resume]
      split
      · rename_i hpause
        refine ⟨stretch_still, ?_⟩
        rintro q hq hkeeps
        exact absurd (.inl hpause) hkeeps
      · obtain ⟨hstretch, hsurvives⟩ :=
          @stretch_buffer E clock m msg (.handling msg) rfl
        refine ⟨hstretch, ?_⟩
        rintro q hq hkeeps
        cases hq
        exact hsurvives fun h => hkeeps (.inr h)
  | ignoring record =>
      refine ⟨stretch_end (c := m.collector) (fun _ he => he) (fun _ he => .inl he) ?_, fun _ h => nomatch h⟩
      rintro u hu
      cases hu
      exact ⟨record, rfl, .inl rfl⟩
  | retrying msg =>
      obtain ⟨hstretch, hsurvives⟩ :=
        @stretch_retry E clock m msg (.retrying msg) rfl
      refine ⟨hstretch, ?_⟩
      rintro q hq hkeeps
      cases hq
      exact hsurvives hkeeps

theorem stretch_handle :
    Stretch E m (.handling msg) (m.handleMessage E clock msg) ∧
      (¬ m.HandleDiscards E clock msg → Survives E msg (m.handleMessage E clock msg)) := by
  rw [Mapper.handleMessage, Mapper.HandleDiscards]
  split
  · rcases maybeFlush_cases (m := m) (E := E) true (clock 3) (.handling msg)
      (fun m => m.resume E clock (.handling msg)) with ⟨hwhy, hf⟩ | ⟨-, -, hf⟩
    · rw [hf]
      obtain ⟨hstretch, hsurvives⟩ := @stretch_resume E clock m (.handling msg)
      exact ⟨hstretch, fun hkeeps => hsurvives msg rfl fun h => hkeeps ⟨hwhy rfl, h⟩⟩
    · rw [hf]
      refine ⟨stretch_flush (fun _ h => h) (fun _ h => nomatch h), ?_⟩
      exact fun _ => .inr ⟨_, rfl, .inl rfl⟩
  · exact stretch_buffer rfl

theorem stretch_flushTask (now : ℤ) :
    Stretch E m .finished (m.maybeFlush E false now .finished fun m => (m, none)) := by
  rcases maybeFlush_cases (m := m) (E := E) false now .finished fun m => (m, none) with ⟨-, hf⟩ | ⟨-, -, hf⟩
  · rw [hf]
    exact stretch_still
  · rw [hf]
    exact stretch_flush (fun _ h => h) (fun _ h => nomatch h)

end Messages

/-! ## What a step leaves alone -/

section Frames

variable {E : Env} {w : World}

theorem mem_append_one {α : Type} {x y : α} {xs : List α} (h : x ∈ xs ++ [y]) : x ∈ xs ∨ x = y := by
  rcases List.mem_append.mp h with h | h
  · exact .inl h
  · exact .inr (List.mem_singleton.mp h)

theorem mem_settle {i : Nat} {out : World × Option Task} {t : Task} (h : t ∈ (World.settle i out).tasks) :
    t ∈ out.1.tasks ∨ out.2 = some t := by
  rw [World.settle] at h
  split at h
  · rename_i u hu
    rcases List.mem_or_eq_of_mem_set h with h | rfl
    · exact .inl h
    · exact .inr hu
  · exact .inl (List.mem_of_mem_eraseIdx h)

/-- A task in its place changes nothing but the tasks. -/
theorem settle_frame (i : Nat) (out : World × Option Task) :
    World.settle i out = { out.1 with tasks := (World.settle i out).tasks } := by
  rw [World.settle]
  split <;> rfl

/-- What commits leave alone: all but the offsets in Kafka. -/
theorem commitKafka_frame (commits : Dict PartitionKey Nat) (reply : CommitReply) :
    (w.commitKafka commits reply).1 =
      { w with
        committed := (w.commitKafka commits reply).1.committed
        requests := (w.commitKafka commits reply).1.requests } := by
  cases reply with
  | done => rfl
  | raised =>
      rw [World.commitKafka]
      split <;> rfl

/-- What a stretch leaves alone: all but the mapper, the offsets in Kafka and what is paused. -/
theorem runTask_frame (clock : Clock) (reply : CommitReply) (task : Task) :
    (w.runTask E clock reply task).1 =
      { w with
        committed := (w.runTask E clock reply task).1.committed
        requests := (w.runTask E clock reply task).1.requests
        mapper := (w.runTask E clock reply task).1.mapper
        paused := (w.runTask E clock reply task).1.paused } := by
  cases task with
  | persisted events outcome next =>
      cases outcome with
      | error raised => rfl
      | ok result =>
          rw [World.runTask]
          dsimp only
          rw [commitKafka_frame]
  | checkpointed record outcome =>
      cases outcome with
      | none => rfl
      | some result =>
          rw [World.runTask]
          dsimp only
          rw [commitKafka_frame]
  | _ => rfl

/-- What a transaction leaves alone: all but the tables; its task is about the same records. -/
theorem runTransaction_frame (reply : DbReply) (task : Task) :
    (w.runTransaction E reply task).1 =
      { w with
        tables := (w.runTransaction E reply task).1.tables
        recorded := (w.runTransaction E reply task).1.recorded } ∧
      ∀ t, (w.runTransaction E reply task).2 = some t → t.events = task.events ∧ t.pending = task.pending := by
  cases task with
  | persisting events next =>
      rw [World.runTransaction]
      split
      · refine ⟨rfl, ?_⟩
        rintro t ⟨⟩
        exact ⟨rfl, rfl⟩
      · cases reply <;>
        · refine ⟨rfl, ?_⟩
          rintro t ⟨⟩
          exact ⟨rfl, rfl⟩
  | checkpointing record =>
      cases reply <;>
      · refine ⟨rfl, ?_⟩
        rintro t ⟨⟩
        exact ⟨rfl, rfl⟩
  | _ =>
      refine ⟨rfl, ?_⟩
      rintro t ⟨⟩
      exact ⟨rfl, rfl⟩

/-! ## Every step -/

/-- The message is the next of its partition, which is assigned and not paused. -/
structure Polls (E : Env) (w : World) (msg : Message) (start : Nat) : Prop where
  positioned : w.position msg.partitionKey = some start
  logged : E.log msg.partitionKey msg.offset = some msg.value
  next : E.isNext msg.partitionKey start msg.offset = true
  unpaused : msg.partitionKey ∉ w.paused

/-- The world after a message is polled. -/
def World.polled (w : World) (msg : Message) : World :=
  { w with
    position := fun k => if k = msg.partitionKey then some (msg.offset + 1) else w.position k
    poller := .check
    tasks := w.tasks ++ [.handle msg]
    history := .polled msg :: w.history }

/-- The world after a revocation. -/
def World.revokedFrom (w : World) (partitions : List PartitionKey) : World :=
  { w with
    mapper := w.mapper.onRevoke partitions
    position := fun key => if key ∈ partitions then none else w.position key }

theorem pollMessage_cases (key : PartitionKey) (offset : Nat) : w.pollMessage E key offset = w ∨
    ∃ msg start, Polls E w msg start ∧ w.pollMessage E key offset = w.polled msg := by
  rw [World.pollMessage]
  split
  · rename_i start value hposition hlog
    split
    · rename_i hnext
      exact .inr ⟨⟨key.1, key.2, offset, value⟩, start, ⟨hposition, hlog, hnext.1, hnext.2⟩, rfl⟩
    · exact .inl rfl
  · exact .inl rfl

/-- What the other steps leave alone: they are about the poll thread, the checkpoints it reads, the
offsets in Kafka and the dead-letter topic. -/
structure Quiet (E : Env) (w v : World) : Prop where
  mapper : v.mapper = w.mapper
  position : v.position = w.position
  tasks : v.tasks = w.tasks
  history : v.history = w.history
  recorded : v.recorded = w.recorded
  raw : v.tables.raw = w.tables.raw
  checkpoint : ∀ key, v.checkpoint E key = w.checkpoint E key
  deadLetters : ∀ place ∈ w.deadLetters, place ∈ v.deadLetters

/-- What a step is. -/
inductive Stepped (E : Env) (w : World) : Input → World → Prop
  | quiet {input : Input} {v : World} : Quiet E w v → Stepped E w input v
  | flushes : Stepped E w .pollNothing { w with poller := .check, tasks := w.tasks ++ [.flush] }
  | polls {key : PartitionKey} {offset : Nat} {msg : Message} {start : Nat} :
      Polls E w msg start → Stepped E w (.pollMessage key offset) (w.polled msg)
  | revokes (partitions : List PartitionKey) : Stepped E w (.revoke partitions) (w.revokedFrom partitions)
  | assigns {low : Nat → Nat} {partitions : List Nat} {checkpoints : Dict Nat Nat}
      {seeks : List (PartitionKey × Nat)} : w.poller = .reconciling partitions checkpoints →
      reconcileAll E checkpoints w.committed low partitions = .ok seeks →
      Stepped E w (.reconcile low false) (w.assigned seeks)
  | runs {i : Nat} {task : Task} (clock : Clock) (reply : CommitReply) : w.tasks[i]? = some task →
      Stepped E w (.run i clock reply) (World.settle i (w.runTask E clock reply task))
  | transacts {i : Nat} {task : Task} (reply : DbReply) : w.tasks[i]? = some task →
      Stepped E w (.transact i reply) (World.settle i (w.runTransaction E reply task))
  | crashes : Stepped E w .crash w.restarted

theorem quiet_same {v : World} (hmapper : v.mapper = w.mapper) (hposition : v.position = w.position)
    (htasks : v.tasks = w.tasks) (hhistory : v.history = w.history) (hrecorded : v.recorded = w.recorded)
    (htables : v.tables = w.tables) (hdead : v.deadLetters = w.deadLetters) : Quiet E w v := by
  refine ⟨hmapper, hposition, htasks, hhistory, hrecorded, by rw [htables], ?_, ?_⟩
  · intro key
    rw [World.checkpoint, World.checkpoint, htables]
  · rw [hdead]
    exact fun _ hp => hp

theorem stepped (input : Input) : Stepped E w input (w.next E input) := by
  have hsame : Stepped E w input w := .quiet (quiet_same rfl rfl rfl rfl rfl rfl rfl)
  cases input with
  | pollNothing =>
      rw [World.next]
      split
      · exact .flushes
      · exact hsame
  | pollMessage key offset =>
      rw [World.next]
      split
      · rcases @pollMessage_cases E w key offset with h | ⟨msg, start, hpolls, h⟩
        · rw [h]
          exact hsame
        · rw [h]
          exact .polls hpolls
      · exact hsame
  | revoke partitions =>
      rw [World.next]
      split
      · exact .revokes partitions
      · exact hsame
  | assign partitions =>
      rw [World.next]
      split
      · split
        · exact hsame
        · exact .quiet (quiet_same rfl rfl rfl rfl rfl rfl rfl)
      · exact hsame
  | readCheckpoints reply =>
      rw [World.next]
      split
      · rename_i partitions _
        obtain ⟨hraw, -, -, hcheck, -⟩ := @readPartitionCheckpoints_spec E.epoch w.tables E.topic partitions
        cases reply with
        | committed =>
            exact .quiet ⟨rfl, rfl, rfl, rfl, rfl, hraw, fun key => congrFun (congrFun hcheck E.epoch) key,
              fun _ hp => hp⟩
        | rolledBack => exact .quiet (quiet_same rfl rfl rfl rfl rfl rfl rfl)
        | unanswered =>
            exact .quiet ⟨rfl, rfl, rfl, rfl, rfl, hraw, fun key => congrFun (congrFun hcheck E.epoch) key,
              fun _ hp => hp⟩
      · exact hsame
  | reconcile low raises =>
      rw [World.next]
      split
      · rename_i hpoller
        split
        · exact .quiet (quiet_same rfl rfl rfl rfl rfl rfl rfl)
        · rename_i hgoes
          rw [Bool.eq_false_iff.mpr hgoes]
          split
          · exact .quiet (quiet_same rfl rfl rfl rfl rfl rfl rfl)
          · rename_i hseeks
            exact .assigns hpoller hseeks
      · exact hsame
  | run i clock reply =>
      rw [World.next]
      split
      · rename_i htask
        exact .runs clock reply htask
      · exact hsame
  | transact i reply =>
      rw [World.next]
      split
      · rename_i htask
        exact .transacts reply htask
      · exact hsame
  | deadLetter key offset =>
      refine .quiet ⟨rfl, rfl, rfl, rfl, rfl, rfl, fun _ => rfl, ?_⟩
      exact fun _ hp => List.mem_cons_of_mem _ hp
  | crash => exact .crashes
  | _ =>
      rw [World.next]
      split
      · exact .quiet (quiet_same rfl rfl rfl rfl rfl rfl rfl)
      · exact hsame

theorem stepped_next (input : Input) : ∃ v, w.next E input = v ∧ Stepped E w input v :=
  ⟨_, rfl, stepped input⟩

end Frames

/-! ## A record that is consumed alone -/

section Alone

variable {E : Env} {w : World} {offset : Nat}

/-- The poll thread is about to poll an offset, and nothing else waits. -/
structure World.Waits (w : World) (offset : Nat) : Prop where
  poller : w.poller = .poll
  position : w.position (plantTopic, 0) = some offset
  paused : w.paused = []
  tasks : w.tasks = []
  idle : w.mapper.batchInFlight = false
  collector : w.mapper.collector = .empty

/-- The event of the polled message is in a batch that its task is to persist. -/
def World.taken (w : World) (msg : Message) (e : CollectedEvent) : World :=
  { w with
    mapper := { w.mapper with batchInFlight := true }
    position := fun k => if k = (msg.topic, msg.partition) then some (msg.offset + 1) else w.position k
    poller := .check
    tasks := [.persisting [e] .finished]
    history := .polled msg :: w.history }

/-- The batch is persisted and committed. -/
def World.consumed (w : World) (msg : Message) (e : CollectedEvent) (t : Tables)
    (result : BatchPersistResult) : World :=
  { w with
    tables := t
    committed := fun key => ((w.mapper.recordSqlSuccess result).get? key).or (w.committed key)
    position := fun k => if k = (msg.topic, msg.partition) then some (msg.offset + 1) else w.position k
    poller := .check
    history := .polled msg :: w.history
    recorded := e.place :: w.recorded }

theorem isNext_self {key : PartitionKey} {value : Option Bytes} (h : E.log key offset = some value) :
    E.isNext key offset offset = true := by
  rw [Env.isNext, h]
  simp

theorem next_polls (hw : w.Waits offset) {value : Option Bytes}
    (hlog : E.log (plantTopic, 0) offset = some value) :
    w.next E (.pollMessage (plantTopic, 0) offset) = w.polled ⟨plantTopic, 0, offset, value⟩ := by
  simp [World.next, World.pollMessage, hw.poller, hw.position, hlog, isNext_self hlog, hw.paused,
    World.polled, Message.partitionKey]
  rfl

theorem tryAdd_empty {e : CollectedEvent} (hone : E.limits.maxEvents = 1)
    (hbytes : e.envelopeBytes.length ≤ E.limits.maxBytes) :
    BatchCollector.empty.tryAdd E.limits e 0 = (⟨[e], e.envelopeBytes.length, some 0⟩, true) := by
  simp [BatchCollector.tryAdd, BatchCollector.empty, hone, hbytes]

/-- A batch of one event is full at once. -/
theorem handleMessage_fills {m : Mapper} {msg : Message} {e : CollectedEvent} (he : msg.IsEvent E e)
    (hone : E.limits.maxEvents = 1) (hbytes : e.envelopeBytes.length ≤ E.limits.maxBytes)
    (hidle : m.batchInFlight = false) (hempty : m.collector = .empty) :
    m.handleMessage E (fun _ => 0) msg =
      ({ m with batchInFlight := true }, some (.persisting [e] .finished)) := by
  have hbuffer : m.tryBufferMessage E msg 0 =
      .ok ({ m with collector := (m.collector.tryAdd E.limits e 0).1 },
        ⟨some e, none, !(m.collector.tryAdd E.limits e 0).2⟩) := by
    obtain ⟨legacy, hread, hevent⟩ := he
    rw [Mapper.tryBufferMessage, hread]
    simp only [hevent]
  have hadd := tryAdd_empty hone hbytes
  have hwaits : BatchCollector.isFull E.limits .empty 0 = false := rfl
  have hfull : BatchCollector.isFull E.limits ⟨[e], e.envelopeBytes.length, some 0⟩ 0 = true := by
    simp [BatchCollector.isFull, hone]
  simp [Mapper.handleMessage, Mapper.shouldPauseForBackpressure, hidle, hempty, hwaits,
    Mapper.bufferMessage, hbuffer, hadd, hfull, Mapper.maybeFlush]

/-- An event that fills a batch is polled and taken. -/
theorem run_taken (hw : w.Waits offset) {value : Option Bytes} {e : CollectedEvent}
    (hlog : E.log (plantTopic, 0) offset = some value)
    (he : Message.IsEvent E ⟨plantTopic, 0, offset, value⟩ e) (hone : E.limits.maxEvents = 1)
    (hbytes : e.envelopeBytes.length ≤ E.limits.maxBytes) :
    w.run E [.pollMessage (plantTopic, 0) offset, .run 0 (fun _ => 0) .done] =
      w.taken ⟨plantTopic, 0, offset, value⟩ e := by
  simp [World.run, World.next, World.pollMessage, hw.poller, hw.position, hlog, isNext_self hlog,
    hw.paused, hw.tasks, World.settle, World.runTask, World.withMapper,
    handleMessage_fills he hone hbytes hw.idle hw.collector, World.taken]

/-- A batch that was taken is persisted and committed. -/
theorem run_persisted (hw : w.Waits offset) {msg : Message} {e : CollectedEvent} {t : Tables}
    {result : BatchPersistResult}
    (hp : persistBatch E.setting E.epoch [e.toConsumedEvent] w.tables = .ok (t, result)) :
    (w.taken msg e).run E
      [.transact 0 .committed, .run 0 (fun _ => 0) .done, .run 0 (fun _ => 0) .done] =
      w.consumed msg e t result := by
  have hmapper : w.mapper = ⟨.empty, w.mapper.ownedPartitions, w.mapper.revoked,
      w.mapper.ownershipActive, false⟩ := by
    rw [← hw.collector, ← hw.idle]
  rw [World.consumed, hmapper]
  simp [World.run, World.next, World.taken, World.settle, World.runTask, World.withMapper,
    hw.paused, hw.tasks, hw.collector, World.runTransaction, hp, Mapper.resume, World.resumeOwned,
    World.commitKafka, World.record, Mapper.recordSqlSuccess]

/-- An event that fills a batch is polled, persisted and committed. -/
theorem run_consumeOne (hw : w.Waits offset) {value : Option Bytes} {e : CollectedEvent} {t : Tables}
    {result : BatchPersistResult} (hlog : E.log (plantTopic, 0) offset = some value)
    (he : Message.IsEvent E ⟨plantTopic, 0, offset, value⟩ e) (hone : E.limits.maxEvents = 1)
    (hbytes : e.envelopeBytes.length ≤ E.limits.maxBytes)
    (hp : persistBatch E.setting E.epoch [e.toConsumedEvent] w.tables = .ok (t, result)) :
    w.run E (consumeOne offset) = w.consumed ⟨plantTopic, 0, offset, value⟩ e t result := by
  rw [← run_persisted hw hp, ← run_taken hw hlog he hone hbytes]
  rfl

/-- The poll thread is at the next offset. -/
theorem World.Waits.consumed (hw : w.Waits offset) (value : Option Bytes) (e : CollectedEvent)
    (t : Tables) (result : BatchPersistResult) {now : ℤ} :
    ((w.consumed ⟨plantTopic, 0, offset, value⟩ e t result).next E (.check now)).Waits (offset + 1) := by
  have hidle : w.mapper.shouldPauseForBackpressure E.limits now = false := by
    rw [Mapper.shouldPauseForBackpressure, hw.idle, hw.collector]
    rfl
  have hposition : (w.consumed ⟨plantTopic, 0, offset, value⟩ e t result).position (plantTopic, 0) =
      some (offset + 1) := by simp [World.consumed]
  refine ⟨rfl, hposition, ?_, hw.tasks, hw.idle, hw.collector⟩
  show (if w.mapper.shouldPauseForBackpressure E.limits now then _ else w.paused) = []
  rw [hidle]
  exact hw.paused

/-- The sample as the event of an offset. -/
def sampleEvent (offset : Nat) (timestamp : Int) : CollectedEvent where
  kafkaTopic := plantTopic
  partition := 0
  offset := offset
  envelope := telemetrySample Datetime newYear2026 timestamp
  eventId := firstId
  hasId := rfl
  envelopeBytes := encoded (telemetrySample Datetime newYear2026 timestamp)

theorem length_encoded_le (e : HistoricEventEnvelope) : (encoded e).length ≤ maxEnvelopeBytes := by
  rw [encoded]
  cases h : encodeEvent cpython e with
  | error raised => exact Nat.zero_le _
  | ok data =>
      simp only [encodeEvent, bind_eq_ok, require_eq_ok, decide_eq_true_eq] at h
      obtain ⟨-, -, -, -, b, -, -, hsize, hb⟩ := h
      cases hb
      exact hsize

theorem envelopeBytes_sampleEvent (offset : Nat) (timestamp : Int) :
    (sampleEvent offset timestamp).envelopeBytes = encoded (telemetrySample Datetime newYear2026 timestamp) := rfl

/-- A sample fits in a batch. -/
theorem length_sampleEvent_le (offset : Nat) (timestamp : Int) :
    (sampleEvent offset timestamp).envelopeBytes.length ≤ 4194304 :=
  (length_encoded_le _).trans (by decide)

theorem isEvent_sampleEvent (offset : Nat) {timestamp : Int} (ht : |timestamp| < 100000000000)
    (hp : Portable cpython (telemetrySample Datetime newYear2026 timestamp)) (hlim : E.setting.lim = cpython) :
    Message.IsEvent E ⟨plantTopic, 0, offset, some (sampleEvent offset timestamp).envelopeBytes⟩
      (sampleEvent offset timestamp) := by
  obtain ⟨b, hb, hdecode⟩ := decodes_telemetrySample ht hp
  have hbytes : encoded (telemetrySample Datetime newYear2026 timestamp) = b := by
    rw [encoded, hb]
  refine ⟨telemetrySample Datetime newYear2026 timestamp, ?_, rfl⟩
  rw [hlim, readRecord]
  show (decodeEvent cpython (encoded _) >>= asLegacyTelemetry) = _
  rw [hbytes, hdecode]
  rfl

theorem log_plantEnv (limits : BatchLimits) (values : List Bytes) (offset : Nat) :
    (plantEnv limits values).log (plantTopic, 0) offset = values[offset]?.map some := by
  simp [plantEnv]

/-- A sample of the plant's topic is polled, persisted and committed. -/
theorem run_sampleEvent (hw : w.Waits offset) {limits : BatchLimits} {values : List Bytes}
    {timestamp : Int} (hvalue : values[offset]? = some (encoded (telemetrySample Datetime newYear2026 timestamp)))
    (ht : |timestamp| < 100000000000) (hportable : Portable cpython (telemetrySample Datetime newYear2026 timestamp))
    (hone : limits.maxEvents = 1) (hbytes : (sampleEvent offset timestamp).envelopeBytes.length ≤ limits.maxBytes)
    {t : Tables} {result : BatchPersistResult}
    (hp : persistBatch openSetting 1 [(sampleEvent offset timestamp).toConsumedEvent] w.tables =
      .ok (t, result)) :
    w.run (plantEnv limits values) (consumeOne offset) =
      w.consumed ⟨plantTopic, 0, offset, some (sampleEvent offset timestamp).envelopeBytes⟩
        (sampleEvent offset timestamp) t result := by
  have hlog : (plantEnv limits values).log (plantTopic, 0) offset =
      some (some (sampleEvent offset timestamp).envelopeBytes) := by
    rw [log_plantEnv, hvalue]
    rfl
  exact run_consumeOne hw hlog (isEvent_sampleEvent offset ht hportable rfl) hone hbytes hp

theorem exists_of_toOption {ε α β : Type} {x : Except ε α} {f : α → Option β} {b : β}
    (h : x.toOption.bind f = some b) : ∃ a, x = .ok a ∧ f a = some b := by
  cases x with
  | error e => cases h
  | ok a => exact ⟨a, rfl, h⟩

theorem isStart_first : World.first.IsStart := ⟨fun _ => rfl, rfl, rfl⟩

theorem run_append (inputs more : List Input) : w.run E (inputs ++ more) = (w.run E inputs).run E more :=
  List.foldl_append

theorem waits_assignPlant (limits : BatchLimits) (values : List Bytes) :
    (World.first.run (plantEnv limits values) assignPlant).Waits 0 :=
  ⟨rfl, rfl, rfl, rfl, rfl, rfl⟩

end Alone

end Uns.Historian
