/-
# `Historian.Batch` — one transaction of the historian

`batch.py` and `persist_batch` of `historian_handler.py`: the events of a batch
are sorted, expanded into rows, and in one transaction filtered against the
checkpoints, compared with what is stored, inserted, and their offsets advanced.

The tables are `Tables`, with the constraints the migration puts on them: a raw
row is found by its time and event id, a checkpoint by epoch, topic and partition,
a worklist entry by its day.  What the database and the interpreter decide is in
`Setting`: which rows an insert refuses, the limits of the JSON encoder, and the
frames left for the generators.  An exception is a result without tables, so the
transaction it leaves is rolled back.
-/
import UnifiedNamespace.Historian.Metrics
import UnifiedNamespace.Lib.Dict
import UnifiedNamespace.Lib.Effect

namespace Uns.Historian

open Py Lib

/-! ## Rows -/

/-- A topic and a partition of it. -/
abbrev PartitionKey := Str × Nat

/-- A decoded record with its place in the log; the envelope has a string for its id. -/
structure ConsumedEvent where
  kafkaTopic : Str
  partition : Nat
  offset : Nat
  envelope : HistoricEventEnvelope
  eventId : Str
  hasId : envelope.eventId = .str eventId

def ConsumedEvent.partitionKey (e : ConsumedEvent) : PartitionKey := (e.kafkaTopic, e.partition)

/-- What a raw row identifies itself by: `unique_historic_event`. -/
abbrev EventKey := Datetime × Str

/-- The columns of `public.unifiednamespace`. -/
structure RawColumns where
  time : Datetime
  topic : Json
  clientId : Option Str
  mqttMsg : List (Str × Json)
  eventId : Str
  identityQuality : Json
  receivedAt : Datetime
  eventKind : Json
  isHistorical : Json
  siteId : Json
  sourceId : Json
  sourceBootId : Json
  sourceSequence : Json
  timestampQuality : Json
  immutableContentHash : Str

def RawColumns.key (c : RawColumns) : EventKey := (c.time, c.eventId)

structure RawInsertRow extends RawColumns where
  kafkaTopic : Str
  partition : Nat
  offset : Nat

def RawInsertRow.partitionKey (r : RawInsertRow) : PartitionKey := (r.kafkaTopic, r.partition)

structure MetricInsertRow where
  time : Datetime
  topic : Json
  metricName : Str
  valueDouble : Option PyFloat
  valueText : Option Str
  eventId : Str

structure Setting where
  lim : Limits
  frames : Nat
  maxMetricRows : Nat
  refusesRaw : RawColumns → Bool
  refusesMetric : MetricInsertRow → Bool

inductive PersistRaised where
  | event (e : Raised)
  | metric (e : MetricRaised)
  | database
  deriving DecidableEq

def rawRowFromEvent (S : Setting) (e : ConsumedEvent) : Except PersistRaised RawInsertRow :=
  match immutableContentHash S.lim e.envelope with
  | .error raised => .error (.event raised)
  | .ok hash =>
      .ok {
        time := e.envelope.time
        topic := e.envelope.topic
        clientId := none
        mqttMsg := e.envelope.payload
        eventId := e.eventId
        identityQuality := e.envelope.identityQuality
        receivedAt := e.envelope.receivedAt
        eventKind := e.envelope.eventKind
        isHistorical := e.envelope.isHistorical
        siteId := e.envelope.siteId
        sourceId := e.envelope.sourceId
        sourceBootId := e.envelope.sourceBootId
        sourceSequence := e.envelope.sourceSequence
        timestampQuality := e.envelope.timestampQuality
        immutableContentHash := hash
        kafkaTopic := e.kafkaTopic
        partition := e.partition
        offset := e.offset }

def metricInsertRow (r : RawInsertRow) (m : MetricRow) : MetricInsertRow where
  time := r.time
  topic := r.topic
  metricName := m.name
  valueDouble := m.valueDouble
  valueText := m.valueText
  eventId := r.eventId

def expansionText (S : Setting) (r : RawInsertRow) : Str :=
  limitText S.maxMetricRows ++ lit " for " ++ r.eventId

/-- The loop of `build_metric_rows` over the generator. -/
def collectRows (S : Setting) (r : RawInsertRow) (rows : List MetricInsertRow) :
    Yields → Except PersistRaised (List MetricInsertRow)
  | [] => .ok rows
  | .error e :: _ => .error (.metric e)
  | .ok m :: rest =>
      if S.maxMetricRows ≤ rows.length then .error (.metric (.expansionLimit (expansionText S r)))
      else collectRows S r (rows ++ [metricInsertRow r m]) rest

def buildMetricRows (S : Setting) (r : RawInsertRow) : Except PersistRaised (List MetricInsertRow) :=
  if !eqStr r.eventKind (lit "telemetry") then .ok []
  else
    collectRows S r []
      (iterPayloadMetrics S.frames (.obj r.mqttMsg) [] (some (S.maxMetricRows + 1)))

/-! ## Offsets -/

/-- The loop of `compute_next_offset` over the sorted offsets. -/
def advanceOver (next : Nat) : List Nat → Nat
  | [] => next
  | offset :: rest =>
      if offset < next then advanceOver next rest
      else if offset = next then advanceOver (offset + 1) rest
      else next

/-- Advance only across a contiguous prefix starting at the checkpoint. -/
def computeNextOffset (checkpointNext : Nat) (handledOffsets : List Nat) : Nat :=
  advanceOver checkpointNext (handledOffsets.insertionSort (· ≤ ·))

/-- The key the batch is sorted by: topic, partition, offset. -/
def ConsumedEvent.le (a b : ConsumedEvent) : Prop :=
  a.kafkaTopic < b.kafkaTopic ∨ a.kafkaTopic = b.kafkaTopic ∧
    (a.partition < b.partition ∨ a.partition = b.partition ∧ a.offset ≤ b.offset)

instance : DecidableRel ConsumedEvent.le := fun _ _ => inferInstanceAs (Decidable (_ ∨ _))

instance : LawfulBEq (PartitionKey × Nat) := inferInstance

def PartitionKey.le (a b : PartitionKey) : Prop := a.1 < b.1 ∨ a.1 = b.1 ∧ a.2 ≤ b.2

instance : DecidableRel PartitionKey.le := fun _ _ => inferInstanceAs (Decidable (_ ∨ _))

def sortedPartitionKeys (events : List ConsumedEvent) : List PartitionKey :=
  (events.map ConsumedEvent.partitionKey).dedup.insertionSort PartitionKey.le

def utcDay (t : Datetime) : Date := t.date

/-! ## Tables -/

/-- A row of `historian.late_refresh_worklist`, with its check. -/
structure Generations where
  pending : Nat
  processed : Nat
  ordered : processed ≤ pending

def Generations.bump (g : Generations) : Generations :=
  ⟨g.pending + 1, g.processed, Nat.le_succ_of_le g.ordered⟩

structure Tables where
  raw : Dict EventKey RawColumns
  metrics : List MetricInsertRow
  checkpoints : Dict (Nat × PartitionKey) Nat
  worklist : Dict Date Generations

/-- The next offset of a partition; a partition without a row starts at 0. -/
def Tables.checkpoint (t : Tables) (epoch : Nat) (key : PartitionKey) : Nat :=
  (t.checkpoints.get? (epoch, key)).getD 0

/-- A day the refresh worker has still to process. -/
def Tables.Pending (t : Tables) (day : Date) : Prop :=
  ∃ g, t.worklist.get? day = some g ∧ g.processed < g.pending

/-- `_CHECKPOINT_ENSURE`. -/
def ensureCheckpoint (epoch : Nat) (t : Tables) (key : PartitionKey) : Tables :=
  { t with checkpoints := t.checkpoints.update (epoch, key) 0 id }

/-- `_LATE_REFRESH_BUMP`. -/
def bumpLate (t : Tables) (day : Date) : Tables :=
  { t with worklist := t.worklist.update day ⟨0, 0, le_rfl⟩ Generations.bump }

/-- `_CHECKPOINT_ADVANCE`. -/
def advanceCheckpoint (epoch : Nat) (t : Tables) (key : PartitionKey) (nextOffset : Nat) : Tables :=
  { t with
    checkpoints := t.checkpoints.update (epoch, key) 0 fun old =>
      if old ≤ nextOffset then nextOffset else old }

/-- The rows of `_RAW_BATCH_INSERT` one after another, `ON CONFLICT DO NOTHING`; with them
the rows that were inserted, which are the ones returned. -/
def insertRaw (raw : Dict EventKey RawColumns) :
    List RawInsertRow → Dict EventKey RawColumns × List RawInsertRow
  | [] => (raw, [])
  | r :: rows =>
      match raw.get? r.key with
      | some _ => insertRaw raw rows
      | none =>
          let rest := insertRaw (raw.update r.key r.toRawColumns id) rows
          (rest.1, r :: rest.2)

/-! ## The transaction -/

structure ContentConflictError where
  eventId : Str
  existingHash : Str
  incomingHash : Str

def ContentConflictError.text (e : ContentConflictError) : Str :=
  lit "content conflict for " ++ e.eventId ++ lit ": existing=" ++ e.existingHash ++
    lit " incoming=" ++ e.incomingHash

structure BatchPersistResult where
  insertedCount : Nat
  duplicateCount : Nat
  filteredStaleCount : Nat
  quarantinedConflicts : List ContentConflictError
  nextOffsets : Dict PartitionKey Nat

def BatchPersistResult.empty : BatchPersistResult := ⟨0, 0, 0, [], .empty⟩

/-- What the loop over the rows has sorted them into. -/
structure Sifted where
  accepted : List RawInsertRow
  handled : Dict PartitionKey (List Nat)
  filteredStaleCount : Nat
  duplicateCount : Nat
  quarantined : List ContentConflictError

def Sifted.start : Sifted := ⟨[], .empty, 0, 0, []⟩

/-- `handled_by_partition.setdefault(partition_key, []).append(raw_row.offset)`. -/
def Sifted.handle (s : Sifted) (r : RawInsertRow) : Sifted :=
  { s with handled := s.handled.update r.partitionKey [] (· ++ [r.offset]) }

/-- The body of the loop, with the checkpoints as locked. -/
def Sifted.step (raw : Dict EventKey RawColumns) (locked : PartitionKey → Nat) (s : Sifted)
    (r : RawInsertRow) : Sifted :=
  if r.offset < locked r.partitionKey then
    { s with filteredStaleCount := s.filteredStaleCount + 1 }
  else
    match raw.get? r.key with
    | some existing =>
        if existing.immutableContentHash ≠ r.immutableContentHash then
          { s.handle r with
            quarantined := s.quarantined ++
              [⟨r.eventId, existing.immutableContentHash, r.immutableContentHash⟩] }
        else { s.handle r with duplicateCount := s.duplicateCount + 1 }
    | none => { s.handle r with accepted := s.accepted ++ [r] }

/-- `row["event_kind"] == "telemetry" and row["is_historical"]`. -/
def RawColumns.isLate (c : RawColumns) : Bool :=
  eqStr c.eventKind (lit "telemetry") && truthy c.isHistorical

/-- The inserts, under `if accepted_rows`. -/
def insertAccepted (S : Setting) (accepted : List RawInsertRow) (metricRows : List MetricInsertRow)
    (t : Tables) : Except PersistRaised (Tables × List RawInsertRow) :=
  if accepted.any fun r => S.refusesRaw r.toRawColumns then .error .database
  else
    let inserted := insertRaw t.raw accepted
    let insertedIds := inserted.2.map (·.eventId)
    let payload := metricRows.filter fun m => m.eventId ∈ insertedIds
    if payload.any S.refusesMetric then .error .database
    else
      let late := (inserted.2.filter fun r => r.isLate).map fun r => utcDay r.time
      .ok (late.foldl bumpLate { t with raw := inserted.1, metrics := t.metrics ++ payload },
        inserted.2)

/-- The loop over `handled_by_partition`. -/
def advanceAll (epoch : Nat) (locked : PartitionKey → Nat) :
    List (PartitionKey × List Nat) → Tables × Dict PartitionKey Nat → Tables × Dict PartitionKey Nat
  | [], out => out
  | (key, offsets) :: rest, out =>
      let advanced := computeNextOffset (locked key) offsets
      if locked key < advanced then
        advanceAll epoch locked rest
          (advanceCheckpoint epoch out.1 key advanced, out.2.update key advanced id)
      else advanceAll epoch locked rest out

/-- The body of `async with self._database.begin()`. -/
def transact (S : Setting) (epoch : Nat) (keys : List PartitionKey) (rawRows : List RawInsertRow)
    (metricRows : List MetricInsertRow) (t : Tables) : Except PersistRaised (Tables × BatchPersistResult) := do
  let ensured := keys.foldl (ensureCheckpoint epoch) t
  let locked := ensured.checkpoint epoch
  let sifted := rawRows.foldl (Sifted.step ensured.raw locked) .start
  let inserted ← insertAccepted S sifted.accepted metricRows ensured
  let advanced := advanceAll epoch locked sifted.handled.entries (inserted.1, .empty)
  .ok (advanced.1, {
    insertedCount := (inserted.2.map (·.eventId)).dedup.length
    duplicateCount := sifted.duplicateCount + (sifted.accepted.length - inserted.2.length)
    filteredStaleCount := sifted.filteredStaleCount
    quarantinedConflicts := sifted.quarantined
    nextOffsets := advanced.2 })

def persistBatch (S : Setting) (epoch : Nat) (events : List ConsumedEvent) (t : Tables) :
    Except PersistRaised (Tables × BatchPersistResult) :=
  if events = [] then .ok (t, .empty)
  else do
    let sortedEvents := events.insertionSort ConsumedEvent.le
    let rawRows ← sortedEvents.mapM (rawRowFromEvent S)
    let metricRows ← rawRows.mapM (buildMetricRows S)
    transact S epoch (sortedPartitionKeys sortedEvents) rawRows metricRows.flatten t

/-! ## Offsets advance -/

theorem le_advanceOver (next : Nat) (offsets : List Nat) : next ≤ advanceOver next offsets := by
  induction offsets generalizing next with
  | nil => exact le_rfl
  | cons o rest ih =>
      rw [advanceOver]
      split
      · exact ih next
      · split
        · rename_i h
          exact le_trans (by omega) (ih (o + 1))
        · exact le_rfl

theorem le_computeNextOffset (next : Nat) (offsets : List Nat) :
    next ≤ computeNextOffset next offsets := le_advanceOver _ _

theorem computeNextOffset_nil (next : Nat) : computeNextOffset next [] = next := rfl

/-! ## What the statements leave alone -/

section Statements

variable {epoch : Nat} {t : Tables}

theorem checkpoint_ensure (e : Nat) (key k : PartitionKey) :
    (ensureCheckpoint epoch t key).checkpoint e k = t.checkpoint e k := by
  simp only [ensureCheckpoint, Tables.checkpoint]
  by_cases h : (e, k) = (epoch, key)
  · rw [h, Dict.get?_update_self]
    rfl
  · rw [Dict.get?_update_ne _ _ _ h]

/-- Ensuring rows changes no checkpoint and no other table. -/
theorem ensureAll_spec (keys : List PartitionKey) :
    let t' := keys.foldl (ensureCheckpoint epoch) t
    t'.raw = t.raw ∧ t'.metrics = t.metrics ∧ t'.worklist = t.worklist ∧
      t'.checkpoint = t.checkpoint := by
  induction keys generalizing t with
  | nil => exact ⟨rfl, rfl, rfl, rfl⟩
  | cons key keys ih =>
      obtain ⟨hraw, hmetrics, hwork, hcheck⟩ := ih (t := ensureCheckpoint epoch t key)
      refine ⟨hraw, hmetrics, hwork, ?_⟩
      rw [List.foldl_cons, hcheck]
      funext e k
      exact checkpoint_ensure e key k

theorem bumpAll_spec (days : List Date) :
    let t' := days.foldl bumpLate t
    t'.raw = t.raw ∧ t'.metrics = t.metrics ∧ t'.checkpoints = t.checkpoints := by
  induction days generalizing t with
  | nil => exact ⟨rfl, rfl, rfl⟩
  | cons day days ih => exact ih (t := bumpLate t day)

theorem checkpoint_advance {key : PartitionKey} {next : Nat} (h : t.checkpoint epoch key ≤ next) :
    (advanceCheckpoint epoch t key next).checkpoint epoch key = next := by
  simp only [advanceCheckpoint, Tables.checkpoint, Dict.get?_update_self, Option.getD_some]
  exact if_pos h

theorem checkpoint_advance_ne {key : PartitionKey} {next e : Nat} {k : PartitionKey}
    (h : (e, k) ≠ (epoch, key)) :
    (advanceCheckpoint epoch t key next).checkpoint e k = t.checkpoint e k := by
  simp only [advanceCheckpoint, Tables.checkpoint]
  rw [Dict.get?_update_ne _ _ _ h]

end Statements

/-- The loop over the handled offsets moves each checkpoint of the epoch from where it was
locked to the offset computed for it. -/
theorem advanceAll_spec {epoch : Nat} {locked : PartitionKey → Nat}
    {es : List (PartitionKey × List Nat)} {out : Tables × Dict PartitionKey Nat}
    (hn : (es.map Prod.fst).Nodup) (hl : ∀ key ∈ es.map Prod.fst, out.1.checkpoint epoch key = locked key) :
    let t' := (advanceAll epoch locked es out).1
    t'.raw = out.1.raw ∧ t'.metrics = out.1.metrics ∧ t'.worklist = out.1.worklist ∧
      (∀ e ≠ epoch, t'.checkpoint e = out.1.checkpoint e) ∧
      ∀ key, t'.checkpoint epoch key =
        ((lookup key es).map (computeNextOffset (locked key))).getD (out.1.checkpoint epoch key) := by
  induction es generalizing out with
  | nil => exact ⟨rfl, rfl, rfl, fun _ _ => rfl, fun _ => rfl⟩
  | cons entry rest ih =>
      obtain ⟨k, offsets⟩ := entry
      rw [List.map_cons, List.nodup_cons] at hn
      have hk : out.1.checkpoint epoch k = locked k := hl k List.mem_cons_self
      have hfresh : lookup k rest = none := by
        have h := Dict.get?_eq_none (d := ⟨rest, hn.2⟩) (k := k)
        exact h.mpr hn.1
      rw [advanceAll]
      dsimp only
      split
      · rename_i hlt
        have hrest : ∀ key ∈ rest.map Prod.fst,
            (advanceCheckpoint epoch out.1 k (computeNextOffset (locked k) offsets)).checkpoint epoch key =
              locked key := by
          intro key hkey
          have hne : (epoch, key) ≠ (epoch, k) := by
            intro h
            cases h
            exact hn.1 hkey
          rw [checkpoint_advance_ne hne]
          exact hl key (List.mem_cons_of_mem _ hkey)
        obtain ⟨h1, h2, h3, h4, h5⟩ := @ih (advanceCheckpoint epoch out.1 k _, _) hn.2 hrest
        refine ⟨h1, h2, h3, ?_, ?_⟩
        · intro e he
          rw [h4 e he]
          funext key
          refine checkpoint_advance_ne ?_
          intro h
          exact he (congrArg Prod.fst h)
        · intro key
          rw [h5 key, lookup]
          by_cases hkey : k = key
          · subst hkey
            rw [hfresh, if_pos rfl]
            exact checkpoint_advance (hk ▸ hlt.le)
          · rw [if_neg hkey]
            congr 1
            refine checkpoint_advance_ne ?_
            intro h
            exact hkey (congrArg Prod.snd h).symm
      · rename_i hle
        obtain ⟨h1, h2, h3, h4, h5⟩ :=
          @ih out hn.2 fun key hkey => hl key (List.mem_cons_of_mem _ hkey)
        refine ⟨h1, h2, h3, h4, ?_⟩
        intro key
        rw [h5 key, lookup]
        by_cases hkey : k = key
        · subst hkey
          rw [hfresh, if_pos rfl]
          change out.1.checkpoint epoch k = computeNextOffset (locked k) offsets
          rw [hk]
          exact le_antisymm (le_computeNextOffset _ _) (not_lt.mp hle)
        · rw [if_neg hkey]

/-! ## Inserting -/

section Insert

variable {raw : Dict EventKey RawColumns}

theorem insertRaw_append (a b : List RawInsertRow) :
    insertRaw raw (a ++ b) = ((insertRaw (insertRaw raw a).1 b).1,
      (insertRaw raw a).2 ++ (insertRaw (insertRaw raw a).1 b).2) := by
  induction a generalizing raw with
  | nil => rfl
  | cons r a ih =>
      rw [List.cons_append, insertRaw, insertRaw]
      split
      · exact ih
      · dsimp only
        rw [ih]
        rfl

/-- A stored row stays as it is. -/
theorem insertRaw_get?_of_some {rows : List RawInsertRow} {k : EventKey} {c : RawColumns}
    (h : raw.get? k = some c) : (insertRaw raw rows).1.get? k = some c := by
  induction rows generalizing raw with
  | nil => exact h
  | cons r rows ih =>
      rw [insertRaw]
      split
      · exact ih h
      · rename_i hnone
        refine ih ?_
        rw [Dict.get?_update_ne _ _ _ ?_]
        · exact h
        · rintro rfl
          rw [h] at hnone
          cases hnone

theorem insertRaw_none_iff {rows : List RawInsertRow} {k : EventKey} :
    (insertRaw raw rows).1.get? k = none ↔ raw.get? k = none ∧ ∀ r ∈ rows, r.key ≠ k := by
  induction rows generalizing raw with
  | nil => simp [insertRaw]
  | cons r rows ih =>
      rw [insertRaw, List.forall_mem_cons]
      cases hr : raw.get? r.key with
      | some c =>
          dsimp only
          rw [ih]
          constructor
          · rintro ⟨hk, hrest⟩
            refine ⟨hk, ?_, hrest⟩
            rintro rfl
            rw [hr] at hk
            cases hk
          · rintro ⟨hk, -, hrest⟩
            exact ⟨hk, hrest⟩
      | none =>
          dsimp only
          rw [ih]
          by_cases hk : r.key = k
          · subst hk
            rw [Dict.get?_update_self]
            simp
          · rw [Dict.get?_update_ne _ _ _ fun h => hk h.symm]
            simp [hk]

/-- The rows returned are rows of the list under keys that were free, one for each key. -/
theorem insertRaw_returned (rows : List RawInsertRow) :
    ((insertRaw raw rows).2).Sublist rows ∧
      (∀ r ∈ (insertRaw raw rows).2, raw.get? r.key = none) ∧
      ((insertRaw raw rows).2.map fun r => r.key).Nodup := by
  induction rows generalizing raw with
  | nil => exact ⟨.slnil, by simp [insertRaw], List.nodup_nil⟩
  | cons r rows ih =>
      rw [insertRaw]
      split
      · obtain ⟨hsub, hfree, hnodup⟩ := @ih raw
        exact ⟨hsub.cons r, hfree, hnodup⟩
      · rename_i hr
        obtain ⟨hsub, hfree, hnodup⟩ := @ih (raw.update r.key r.toRawColumns id)
        have hne : ∀ q ∈ (insertRaw (raw.update r.key r.toRawColumns id) rows).2, q.key ≠ r.key := by
          intro q hq heq
          have hnone := hfree q hq
          rw [heq, Dict.get?_update_self] at hnone
          cases hnone
        refine ⟨hsub.cons_cons r, ?_, ?_⟩
        · rw [List.forall_mem_cons]
          refine ⟨hr, fun q hq => ?_⟩
          have hnone := hfree q hq
          rwa [Dict.get?_update_ne _ _ _ (hne q hq)] at hnone
        · rw [List.map_cons, List.nodup_cons]
          refine ⟨?_, hnodup⟩
          rintro hmem
          obtain ⟨q, hq, heq⟩ := List.mem_map.mp hmem
          exact hne q hq heq

/-- What is stored under a key after the insert. -/
theorem insertRaw_get? (rows : List RawInsertRow) (k : EventKey) :
    (insertRaw raw rows).1.get? k =
      (raw.get? k).or (((insertRaw raw rows).2.find? fun r => r.key = k).map (·.toRawColumns)) := by
  induction rows generalizing raw with
  | nil =>
      change raw.get? k = (raw.get? k).or none
      rw [Option.or_none]
  | cons r rows ih =>
      rw [insertRaw]
      split
      · exact ih
      · rename_i hr
        dsimp only
        rw [ih, List.find?_cons]
        by_cases hk : r.key = k
        · subst hk
          rw [Dict.get?_update_self, hr]
          simp
        · rw [Dict.get?_update_ne _ _ _ fun h => hk h.symm]
          simp [hk]

/-- Rows whose key is taken need not be given to the insert. -/
theorem insertRaw_filter (rows : List RawInsertRow) :
    insertRaw raw (rows.filter fun r => (raw.get? r.key).isNone) = insertRaw raw rows := by
  -- The keys taken at the start stay taken, so the filter may be that of any smaller table.
  suffices h : ∀ base : Dict EventKey RawColumns,
      (∀ k, raw.get? k = none → base.get? k = none) →
      insertRaw raw (rows.filter fun r => (base.get? r.key).isNone) = insertRaw raw rows from
    h raw fun _ hk => hk
  intro base hbase
  induction rows generalizing raw with
  | nil => rfl
  | cons r rows ih =>
      rw [insertRaw]
      cases hr : raw.get? r.key with
      | some c =>
          dsimp only
          rw [List.filter_cons]
          split
          · rw [insertRaw, hr]
            exact ih hbase
          · exact ih hbase
      | none =>
          have hb : (base.get? r.key).isNone = true := by rw [hbase _ hr]; rfl
          have hnext : ∀ k, (raw.update r.key r.toRawColumns id).get? k = none → base.get? k = none := by
            intro k hk
            by_cases hkr : k = r.key
            · rw [hkr, Dict.get?_update_self] at hk
              cases hk
            · rw [Dict.get?_update_ne _ _ _ hkr] at hk
              exact hbase k hk
          rw [List.filter_cons, if_pos hb, insertRaw, hr]
          dsimp only
          rw [ih hnext]

end Insert

/-! ## What the loop over the rows finds -/

section Sift

variable (raw : Dict EventKey RawColumns) (locked : PartitionKey → Nat)

/-- At or above the checkpoint. -/
def isHandled (r : RawInsertRow) : Bool := decide (locked r.partitionKey ≤ r.offset)

/-- To be inserted: nothing is stored under its key. -/
def isFresh (r : RawInsertRow) : Bool := isHandled locked r && (raw.get? r.key).isNone

/-- To be quarantined: other content is stored under its key. -/
def isConflict (r : RawInsertRow) : Bool :=
  isHandled locked r && (raw.get? r.key).any (·.immutableContentHash ≠ r.immutableContentHash)

def isDuplicate (r : RawInsertRow) : Bool :=
  isHandled locked r && (raw.get? r.key).any (·.immutableContentHash = r.immutableContentHash)

/-- The offsets of a partition that the batch handles. -/
def handledOffsets (rows : List RawInsertRow) (key : PartitionKey) : List Nat :=
  (rows.filter fun r => r.partitionKey = key ∧ isHandled locked r = true).map (·.offset)

variable {raw locked}

theorem handle_get? (s : Sifted) (r : RawInsertRow) (key : PartitionKey) :
    ((s.handle r).handled.get? key).getD [] =
      (s.handled.get? key).getD [] ++ if r.partitionKey = key then [r.offset] else [] := by
  simp only [Sifted.handle]
  by_cases h : r.partitionKey = key
  · subst h
    rw [Dict.get?_update_self, if_pos rfl]
    rfl
  · rw [Dict.get?_update_ne _ _ _ fun hk => h hk.symm, if_neg h, List.append_nil]

/-- One row is in exactly one class. -/
theorem step_spec (s : Sifted) (r : RawInsertRow) :
    let s' := Sifted.step raw locked s r
    s'.accepted = s.accepted ++ (if isFresh raw locked r then [r] else []) ∧
      s'.duplicateCount = s.duplicateCount + (if isDuplicate raw locked r then 1 else 0) ∧
      s'.quarantined.length = s.quarantined.length + (if isConflict raw locked r then 1 else 0) ∧
      ∀ key, (s'.handled.get? key).getD [] =
        (s.handled.get? key).getD [] ++
          if r.partitionKey = key ∧ isHandled locked r = true then [r.offset] else [] := by
  by_cases hlt : r.offset < locked r.partitionKey
  · have hno : isHandled locked r = false := decide_eq_false (not_le.mpr hlt)
    simp [Sifted.step, hlt, isFresh, isDuplicate, isConflict, hno]
  · have hyes : isHandled locked r = true := decide_eq_true (not_lt.mp hlt)
    cases hget : raw.get? r.key with
    | none =>
        simp [Sifted.step, hlt, isFresh, isDuplicate, isConflict, hyes, hget, Sifted.handle]
        exact fun topic partition => handle_get? s r (topic, partition)
    | some existing =>
        by_cases hhash : existing.immutableContentHash = r.immutableContentHash
        · simp [Sifted.step, hlt, isFresh, isDuplicate, isConflict, hyes, hget, hhash, Sifted.handle]
          exact fun topic partition => handle_get? s r (topic, partition)
        · simp [Sifted.step, hlt, isFresh, isDuplicate, isConflict, hyes, hget, hhash, Sifted.handle]
          exact fun topic partition => handle_get? s r (topic, partition)

theorem sift_spec (rows : List RawInsertRow) (s : Sifted) :
    let s' := rows.foldl (Sifted.step raw locked) s
    s'.accepted = s.accepted ++ rows.filter (isFresh raw locked) ∧
      s'.duplicateCount = s.duplicateCount + rows.countP (isDuplicate raw locked) ∧
      s'.quarantined.length = s.quarantined.length + rows.countP (isConflict raw locked) ∧
      ∀ key, (s'.handled.get? key).getD [] =
        (s.handled.get? key).getD [] ++ handledOffsets locked rows key := by
  induction rows generalizing s with
  | nil => simp [handledOffsets]
  | cons r rows ih =>
      obtain ⟨h1, h2, h3, h4⟩ := @step_spec raw locked s r
      obtain ⟨i1, i2, i3, i4⟩ := ih (Sifted.step raw locked s r)
      refine ⟨?_, ?_, ?_, ?_⟩
      · rw [List.foldl_cons, i1, h1, List.append_assoc, List.filter_cons]
        split <;> rfl
      · rw [List.foldl_cons, i2, h2, List.countP_cons]
        omega
      · rw [List.foldl_cons, i3, h3, List.countP_cons]
        omega
      · intro key
        rw [List.foldl_cons, i4, h4, List.append_assoc, handledOffsets, handledOffsets,
          List.filter_cons]
        by_cases h : r.partitionKey = key ∧ isHandled locked r = true
        · simp [h]
        · simp [h]

end Sift

/-! ## What a batch does -/

section Persisted

variable (S : Setting) (epoch : Nat)

/-- The rows of a batch, with all their metric rows. -/
def prepare (events : List ConsumedEvent) :
    Except PersistRaised (List RawInsertRow × List (List MetricInsertRow)) := do
  let rawRows ← (events.insertionSort ConsumedEvent.le).mapM (rawRowFromEvent S)
  let metricRows ← rawRows.mapM (buildMetricRows S)
  .ok (rawRows, metricRows)

/-- The rows a batch inserts. -/
def insertedRows (t : Tables) (rows : List RawInsertRow) : List RawInsertRow :=
  (insertRaw t.raw (rows.filter (isFresh t.raw (t.checkpoint epoch)))).2

/-- The metric rows a batch inserts: of every row that has the id of an inserted one. -/
def insertedMetrics (t : Tables) (rows : List RawInsertRow) (metricRows : List MetricInsertRow) :
    List MetricInsertRow :=
  metricRows.filter fun m => m.eventId ∈ (insertedRows epoch t rows).map (·.eventId)

/-- The database refuses a row that the batch inserts. -/
def refused (t : Tables) (rows : List RawInsertRow) (metricRows : List MetricInsertRow) : Bool :=
  (rows.filter (isFresh t.raw (t.checkpoint epoch))).any (fun r => S.refusesRaw r.toRawColumns) ||
    (insertedMetrics epoch t rows metricRows).any S.refusesMetric

/-- The days a batch leaves to the refresh worker. -/
def lateDays (rows : List RawInsertRow) : List Date :=
  (rows.filter fun r => r.isLate).map fun r => utcDay r.time

structure Persisted (t : Tables) (rows : List RawInsertRow) (metricRows : List MetricInsertRow)
    (t' : Tables) (result : BatchPersistResult) : Prop where
  raw : t'.raw = (insertRaw t.raw (rows.filter (isFresh t.raw (t.checkpoint epoch)))).1
  metrics : t'.metrics = t.metrics ++ insertedMetrics epoch t rows metricRows
  worklist : t'.worklist = ((lateDays (insertedRows epoch t rows)).foldl bumpLate t).worklist
  checkpoint : ∀ key, t'.checkpoint epoch key =
    computeNextOffset (t.checkpoint epoch key) (handledOffsets (t.checkpoint epoch) rows key)
  otherEpochs : ∀ e ≠ epoch, t'.checkpoint e = t.checkpoint e
  inserted : result.insertedCount = ((insertedRows epoch t rows).map (·.eventId)).dedup.length
  duplicate : result.duplicateCount =
    rows.countP (isDuplicate t.raw (t.checkpoint epoch)) +
      (rows.countP (isFresh t.raw (t.checkpoint epoch)) - (insertedRows epoch t rows).length)
  quarantined : result.quarantinedConflicts.length =
    rows.countP (isConflict t.raw (t.checkpoint epoch))

/-- The row of an event whose row and metric rows can be made. -/
def rowOf (e : ConsumedEvent) : Except PersistRaised RawInsertRow := do
  let r ← rawRowFromEvent S e
  let _ ← buildMetricRows S r
  .ok r

/-- The metric rows of a row for which they can be made. -/
def metricsOf (r : RawInsertRow) : List MetricInsertRow :=
  match buildMetricRows S r with
  | .ok rows => rows
  | .error _ => []

variable {S epoch} {t : Tables}

theorem rowOf_eq_ok {e : ConsumedEvent} {r : RawInsertRow} :
    rowOf S e = .ok r ↔
      rawRowFromEvent S e = .ok r ∧ buildMetricRows S r = .ok (metricsOf S r) := by
  rw [rowOf]
  cases hrow : rawRowFromEvent S e with
  | error raised => exact ⟨fun h => (by cases h), fun h => (by cases h.1)⟩
  | ok r' =>
      change Except.bind (buildMetricRows S r') _ = _ ↔ _
      constructor
      · intro h
        cases hm : buildMetricRows S r' with
        | error raised => rw [hm] at h; cases h
        | ok ms =>
            rw [hm] at h
            cases h
            exact ⟨rfl, by rw [metricsOf, hm]⟩
      · rintro ⟨h, hm⟩
        cases h
        rw [hm]
        rfl

theorem metricsOf_eq {r : RawInsertRow} {ms : List MetricInsertRow}
    (h : buildMetricRows S r = .ok ms) : metricsOf S r = ms := by
  rw [metricsOf, h]

theorem mapM_buildMetricRows {rows : List RawInsertRow} {ms : List (List MetricInsertRow)} :
    rows.mapM (buildMetricRows S) = .ok ms ↔
      (∀ r ∈ rows, buildMetricRows S r = .ok (metricsOf S r)) ∧ ms = rows.map (metricsOf S) := by
  rw [mapM_eq_ok]
  constructor
  · intro h
    induction h with
    | nil => simp
    | cons hr _ ih =>
        rw [List.forall_mem_cons, List.map_cons, metricsOf_eq hr, ← ih.2]
        exact ⟨⟨hr, ih.1⟩, rfl⟩
  · rintro ⟨h, rfl⟩
    rw [List.forall₂_map_right_iff]
    exact List.forall₂_same.mpr h

theorem forall₂_rowOf {events : List ConsumedEvent} {rows : List RawInsertRow} :
    List.Forall₂ (fun e r => rowOf S e = .ok r) events rows ↔
      List.Forall₂ (fun e r => rawRowFromEvent S e = .ok r) events rows ∧
        ∀ r ∈ rows, buildMetricRows S r = .ok (metricsOf S r) := by
  simp only [rowOf_eq_ok]
  constructor
  · intro h
    have hflip := (List.forall₂_and_left _ _).mp (h.imp fun _ _ => And.symm).flip
    exact ⟨h.imp fun _ _ => And.left, hflip.1⟩
  · rintro ⟨h, hm⟩
    exact ((List.forall₂_and_left _ _).mpr ⟨hm, h.flip⟩).flip.imp fun _ _ => And.symm

/-- A batch can be prepared when each of its events can. -/
theorem prepare_eq_ok {events : List ConsumedEvent} {rows : List RawInsertRow}
    {metricRows : List (List MetricInsertRow)} :
    prepare S events = .ok (rows, metricRows) ↔
      List.Forall₂ (fun e r => rowOf S e = .ok r) (events.insertionSort ConsumedEvent.le) rows ∧
        metricRows = rows.map (metricsOf S) := by
  rw [forall₂_rowOf, ← mapM_eq_ok, and_assoc, ← mapM_buildMetricRows, prepare]
  cases (events.insertionSort ConsumedEvent.le).mapM (rawRowFromEvent S) with
  | error e => exact ⟨fun h => (by cases h), fun h => (by cases h.1)⟩
  | ok rows' =>
      change Except.bind (rows'.mapM (buildMetricRows S)) _ = _ ↔ _
      cases hm : rows'.mapM (buildMetricRows S) with
      | error e =>
          refine ⟨fun h => (by cases h), ?_⟩
          rintro ⟨h, hms⟩
          cases h
          rw [hm] at hms
          cases hms
      | ok ms =>
          constructor
          · intro h
            cases h
            exact ⟨rfl, hm⟩
          · rintro ⟨h, hms⟩
            cases h
            rw [hm] at hms
            cases hms
            rfl

theorem eventId_of_mem_collectRows {r : RawInsertRow} {ys : Yields} {rows out : List MetricInsertRow}
    (h : collectRows S r rows ys = .ok out) (hrows : ∀ m ∈ rows, m.eventId = r.eventId) :
    ∀ m ∈ out, m.eventId = r.eventId := by
  induction ys generalizing rows with
  | nil =>
      cases h
      exact hrows
  | cons y ys ih =>
      cases y with
      | error e => cases h
      | ok m =>
          rw [collectRows] at h
          split at h
          · cases h
          · refine ih h ?_
            intro m' hm'
            rcases List.mem_append.mp hm' with hm' | hm'
            · exact hrows m' hm'
            · rw [List.mem_singleton.mp hm']
              rfl

/-- The metric rows of a row carry its id. -/
theorem eventId_of_mem_metricsOf {r : RawInsertRow} {m : MetricInsertRow} (h : m ∈ metricsOf S r) :
    m.eventId = r.eventId := by
  rw [metricsOf] at h
  cases hb : buildMetricRows S r with
  | error e =>
      rw [hb] at h
      cases h
  | ok rows =>
      rw [hb] at h
      rw [buildMetricRows] at hb
      split at hb
      · cases hb
        cases h
      · exact eventId_of_mem_collectRows hb (fun _ hm => nomatch hm) m h

/-- A row keeps the place, the id and the time of its event. -/
theorem rowOf_spec {e : ConsumedEvent} {r : RawInsertRow} (h : rowOf S e = .ok r) :
    r.partitionKey = e.partitionKey ∧ r.offset = e.offset ∧ r.key = (e.envelope.time, e.eventId) := by
  have hrow := (rowOf_eq_ok.mp h).1
  rw [rawRowFromEvent] at hrow
  split at hrow
  · cases hrow
  · cases hrow
    exact ⟨rfl, rfl, rfl⟩

theorem bumpAll_worklist {u : Tables} (h : u.worklist = t.worklist) (days : List Date) :
    (days.foldl bumpLate u).worklist = (days.foldl bumpLate t).worklist := by
  induction days generalizing u t with
  | nil => exact h
  | cons day days ih =>
      rw [List.foldl_cons, List.foldl_cons]
      refine ih ?_
      simp only [bumpLate, h]

theorem insertAccepted_spec (rows : List RawInsertRow) (metricRows : List MetricInsertRow)
    {u : Tables} (hraw : u.raw = t.raw) :
    insertAccepted S (rows.filter (isFresh t.raw (t.checkpoint epoch))) metricRows u =
      if refused S epoch t rows metricRows then .error .database
      else .ok ((lateDays (insertedRows epoch t rows)).foldl bumpLate
          { u with
            raw := (insertRaw t.raw (rows.filter (isFresh t.raw (t.checkpoint epoch)))).1
            metrics := u.metrics ++ insertedMetrics epoch t rows metricRows },
        insertedRows epoch t rows) := by
  simp only [insertAccepted, hraw]
  by_cases h1 : (rows.filter (isFresh t.raw (t.checkpoint epoch))).any
      (fun r => S.refusesRaw r.toRawColumns) = true
  · have href : refused S epoch t rows metricRows = true := by rw [refused, h1, Bool.true_or]
    rw [if_pos h1, if_pos href]
  · rw [if_neg h1]
    have href : refused S epoch t rows metricRows =
        (insertedMetrics epoch t rows metricRows).any S.refusesMetric := by
      rw [refused, Bool.eq_false_iff.mpr h1, Bool.false_or]
    rw [href]
    rfl

theorem transact_spec (keys : List PartitionKey) (rows : List RawInsertRow)
    (metricRows : List MetricInsertRow) :
    if refused S epoch t rows metricRows then
      transact S epoch keys rows metricRows t = .error .database
    else ∃ t' result, transact S epoch keys rows metricRows t = .ok (t', result) ∧
      Persisted epoch t rows metricRows t' result := by
  obtain ⟨hraw, hmetrics, hwork, hcheck⟩ := @ensureAll_spec epoch t keys
  obtain ⟨haccepted, hduplicate, hquarantined, hhandled⟩ :=
    @sift_spec t.raw (t.checkpoint epoch) rows .start
  have hins := @insertAccepted_spec S epoch t rows metricRows _ hraw
  simp only [transact, hraw, hcheck]
  generalize rows.foldl (Sifted.step t.raw (t.checkpoint epoch)) .start = sifted at *
  replace haccepted := haccepted.trans (List.nil_append _)
  rw [haccepted, hins]
  split
  · rfl
  · refine ⟨_, _, rfl, ?_⟩
    generalize hu : ({ keys.foldl (ensureCheckpoint epoch) t with
      raw := (insertRaw t.raw (rows.filter (isFresh t.raw (t.checkpoint epoch)))).1
      metrics := (keys.foldl (ensureCheckpoint epoch) t).metrics ++
        insertedMetrics epoch t rows metricRows } : Tables) = u
    have huwork : u.worklist = t.worklist := by rw [← hu]; exact hwork
    have hucheck : u.checkpoint = t.checkpoint := by rw [← hu]; exact hcheck
    obtain ⟨bRaw, bMetrics, bCheck⟩ := bumpAll_spec (t := u) (lateDays (insertedRows epoch t rows))
    have bwork := bumpAll_worklist huwork (lateDays (insertedRows epoch t rows))
    generalize (lateDays (insertedRows epoch t rows)).foldl bumpLate u = w at *
    have hwcheck : w.checkpoint = t.checkpoint := by
      rw [← hucheck]
      funext e key
      rw [Tables.checkpoint, bCheck]
      rfl
    obtain ⟨aRaw, aMetrics, aWork, aOther, aCheck⟩ :=
      @advanceAll_spec epoch (t.checkpoint epoch) _ (w, .empty) sifted.handled.nodup
        fun key _ => congrFun (congrFun hwcheck epoch) key
    refine ⟨?_, ?_, ?_, ?_, ?_, rfl, ?_, ?_⟩
    · rw [aRaw, bRaw, ← hu]
    · rw [aMetrics, bMetrics, ← hu, hmetrics]
    · rw [aWork, bwork]
    · intro key
      rw [aCheck key, hwcheck]
      have hk := hhandled key
      replace hk := hk.trans (List.nil_append _)
      rw [← hk]
      change ((sifted.handled.get? key).map _).getD _ = _
      cases sifted.handled.get? key with
      | none => exact (computeNextOffset_nil _).symm
      | some offsets => rfl
    · intro e he
      rw [aOther e he, hwcheck]
    · rw [List.countP_eq_length_filter (p := isFresh t.raw (t.checkpoint epoch))]
      exact congrArg (· + _) (hduplicate.trans (Nat.zero_add _))
    · exact hquarantined.trans (Nat.zero_add _)

theorem persistBatch_eq {events : List ConsumedEvent} (hne : events ≠ []) :
    persistBatch S epoch events t = (prepare S events).bind fun p =>
      transact S epoch (sortedPartitionKeys (events.insertionSort ConsumedEvent.le)) p.1 p.2.flatten t := by
  rw [persistBatch, if_neg hne, prepare]
  change Except.bind _ _ = Except.bind (Except.bind _ _) _
  cases (events.insertionSort ConsumedEvent.le).mapM (rawRowFromEvent S) with
  | error e => rfl
  | ok rows =>
      change Except.bind (rows.mapM (buildMetricRows S)) _ =
        Except.bind (Except.bind (rows.mapM (buildMetricRows S)) _) _
      cases rows.mapM (buildMetricRows S) with
      | error e => rfl
      | ok ms => rfl

theorem persistBatch_of_error {events : List ConsumedEvent} {e : PersistRaised}
    (h : prepare S events = .error e) : persistBatch S epoch events t = .error e := by
  have hne : events ≠ [] := by
    rintro rfl
    cases h
  rw [persistBatch_eq hne, h]
  rfl

/-- A batch whose rows can be prepared raises exactly when the database refuses one of the
rows it inserts, and does what `Persisted` says otherwise. -/
theorem persistBatch_of_ok {events : List ConsumedEvent} {rows : List RawInsertRow}
    {metricRows : List (List MetricInsertRow)} (h : prepare S events = .ok (rows, metricRows)) :
    if refused S epoch t rows metricRows.flatten then
      persistBatch S epoch events t = .error .database
    else ∃ t' result, persistBatch S epoch events t = .ok (t', result) ∧
      Persisted epoch t rows metricRows.flatten t' result := by
  by_cases hne : events = []
  · subst hne
    cases h
    refine ⟨t, .empty, rfl, ?_⟩
    exact ⟨rfl, (List.append_nil _).symm, rfl, fun _ => rfl, fun _ _ => rfl, rfl, rfl, rfl⟩
  · rw [persistBatch_eq hne, h]
    exact transact_spec _ rows metricRows.flatten

/-- A batch that goes through, with the rows it was prepared as. -/
theorem prepared_of_ok {events : List ConsumedEvent} {t' : Tables} {result : BatchPersistResult}
    (h : persistBatch S epoch events t = .ok (t', result)) :
    ∃ rows, prepare S events = .ok (rows, rows.map (metricsOf S)) ∧
      List.Forall₂ (fun e r => rowOf S e = .ok r) (events.insertionSort ConsumedEvent.le) rows ∧
      Persisted epoch t rows (rows.map (metricsOf S)).flatten t' result := by
  cases hp : prepare S events with
  | error e =>
      rw [persistBatch_of_error hp] at h
      cases h
  | ok p =>
      obtain ⟨rows, ms⟩ := p
      obtain ⟨hrows, rfl⟩ := prepare_eq_ok.mp hp
      have hbatch := @persistBatch_of_ok S epoch t _ _ _ hp
      split at hbatch
      · rw [hbatch] at h
        cases h
      · obtain ⟨u, result', hok, hpersisted⟩ := hbatch
        rw [hok] at h
        cases h
        exact ⟨rows, rfl, hrows, hpersisted⟩

/-- A batch that goes through. -/
theorem persisted_of_ok {events : List ConsumedEvent} {t' : Tables} {result : BatchPersistResult}
    (h : persistBatch S epoch events t = .ok (t', result)) :
    ∃ rows, List.Forall₂ (fun e r => rowOf S e = .ok r) (events.insertionSort ConsumedEvent.le) rows ∧
      Persisted epoch t rows (rows.map (metricsOf S)).flatten t' result := by
  obtain ⟨rows, -, hrows, hpersisted⟩ := prepared_of_ok h
  exact ⟨rows, hrows, hpersisted⟩

end Persisted

end Uns.Historian
