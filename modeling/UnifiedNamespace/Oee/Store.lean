/-
# `Oee.Store` — what is on record for a shift

`store.py` and the tables of `oee_tables.py` it writes, with `assign_reason` of
`oee_results.py`: the result row of a shift and its superseded revisions, the
terms of its products, the stops and the queue of recomputations.

Each method is one transaction, so it is a function from the database to the
database, and `none` is a violated constraint, which rolls the transaction back.
A save is described column by column in `save_spec`.  From it follows what a
history of saves and reassignments leaves behind (`storeLaw`).
-/
import UnifiedNamespace.Lib.Table
import UnifiedNamespace.Oee.Pipeline

namespace Uns.Oee

open Py Lib

/-! ## Rows -/

/-- `oee.shift_result`, without its key. -/
structure ShiftResult where
  shiftEnd : ℤ
  shiftLabel : Str
  loadingTimeS : ℚ
  runTimeS : ℚ
  plannedDownS : ℚ
  unplannedDownS : ℚ
  goodCount : ℚ
  rejectCount : ℚ
  totalCount : ℚ
  availability : Option ℚ
  performance : Option ℚ
  performanceRaw : Option ℚ
  quality : Option ℚ
  oee : Option ℚ
  status : OeeStatus
  revision : Nat
  inputFingerprint : Str
  computedAt : ℤ
  publishedAt : Option ℤ
  deriving DecidableEq

/-- `oee.shift_result_revision`, without its key. -/
structure ShiftResultRevision where
  loadingTimeS : ℚ
  runTimeS : ℚ
  goodCount : ℚ
  rejectCount : ℚ
  totalCount : ℚ
  availability : Option ℚ
  performance : Option ℚ
  quality : Option ℚ
  oee : Option ℚ
  status : OeeStatus
  inputFingerprint : Str
  computedAt : ℤ
  deriving DecidableEq

structure ShiftResultProduct where
  goodCount : ℚ
  rejectCount : ℚ
  totalCount : ℚ
  idealCycleTimeS : Option ℚ
  deriving DecidableEq

/-- What is kept once a reason is a person's. -/
structure ReasonColumns where
  reasonCode : Str
  reasonSource : ReasonSource
  assignedBy : Option Str
  assignedAt : Option ℤ
  note : Str
  deriving DecidableEq

/-- `oee.downtime_event`, without its key. -/
structure DowntimeEvent where
  shiftStart : ℤ
  endedAt : ℤ
  durationS : ℚ
  stateValue : Str
  reason : ReasonColumns
  deriving DecidableEq

/-- `model.downtime_reason`, without its code. -/
structure DowntimeReason where
  displayName : Str
  category : Str
  isPlanned : Bool
  deriving DecidableEq

structure RecomputeRequest where
  unitId : Option Nat
  rangeStart : ℤ
  rangeEnd : ℤ
  reason : Str
  requestedBy : Option Str
  requestedAt : ℤ
  claimedAt : Option ℤ
  completedAt : Option ℤ
  error : Option Str
  deriving DecidableEq

/-- The checks of `oee.shift_result`. -/
def resultCheck (key : Nat × ℤ) (r : ShiftResult) : Bool :=
  decide (key.2 < r.shiftEnd) && decide (1 ≤ r.revision) &&
    decide (0 ≤ r.goodCount ∧ 0 ≤ r.rejectCount ∧ 0 ≤ r.totalCount)

/-- `ck_downtime_event_range`. -/
def eventCheck (key : Nat × ℤ) (e : DowntimeEvent) : Bool := decide (key.2 < e.endedAt)

abbrev EventTable := Table (Nat × ℤ) DowntimeEvent eventCheck

/-- Every stop has a reason of the vocabulary. -/
def Referenced (reasons : Dict Str DowntimeReason) (events : EventTable) : Prop :=
  ∀ e ∈ events.rows.entries, (reasons.get? e.2.2.reason.reasonCode).isSome = true

instance (reasons : Dict Str DowntimeReason) (events : EventTable) :
    Decidable (Referenced reasons events) := inferInstanceAs (Decidable (∀ _ ∈ _, _))

/-- The tables of one plant. -/
structure Database where
  results : Table (Nat × ℤ) ShiftResult resultCheck
  revisions : Table (Nat × ℤ × Nat) ShiftResultRevision fun _ _ => true
  products : Table (Nat × Str) ShiftResultProduct fun _ _ => true
  events : EventTable
  requests : List (Nat × RecomputeRequest)
  reasons : Dict Str DowntimeReason
  referenced : Referenced reasons events

/-- New stops, unless one has a reason outside the vocabulary. -/
def Database.withEvents? (db : Database) (events : EventTable) : Option Database :=
  if h : Referenced db.reasons events then some { db with events := events, referenced := h }
  else none

/-! ## Writing one shift's numbers -/

/-- What is already on record for one shift. -/
structure StoredResult where
  resultId : Nat
  revision : Nat
  inputFingerprint : Str
  publishedAt : Option ℤ
  deriving DecidableEq

/-- The column values for one computed shift; a revision starts unpublished. -/
def resultValues (window : ShiftWindow) (metrics : ShiftMetrics) (fingerprint : Fingerprint)
    (computedAt : ℤ) (revision : Nat) : ShiftResult where
  shiftEnd := window.finish
  shiftLabel := window.label
  loadingTimeS := metrics.loadingTimeS
  runTimeS := metrics.runTimeS
  plannedDownS := metrics.plannedDownS
  unplannedDownS := metrics.unplannedDownS
  goodCount := metrics.goodCount
  rejectCount := metrics.rejectCount
  totalCount := metrics.totalCount
  availability := metrics.availability
  performance := metrics.performance
  performanceRaw := metrics.performanceRaw
  quality := metrics.quality
  oee := metrics.oee
  status := metrics.status
  revision := revision
  inputFingerprint := fingerprint.asText
  computedAt := computedAt
  publishedAt := none

/-- The row about to be replaced, as it is kept. -/
def revisionValues (stored : ShiftResult) : ShiftResultRevision where
  loadingTimeS := stored.loadingTimeS
  runTimeS := stored.runTimeS
  goodCount := stored.goodCount
  rejectCount := stored.rejectCount
  totalCount := stored.totalCount
  availability := stored.availability
  performance := stored.performance
  quality := stored.quality
  oee := stored.oee
  status := stored.status
  inputFingerprint := stored.inputFingerprint
  computedAt := stored.computedAt

/-- One row per product segment; no code is the empty one. -/
def productValues (resultId : Nat) (metrics : ShiftMetrics) :
    List ((Nat × Str) × ShiftResultProduct) :=
  metrics.products.map fun item =>
    ((resultId, item.productCode.getD []),
      ⟨item.goodCount, item.rejectCount, item.totalCount, item.idealCycleTimeS⟩)

/-- The row of one classified stop. -/
def eventValue (shiftStart : ℤ) (stop : ClassifiedStop) : DowntimeEvent where
  shiftStart := shiftStart
  endedAt := stop.interval.finish
  durationS := stop.interval.durationS
  stateValue := stop.stateValue
  reason :=
    { reasonCode := stop.reasonCode
      reasonSource := stop.source
      assignedBy := stop.assignedBy
      assignedAt := none
      note := stop.note.getD [] }

/-- `DO UPDATE SET`: the geometry is refreshed, a person's reason is preserved. -/
def mergeEvent (excluded stored : DowntimeEvent) : DowntimeEvent :=
  { excluded with
    reason := if stored.reason.reasonSource = .manual then stored.reason else excluded.reason }

/-- The rows of the stops, one after the other. -/
def upsertStops (events : EventTable) (unitId : Nat) (shiftStart : ℤ) :
    List ClassifiedStop → Option EventTable
  | [] => some events
  | stop :: stops =>
      (events.upsert? (unitId, stop.interval.start) (eventValue shiftStart stop)
        (mergeEvent (eventValue shiftStart stop))).bind fun events' =>
          upsertStops events' unitId shiftStart stops

/-- One statement, which may not touch a row twice. -/
def downtimeUpsert (events : EventTable) (unitId : Nat) (shiftStart : ℤ)
    (stops : List ClassifiedStop) : Option EventTable :=
  if (stops.map fun stop => stop.interval.start).Nodup then upsertStops events unitId shiftStart stops
  else none

/-- The automatic stops of the shift that this computation no longer has. -/
def stale (unitId : Nat) (shiftStart : ℤ) (keepStartedAt : List ℤ) (key : Nat × ℤ)
    (event : DowntimeEvent) : Bool :=
  decide (key.1 = unitId ∧ event.shiftStart = shiftStart ∧ event.reason.reasonSource = .auto ∧
    key.2 ∉ keepStartedAt)

def downtimeAutoDelete (events : EventTable) (unitId : Nat) (shiftStart : ℤ)
    (keepStartedAt : List ℤ) : EventTable :=
  events.filter fun key r => !stale unitId shiftStart keepStartedAt key r.2

/-- The result row: inserted, or replaced after its numbers are kept as a revision. -/
def writeResult (db : Database) (unitId : Nat) (window : ShiftWindow) (metrics : ShiftMetrics)
    (fingerprint : Fingerprint) (computedAt : ℤ) : Option (Database × Nat × Nat) :=
  let values := resultValues window metrics fingerprint computedAt
  match db.results.find? (unitId, window.start) with
  | none =>
      (db.results.insert? (unitId, window.start) (values 1)).map fun results =>
        ({ db with results := results }, db.results.next, 1)
  | some (resultId, stored) =>
      (db.revisions.insert? (unitId, window.start, stored.revision) (revisionValues stored)).bind
        fun revisions =>
          (db.results.modify? (fun _ r => r.1 = resultId) fun _ => values (stored.revision + 1)).map
            fun results =>
              ({ db with
                  results := results
                  revisions := revisions
                  products := db.products.filter fun key _ => key.1 ≠ resultId },
                resultId, stored.revision + 1)

/-- Write this shift's numbers, superseding whatever was there. -/
def save (db : Database) (unitId : Nat) (window : ShiftWindow) (metrics : ShiftMetrics)
    (stops : List ClassifiedStop) (fingerprint : Fingerprint) (computedAt : ℤ) :
    Option (Database × StoredResult) :=
  (writeResult db unitId window metrics fingerprint computedAt).bind fun written =>
    (written.1.products.insertAll? (productValues written.2.1 metrics)).bind fun products =>
      (downtimeUpsert written.1.events unitId window.start stops).bind fun events =>
        (({ written.1 with products := products } : Database).withEvents?
            (downtimeAutoDelete events unitId window.start
              (stops.map fun stop => stop.interval.start))).map fun saved =>
          (saved, ⟨written.2.1, written.2.2, fingerprint.asText, none⟩)

/-- What is on record for this shift. -/
def existing (db : Database) (unitId : Nat) (shiftStart : ℤ) : Option StoredResult :=
  (db.results.find? (unitId, shiftStart)).map fun r =>
    ⟨r.1, r.2.revision, r.2.inputFingerprint, r.2.publishedAt⟩

/-- The human-assigned reasons inside this shift, keyed by the stop's start. -/
def manualReasons (db : Database) (unitId : Nat) (window : ShiftWindow) : ManualReasons where
  entries := (db.events.rows.entries.filter fun e =>
      e.1.1 = unitId ∧ e.2.2.reason.reasonSource = .manual ∧ window.start ≤ e.1.2 ∧
        e.1.2 < window.finish).map fun e =>
    (e.1.2, ⟨e.2.2.reason.reasonCode, some e.2.2.reason.note, e.2.2.reason.assignedBy⟩)
  nodup := by
    rw [List.map_map]
    refine List.Nodup.map_on ?_ ((List.Nodup.of_map _ db.events.rows.nodup).filter _)
    intro e he e' he' hstart
    have hunit := (decide_eq_true_eq.mp (List.mem_filter.mp he).2).1
    have hunit' := (decide_eq_true_eq.mp (List.mem_filter.mp he').2).1
    refine List.inj_on_of_nodup_map db.events.rows.nodup (List.mem_filter.mp he).1
      (List.mem_filter.mp he').1 (Prod.ext ?_ hstart)
    rw [hunit, hunit']

def ShiftResult.withPublishedAt (r : ShiftResult) (at_ : ℤ) : ShiftResult :=
  { r with publishedAt := some at_ }

theorem resultCheck_withPublishedAt (at_ : ℤ) (key : Nat × ℤ) (r : ShiftResult) :
    resultCheck key (r.withPublishedAt at_) = resultCheck key r := rfl

/-- Record that this result reached MQTT. -/
def markPublished (db : Database) (resultId : Nat) (publishedAt : ℤ) : Database :=
  { db with
    results := db.results.modify (fun _ r => decide (r.1 = resultId))
      (fun r => r.withPublishedAt publishedAt) (resultCheck_withPublishedAt publishedAt) }

/-! ## An operator's correction -/

/-- How wide a range has to be to name exactly one shift. -/
def singleShiftMargin : ℤ := seconds 1

/-- `f"reason {reason_code} assigned to downtime event {event_id}"`. -/
def assignedText (reasonCode : Str) (eventId : Nat) : Str :=
  lit "reason " ++ reasonCode ++ lit " assigned to downtime event " ++ decimal eventId

/-- `None` leaves the note; the code, the source and who assigned it are written. -/
def assignColumns (reasonCode : Str) (note : Option Str) (assignedBy : Str) (now : ℤ)
    (columns : ReasonColumns) : ReasonColumns where
  reasonCode := reasonCode
  reasonSource := .manual
  assignedBy := some assignedBy
  assignedAt := some now
  note := note.getD columns.note

def DowntimeEvent.withReason (e : DowntimeEvent) (columns : ReasonColumns → ReasonColumns) :
    DowntimeEvent := { e with reason := columns e.reason }

theorem eventCheck_withReason (columns : ReasonColumns → ReasonColumns) (key : Nat × ℤ)
    (e : DowntimeEvent) : eventCheck key (e.withReason columns) = eventCheck key e := rfl

/-- New reason columns for one stop. -/
def setReason (events : EventTable) (eventId : Nat) (columns : ReasonColumns → ReasonColumns) :
    EventTable :=
  events.modify (fun _ r => decide (r.1 = eventId)) (fun e => e.withReason columns)
    (eventCheck_withReason columns)

theorem referenced_setReason {reasons : Dict Str DowntimeReason} {events : EventTable} {eventId : Nat}
    {columns : ReasonColumns → ReasonColumns} (h : Referenced reasons events)
    (hcode : ∀ c, (reasons.get? (columns c).reasonCode).isSome = true) :
    Referenced reasons (setReason events eventId columns) := by
  intro e he
  obtain ⟨e', he', rfl⟩ := List.mem_map.mp he
  dsimp only
  split
  · exact hcode _
  · exact h e' he'

inductive Assigned where
  | unknownReason
  | noSuchEvent
  | queued (db : Database)

/-- Attribute a stop to a reason by hand, and queue that shift for recomputation. -/
def assignReason (db : Database) (eventId : Nat) (reasonCode : Str) (note : Option Str)
    (assignedBy : Str) (now : ℤ) : Assigned :=
  if h : (db.reasons.get? reasonCode).isSome = true then
    match db.events.rows.entries.find? fun e => decide (e.2.1 = eventId) with
    | none => .noSuchEvent
    | some found =>
        let request : RecomputeRequest :=
          { unitId := some found.1.1
            rangeStart := found.2.2.shiftStart
            rangeEnd := found.2.2.shiftStart + singleShiftMargin
            reason := assignedText reasonCode eventId
            requestedBy := some assignedBy
            requestedAt := now
            claimedAt := none
            completedAt := none
            error := none }
        .queued
          { db with
            events := setReason db.events eventId (assignColumns reasonCode note assignedBy now)
            requests := db.requests ++ [(db.requests.length, request)]
            referenced := referenced_setReason db.referenced fun _ => h }
  else .unknownReason

/-! ## What a save does -/

/-- The row of a stop over what is stored for its start. -/
def mergedRow (events : EventTable) (unitId : Nat) (shiftStart : ℤ) (stop : ClassifiedStop) :
    DowntimeEvent :=
  ((events.find? (unitId, stop.interval.start)).map fun r =>
    mergeEvent (eventValue shiftStart stop) r.2).getD (eventValue shiftStart stop)

/-- Every stop has its row, in place of a stored one of the same start. -/
structure StopsWritten (unitId : Nat) (shiftStart : ℤ) (stops : List ClassifiedStop)
    (events events' : EventTable) : Prop where
  row : ∀ stop ∈ stops, ∃ i,
    events'.find? (unitId, stop.interval.start) = some (i, mergedRow events unitId shiftStart stop) ∧
      ∀ r, events.find? (unitId, stop.interval.start) = some r → r.1 = i
  positive : ∀ stop ∈ stops, stop.interval.start < stop.interval.finish

section Events

variable {events events' : EventTable} {unitId : Nat} {shiftStart : ℤ} {stops : List ClassifiedStop}

theorem upsertStops_spec (h : upsertStops events unitId shiftStart stops = some events')
    (hstarts : (stops.map fun stop => stop.interval.start).Nodup) :
    StopsWritten unitId shiftStart stops events events' ∧
      ∀ k, (∀ stop ∈ stops, k ≠ (unitId, stop.interval.start)) → events'.find? k = events.find? k := by
  induction stops generalizing events with
  | nil =>
      obtain rfl := Option.some.inj h
      refine ⟨⟨?_, ?_⟩, fun _ _ => rfl⟩
      · intro stop hstop
        cases hstop
      · intro stop hstop
        cases hstop
  | cons stop stops ih =>
      obtain ⟨events₁, hstop, hrest⟩ := Option.bind_eq_some_iff.mp h
      obtain ⟨⟨i, hrow, hid⟩, hcheck, hother⟩ := Table.find?_upsert? hstop
      rw [List.map_cons, List.nodup_cons] at hstarts
      obtain ⟨hnew, hstarts⟩ := hstarts
      obtain ⟨hwritten, hkeep⟩ := ih hrest hstarts
      have hne : ∀ q ∈ stops, (unitId, q.interval.start) ≠ (unitId, stop.interval.start) := by
        intro q hq heq
        exact hnew (List.mem_map.mpr ⟨q, hq, congrArg Prod.snd heq⟩)
      refine ⟨⟨?_, ?_⟩, ?_⟩
      · intro q hq
        rcases List.mem_cons.mp hq with rfl | hq
        · refine ⟨i, ?_, hid⟩
          rw [hkeep _ fun p hp => (hne p hp).symm]
          exact hrow
        · obtain ⟨j, hj, hjid⟩ := hwritten.row q hq
          unfold mergedRow at hj
          rw [hother _ (hne q hq)] at hj hjid
          exact ⟨j, hj, hjid⟩
      · intro q hq
        rcases List.mem_cons.mp hq with rfl | hq
        · exact decide_eq_true_eq.mp hcheck
        · exact hwritten.positive q hq
      · intro k hk
        rw [hkeep k fun q hq => hk q (List.mem_cons_of_mem _ hq)]
        exact hother k (hk stop List.mem_cons_self)

end Events

/-- What a save leaves of the stops. -/
structure EventsSaved (unitId : Nat) (shiftStart : ℤ) (stops : List ClassifiedStop)
    (events events' : EventTable) : Prop extends
    StopsWritten unitId shiftStart stops events events' where
  starts : (stops.map fun stop => stop.interval.start).Nodup
  other : ∀ k, (∀ stop ∈ stops, k ≠ (unitId, stop.interval.start)) →
    events'.find? k = (events.find? k).filter fun r =>
      !decide (k.1 = unitId ∧ r.2.shiftStart = shiftStart ∧ r.2.reason.reasonSource = .auto)

theorem eventsSaved {events events' : EventTable} {unitId : Nat} {shiftStart : ℤ}
    {stops : List ClassifiedStop} (h : downtimeUpsert events unitId shiftStart stops = some events') :
    EventsSaved unitId shiftStart stops events
      (downtimeAutoDelete events' unitId shiftStart (stops.map fun stop => stop.interval.start)) := by
  unfold downtimeUpsert at h
  split at h
  · rename_i hstarts
    obtain ⟨hwritten, hkeep⟩ := upsertStops_spec h hstarts
    refine ⟨⟨?_, hwritten.positive⟩, hstarts, ?_⟩
    · intro stop hstop
      obtain ⟨i, hrow, hid⟩ := hwritten.row stop hstop
      refine ⟨i, ?_, hid⟩
      have hkept : stop.interval.start ∈ stops.map fun stop => stop.interval.start :=
        List.mem_map_of_mem hstop
      rw [downtimeAutoDelete, Table.find?_filter, hrow]
      simp only [stale, hkept, not_true, and_false, decide_false, Bool.not_false, Option.filter_some,
        if_true]
    · intro k hk
      rw [downtimeAutoDelete, Table.find?_filter, hkeep k hk]
      have hnot : k.1 = unitId → k.2 ∉ stops.map fun stop => stop.interval.start := by
        intro hunit hmem
        obtain ⟨stop, hstop, hstart⟩ := List.mem_map.mp hmem
        exact hk stop hstop (Prod.ext hunit hstart.symm)
      congr 1
      funext r
      unfold stale
      congr 1
      refine decide_eq_decide.mpr ?_
      tauto
  · cases h

/-- What a save leaves of the result row and its revisions. -/
structure ResultWritten (unitId : Nat) (shiftStart : ℤ) (values : Nat → ShiftResult)
    (resultId revision : Nat) (db db' : Database) : Prop where
  next : revision = ((db.results.find? (unitId, shiftStart)).map fun r => r.2.revision).getD 0 + 1
  sameId : ∀ r, db.results.find? (unitId, shiftStart) = some r → r.1 = resultId
  row : db'.results.find? (unitId, shiftStart) = some (resultId, values revision)
  otherRows : ∀ k, k ≠ (unitId, shiftStart) → db'.results.find? k = db.results.find? k
  superseded : ∀ r, db.results.find? (unitId, shiftStart) = some r →
    (db'.revisions.find? (unitId, shiftStart, r.2.revision)).map Prod.snd = some (revisionValues r.2)
  otherRevisions : ∀ k, (∀ r, db.results.find? (unitId, shiftStart) = some r →
    k ≠ (unitId, shiftStart, r.2.revision)) → db'.revisions.find? k = db.revisions.find? k

/-- What a save leaves of the tables. -/
structure Saved (unitId : Nat) (shiftStart : ℤ) (values : Nat → ShiftResult)
    (stops : List ClassifiedStop) (out : StoredResult) (db db' : Database) : Prop where
  result : ResultWritten unitId shiftStart values out.resultId out.revision db db'
  events : EventsSaved unitId shiftStart stops db.events db'.events
  reasons : db'.reasons = db.reasons
  requests : db'.requests = db.requests

section Save

variable {db db' : Database} {unitId : Nat} {window : ShiftWindow} {metrics : ShiftMetrics}
variable {stops : List ClassifiedStop} {fingerprint : Fingerprint} {computedAt : ℤ}
variable {out : StoredResult}

theorem writeResult_spec {written : Database × Nat × Nat}
    (h : writeResult db unitId window metrics fingerprint computedAt = some written) :
    ResultWritten unitId window.start (resultValues window metrics fingerprint computedAt)
        written.2.1 written.2.2 db written.1 ∧
      written.1.events = db.events ∧ written.1.reasons = db.reasons ∧
        written.1.requests = db.requests := by
  unfold writeResult at h
  dsimp only at h
  split at h
  · rename_i hnone
    obtain ⟨results, hins, rfl⟩ := Option.map_eq_some_iff.mp h
    obtain ⟨-, hrow, hother⟩ := Table.find?_insert? hins
    refine ⟨⟨by rw [hnone]; rfl, ?_, hrow, hother, ?_, fun _ _ => rfl⟩, rfl, rfl, rfl⟩
    · intro r hr
      rw [hnone] at hr
      cases hr
    · intro r hr
      rw [hnone] at hr
      cases hr
  · rename_i resultId stored hsome
    obtain ⟨revisions, hrev, h⟩ := Option.bind_eq_some_iff.mp h
    obtain ⟨results, hmod, rfl⟩ := Option.map_eq_some_iff.mp h
    obtain ⟨-, hrow, hother⟩ := Table.find?_insert? hrev
    refine ⟨⟨by rw [hsome]; rfl, ?_, ?_, ?_, ?_, ?_⟩, rfl, rfl, rfl⟩
    · intro r hr
      rw [hsome] at hr
      rw [← Option.some.inj hr]
    · rw [Table.find?_modify? hmod, hsome]
      simp
    · intro k hk
      -- another row has another identity
      rw [Table.find?_modify? hmod]
      cases hf : db.results.find? k with
      | none => rfl
      | some r =>
          have hid : r.1 ≠ resultId := by
            intro hid
            exact hk (Table.key_of_id hf hsome hid)
          rw [Option.map_some, if_neg (by simpa using hid)]
    · intro r hr
      rw [hsome] at hr
      obtain rfl := Option.some.inj hr
      rw [hrow]
      rfl
    · intro k hk
      exact hother k (hk _ hsome)

/-- A save, column by column. -/
theorem save_spec
    (h : save db unitId window metrics stops fingerprint computedAt = some (db', out)) :
    Saved unitId window.start (resultValues window metrics fingerprint computedAt) stops out db db' ∧
      out.inputFingerprint = fingerprint.asText ∧ out.publishedAt = none := by
  obtain ⟨written, hw, h⟩ := Option.bind_eq_some_iff.mp h
  obtain ⟨products, -, h⟩ := Option.bind_eq_some_iff.mp h
  obtain ⟨events, hev, h⟩ := Option.bind_eq_some_iff.mp h
  obtain ⟨saved, hsaved, heq⟩ := Option.map_eq_some_iff.mp h
  unfold Database.withEvents? at hsaved
  split at hsaved
  · obtain rfl := Option.some.inj hsaved
    cases heq
    obtain ⟨hres, hdb, hreasons, hrequests⟩ := writeResult_spec hw
    have hevents := eventsSaved hev
    rw [hdb] at hevents
    exact ⟨⟨⟨hres.next, hres.sameId, hres.row, hres.otherRows, hres.superseded,
      hres.otherRevisions⟩, hevents, hreasons, hrequests⟩, rfl, rfl⟩
  · cases hsaved

end Save

end Uns.Oee
