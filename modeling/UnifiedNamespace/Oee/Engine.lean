/-
# `Oee.Engine` — one shift for one unit: fetch, compute, store, publish

`publisher.py` and `ShiftPipeline.run_shift`.  A run awaits a read or a write
several times, and whatever else uses the database moves between two of them.  So
a run is a `Stage`, what it has read so far and what it awaits next, and
`Stage.advance` is one awaited call with what follows it up to the next.

`engine` interleaves the runs of any number of processes with the rows that
arrive, the exceptions that are edited and the reasons that operators assign.
Master data is what the run begins with, so an edit of it is a run that begins
with another unit.  A run that raises or whose process dies is abandoned where it is.
-/
import UnifiedNamespace.Lib.Interleaving
import UnifiedNamespace.Oee.RunTime
import UnifiedNamespace.Oee.StoreHistory

namespace Uns.Oee

open Py Lib

/-! ## The message -/

/-- `round`, ties to the even integer. -/
def roundHalfEven (x : ℚ) : ℤ :=
  if x - ⌊x⌋ < 1 / 2 then ⌊x⌋
  else if 1 / 2 < x - ⌊x⌋ ∨ ⌊x⌋ % 2 = 1 then ⌊x⌋ + 1
  else ⌊x⌋

/-- A factor as a percentage with one decimal, or nothing when it is undefined. -/
def asPercent (ratio : Option ℚ) : Option ℚ :=
  ratio.map fun r => (roundHalfEven (r * 100 * 10) : ℚ) / 10

/-- The metrics of a message. -/
structure Report where
  value : Option ℚ
  quality : Option ℚ
  availability : Option ℚ
  performance : Option ℚ
  goodCount : ℚ
  rejectCount : ℚ
  totalCount : ℚ
  status : OeeStatus
  deriving DecidableEq

def ShiftMetrics.report (m : ShiftMetrics) : Report where
  value := asPercent m.oee
  quality := asPercent m.quality
  availability := asPercent m.availability
  performance := asPercent m.performance
  goodCount := m.goodCount
  rejectCount := m.rejectCount
  totalCount := m.totalCount
  status := m.status

def ShiftResult.report (r : ShiftResult) : Report where
  value := asPercent r.oee
  quality := asPercent r.quality
  availability := asPercent r.availability
  performance := asPercent r.performance
  goodCount := r.goodCount
  rejectCount := r.rejectCount
  totalCount := r.totalCount
  status := r.status

def ShiftResultRevision.report (r : ShiftResultRevision) : Report where
  value := asPercent r.oee
  quality := asPercent r.quality
  availability := asPercent r.availability
  performance := asPercent r.performance
  goodCount := r.goodCount
  rejectCount := r.rejectCount
  totalCount := r.totalCount
  status := r.status

/-- The payload for one closed shift. -/
structure Payload extends Report where
  unit : Str
  timestamp : ℚ
  source : Str
  equipment : Str
  shiftLabel : Str
  shiftStart : ℚ
  revision : Nat
  deriving DecidableEq

def shiftOeeTopic (assetPath : Str) : Str := assetPath ++ lit "/KPI/ShiftOee"

/-- The last segment of the path. -/
def equipmentOf (assetPath : Str) : Str := (assetPath.reverse.takeWhile (· ≠ 47)).reverse

def epochMillis (at_ : ℤ) : ℚ := at_ / 1000

def shiftOeePayload (assetPath : Str) (window : ShiftWindow) (metrics : ShiftMetrics)
    (revision : Nat) : Payload :=
  { metrics.report with
    unit := lit "%"
    timestamp := epochMillis window.finish
    source := lit "uns_oee"
    equipment := equipmentOf assetPath
    shiftLabel := window.label
    shiftStart := epochMillis window.start
    revision := revision }

/-- What the broker took, and the shift it is about. -/
structure Message where
  unitId : Nat
  shiftStart : ℤ
  topic : Str
  payload : Payload
  deriving DecidableEq

/-! ## Fetching the samples -/

/-- One call of `run_shift`. -/
structure Job where
  unit : UnitMasterData
  window : ShiftWindow
  computedAt : ℤ

inductive Series where
  | state
  | good
  | reject
  | product
  deriving DecidableEq

/-- One statement of `_fetch`: the row before the window, or those of the window. -/
structure Query where
  series : Series
  prior : Bool
  deriving DecidableEq

def UnitMasterData.seriesRef (u : UnitMasterData) : Series → Option MetricRef
  | .state => some u.stateRef
  | .good => some u.goodRef
  | .reject => u.rejectRef
  | .product => u.productRef

def Series.hasValue : Series → MetricRow → Bool
  | .state, r => r.valueText.isSome
  | .product, r => r.valueText.isSome
  | .good, r => r.valueDouble.isSome
  | .reject, r => r.valueDouble.isSome

/-- The statements for the series that the unit binds. -/
def Job.queries (job : Job) : List Query :=
  ([.state, .good, .reject, .product] : List Series).flatMap fun s =>
    if (job.unit.seriesRef s).isSome then [⟨s, true⟩, ⟨s, false⟩] else []

/-- The rows that one statement returns. -/
def Query.rows (latest : LatestRow) (rows : List MetricRow) (job : Job) (q : Query) : List MetricRow :=
  match job.unit.seriesRef q.series with
  | none => []
  | some ref =>
      if q.prior then
        (latest.pick ((priorRows rows ref job.window.start).filter q.series.hasValue)).toList
      else (windowRows rows ref job.window.start job.window.finish).filter q.series.hasValue

/-- The rows read so far. -/
structure Fetched where
  state : List MetricRow := []
  good : List MetricRow := []
  reject : List MetricRow := []
  product : List MetricRow := []
  deriving DecidableEq

def Fetched.add (got : Fetched) (series : Series) (rows : List MetricRow) : Fetched :=
  match series with
  | .state => { got with state := got.state ++ rows }
  | .good => { got with good := got.good ++ rows }
  | .reject => { got with reject := got.reject ++ rows }
  | .product => { got with product := got.product ++ rows }

def textOf (rows : List MetricRow) : List StateSample :=
  orderedStates (rows.filterMap fun r => r.valueText.map fun value => ⟨r.time, value⟩)

def numericOf (rows : List MetricRow) : List Sample :=
  orderedSamples (rows.filterMap fun r => r.valueDouble.map fun value => ⟨r.time, value⟩)

def Fetched.samples (got : Fetched) : ShiftSamples :=
  ⟨textOf got.state, numericOf got.good, numericOf got.reject, textOf got.product⟩

/-! ## The stages of a run -/

/-- What a run has read before it decides. -/
structure Reading where
  fingerprint : Fingerprint
  manual : ManualReasons
  stored : Option StoredResult

/-- The stored row was computed from the same fingerprint. -/
def Reading.unchanged (read : Reading) : Bool :=
  match read.stored with
  | none => false
  | some stored => decide (stored.inputFingerprint = read.fingerprint.asText)

/-- The stored row is unchanged, and published. -/
def Reading.skips (read : Reading) : Bool :=
  read.unchanged && (read.stored.bind StoredResult.publishedAt).isSome

inductive Action where
  | unchanged
  | republished
  | computed
  | revised
  deriving DecidableEq

/-- `stored.rpartition(":")[0]`. -/
def sourcePart (stored : Str) : Str := ((stored.reverse.dropWhile (· ≠ 58)).drop 1).reverse

/-- The historian's half of the fingerprint moved. -/
def Reading.lateData (read : Reading) : Bool :=
  match read.stored with
  | none => false
  | some stored => decide (sourcePart stored.inputFingerprint ≠ sourcePart read.fingerprint.asText)

structure ShiftOutcome where
  action : Action
  metrics : Option ShiftMetrics
  revision : Nat
  published : Bool
  inputRows : Nat
  counterResets : Nat
  unclassifiedSeconds : ℚ
  lateData : Bool

/-- A shift whose row is on record. -/
structure Settled where
  job : Job
  read : Reading
  samples : ShiftSamples
  inputs : ShiftInputs
  action : Action
  resultId : Nat
  revision : Nat

namespace Settled

def metrics (s : Settled) : ShiftMetrics := compute s.inputs

def message (s : Settled) : Message where
  unitId := s.job.unit.unitId
  shiftStart := s.job.window.start
  topic := shiftOeeTopic s.job.unit.assetPath
  payload := shiftOeePayload s.job.unit.assetPath s.job.window s.metrics s.revision

def outcome (s : Settled) (published : Bool) : ShiftOutcome where
  action := s.action
  metrics := some s.metrics
  revision := s.revision
  published := published
  inputRows := s.read.fingerprint.rowCount
  counterResets := s.samples.counterResets
  unclassifiedSeconds := unclassifiedSeconds s.inputs.classifiedStops
  lateData := s.read.lateData

end Settled

/-- The outcome of a shift that needs no work. -/
def Reading.unchangedOutcome (read : Reading) : ShiftOutcome where
  action := .unchanged
  metrics := none
  revision := (read.stored.map StoredResult.revision).getD 0
  published := true
  inputRows := read.fingerprint.rowCount
  counterResets := 0
  unclassifiedSeconds := 0
  lateData := false

/-- What a run awaits next. -/
inductive Stage where
  | fingerprint (job : Job)
  | manual (job : Job) (counted : Fingerprint)
  | existing (job : Job) (manual : ManualReasons) (fingerprint : Fingerprint)
  | fetch (job : Job) (read : Reading) (pending : List Query) (got : Fetched)
  | exceptions (job : Job) (read : Reading) (samples : ShiftSamples)
  | settle (job : Job) (read : Reading) (samples : ShiftSamples) (inputs : ShiftInputs)
  | publish (settled : Settled)
  | mark (settled : Settled)
  | finished (outcome : ShiftOutcome)
  | raised

/-- What the runs share. -/
structure World where
  rows : List MetricRow
  exceptions : List ShiftException
  db : Database
  messages : List Message

/-- `()` when there is no input data. -/
def stopsToSave (inputs : ShiftInputs) : List ClassifiedStop :=
  if inputs.hasInputData then inputs.classifiedStops else []

/-- The save of a run. -/
def Job.save (job : Job) (db : Database) (read : Reading) (inputs : ShiftInputs) :
    Option (Database × StoredResult) :=
  Oee.save db job.unit.unitId job.window (compute inputs) (stopsToSave inputs) read.fingerprint
    job.computedAt

/-- The numbers on record are taken to be these numbers. -/
def republished (job : Job) (read : Reading) (samples : ShiftSamples) (inputs : ShiftInputs) :
    Settled :=
  { job, read, samples, inputs
    action := .republished
    resultId := (read.stored.map StoredResult.resultId).getD 0
    revision := (read.stored.map StoredResult.revision).getD 0 }

def written (job : Job) (read : Reading) (samples : ShiftSamples) (inputs : ShiftInputs)
    (saved : StoredResult) : Settled :=
  { job, read, samples, inputs
    action := if saved.revision = 1 then .computed else .revised
    resultId := saved.resultId
    revision := saved.revision }

/-- The row is republished as it is, or written. -/
def settleShift (w : World) (job : Job) (read : Reading) (samples : ShiftSamples)
    (inputs : ShiftInputs) : World × Stage :=
  if read.unchanged then (w, .publish (republished job read samples inputs))
  else
    match job.save w.db read inputs with
    | none => (w, .raised)
    | some (db, saved) => ({ w with db := db }, .publish (written job read samples inputs saved))

/-- One awaited call, and what follows it up to the next; `delivered` is the broker's answer. -/
def Stage.advance (latest : LatestRow) (w : World) (delivered : Bool) : Stage → World × Stage
  | .fingerprint job =>
      (w, .manual job (fingerprintOf w.rows job.unit.refs job.window.start job.window.finish))
  | .manual job counted =>
      let reasons := manualReasons w.db job.unit.unitId job.window
      match manualDigest reasons with
      | none => (w, .raised)
      | some digest => (w, .existing job reasons (counted.withManual digest))
  | .existing job reasons counted =>
      let read : Reading := ⟨counted, reasons, Oee.existing w.db job.unit.unitId job.window.start⟩
      if read.skips then (w, .finished read.unchangedOutcome)
      else (w, .fetch job read job.queries {})
  | .fetch job read [] got => (w, .exceptions job read got.samples)
  | .fetch job read (q :: pending) got =>
      (w, .fetch job read pending (got.add q.series (q.rows latest w.rows job)))
  | .exceptions job read samples =>
      match shiftInputs job.unit job.window samples
          (exceptionWindows w.exceptions job.unit job.window.asInterval) read.manual
          (!read.fingerprint.isEmpty) with
      | none => (w, .raised)
      | some inputs => (w, .settle job read samples inputs)
  | .settle job read samples inputs => settleShift w job read samples inputs
  | .publish settled =>
      if delivered then ({ w with messages := w.messages ++ [settled.message] }, .mark settled)
      else (w, .finished (settled.outcome false))
  | .mark settled =>
      ({ w with db := markPublished w.db settled.resultId settled.job.computedAt },
        .finished (settled.outcome true))
  | .finished outcome => (w, .finished outcome)
  | .raised => (w, .raised)

/-- A run with nothing in between. -/
def drive (latest : LatestRow) (delivered : Bool) : Nat → World × Stage → World × Stage
  | 0, s => s
  | n + 1, s => drive latest delivered n (s.2.advance latest s.1 delivered)

/-! ## Any number of processes -/

/-- What a revision was computed from. -/
structure Computation where
  job : Job
  read : Reading
  inputs : ShiftInputs
  revision : Nat

def Computation.key (c : Computation) : Nat × ℤ × Nat :=
  (c.job.unit.unitId, c.job.window.start, c.revision)

/-- The computation that the next call of a run stores. -/
def Stage.computation (w : World) : Stage → Option Computation
  | .settle job read _ inputs =>
      if read.unchanged then none
      else (job.save w.db read inputs).map fun saved => ⟨job, read, inputs, saved.2.revision⟩
  | _ => none

/-- The tables, and the computations stored so far. -/
structure Shared where
  world : World
  computations : List Computation

/-- What happens beside the runs. -/
inductive Disturbance where
  | arrive (rows : List MetricRow)
  | edit (exceptions : List ShiftException)
  | assign (call : AssignCall)

/-- An operator's call; one that raises or finds no event changes nothing. -/
def World.assign (w : World) (call : AssignCall) : World :=
  match call.run w.db with
  | .queued db => { w with db := db }
  | .unknownReason => w
  | .noSuchEvent => w

def Shared.disturb (s : Shared) : Disturbance → Shared
  | .arrive rows => { s with world := { s.world with rows := rows } }
  | .edit exceptions => { s with world := { s.world with exceptions := exceptions } }
  | .assign call => { s with world := s.world.assign call }

/-- A step of a run, with the computation it stores. -/
def Stage.next (latest : LatestRow) (delivered : Bool) (s : Shared) (stage : Stage) : Shared × Stage :=
  let moved := stage.advance latest s.world delivered
  (⟨moved.1, s.computations ++ (stage.computation s.world).toList⟩, moved.2)

/-- A run starts at its first read, or has been abandoned. -/
def Stage.IsEntry : Stage → Prop
  | .fingerprint _ => True
  | .raised => True
  | _ => False

def engineProgram (latest : LatestRow) : Program Shared Stage Bool Disturbance where
  advance := Stage.next latest
  disturb e s := s.disturb e
  entry := Stage.IsEntry

/-- Where the processes `ι` are. -/
abbrev Engine (ι : Type) := Config ι Shared Stage

abbrev Event (ι : Type) := Move ι Stage Bool Disturbance

/-- No result is stored, nothing is published and no run is under way. -/
structure Fresh {ι : Type} (s : Engine ι) : Prop where
  results : ∀ k, s.shared.world.db.results.find? k = none
  revisions : ∀ k, s.shared.world.db.revisions.find? k = none
  messages : s.shared.world.messages = []
  computations : s.shared.computations = []
  locals : ∀ i, s.locals i = .raised

/-- Every run of the engine by the processes `ι`. -/
def engine (ι : Type) [DecidableEq ι] (latest : LatestRow) : System (Engine ι) (Event ι) :=
  (engineProgram latest).system ι Fresh

/-! ## One step of a run -/

section Step

variable {latest : LatestRow} {delivered : Bool} {s : Shared} {stage : Stage}

/-- What a step does to what the runs share: nothing, or it saves, publishes or marks. -/
inductive SharedStep (s : Shared) : Stage → Shared → Prop
  | quiet (stage : Stage) : SharedStep s stage s
  | saved {job : Job} {read : Reading} {samples : ShiftSamples} {inputs : ShiftInputs}
      {db : Database} {out : StoredResult} (changed : read.unchanged = false)
      (save : job.save s.world.db read inputs = some (db, out)) :
      SharedStep s (.settle job read samples inputs)
        ⟨{ s.world with db := db }, s.computations ++ [⟨job, read, inputs, out.revision⟩]⟩
  | published (settled : Settled) :
      SharedStep s (.publish settled)
        ⟨{ s.world with messages := s.world.messages ++ [settled.message] }, s.computations⟩
  | marked (settled : Settled) :
      SharedStep s (.mark settled)
        ⟨{ s.world with
            db := markPublished s.world.db settled.resultId settled.job.computedAt }, s.computations⟩

theorem settle_cases (w : World) (job : Job) (read : Reading) (samples : ShiftSamples)
    (inputs : ShiftInputs) :
    (read.unchanged = true ∧
        settleShift w job read samples inputs = (w, .publish (republished job read samples inputs))) ∨
      (read.unchanged = false ∧ job.save w.db read inputs = none ∧
        settleShift w job read samples inputs = (w, .raised)) ∨
      ∃ db out, read.unchanged = false ∧ job.save w.db read inputs = some (db, out) ∧
        settleShift w job read samples inputs =
          ({ w with db := db }, .publish (written job read samples inputs out)) := by
  cases hu : read.unchanged with
  | true => exact .inl ⟨rfl, by rw [settleShift, if_pos hu]⟩
  | false =>
      cases hsave : job.save w.db read inputs with
      | none =>
          refine .inr (.inl ⟨rfl, rfl, ?_⟩)
          simp only [settleShift, hu, hsave, Bool.false_eq_true, if_false]
      | some saved =>
          refine .inr (.inr ⟨saved.1, saved.2, rfl, rfl, ?_⟩)
          simp only [settleShift, hu, hsave, Bool.false_eq_true, if_false]

theorem sharedStep_next : SharedStep s stage (stage.next latest delivered s).1 := by
  have hsame : ∀ stage', (⟨s.world, s.computations ++ []⟩ : Shared) = s →
      SharedStep s stage' ⟨s.world, s.computations ++ []⟩ := by
    intro stage' h
    rw [h]
    exact .quiet _
  have hnil : (⟨s.world, s.computations ++ []⟩ : Shared) = s := by
    rw [List.append_nil]
  cases stage with
  | fingerprint job => exact hsame _ hnil
  | manual job counted =>
      simp only [Stage.next, Stage.advance]
      split <;> exact hsame _ hnil
  | existing job reasons counted =>
      simp only [Stage.next, Stage.advance]
      split <;> exact hsame _ hnil
  | fetch job read pending got =>
      cases pending with
      | nil => exact hsame _ hnil
      | cons q pending => exact hsame _ hnil
  | exceptions job read samples =>
      simp only [Stage.next, Stage.advance]
      split <;> exact hsame _ hnil
  | settle job read samples inputs =>
      rcases settle_cases s.world job read samples inputs with
        ⟨hu, heq⟩ | ⟨hu, hsave, heq⟩ | ⟨db, out, hu, hsave, heq⟩
      · simp only [Stage.next, Stage.advance, Stage.computation, heq, hu, if_true]
        exact hsame _ hnil
      · simp only [Stage.next, Stage.advance, Stage.computation, heq, hu, hsave, Option.map_none,
          Bool.false_eq_true, if_false]
        exact hsame _ hnil
      · simp only [Stage.next, Stage.advance, Stage.computation, heq, hu, hsave, Option.map_some,
          Bool.false_eq_true, if_false]
        exact .saved hu hsave
  | publish settled =>
      simp only [Stage.next, Stage.advance]
      split
      · have hadd := SharedStep.published (s := s) settled
        rw [← List.append_nil s.computations] at hadd
        exact hadd
      · exact hsame _ hnil
  | mark settled =>
      have hadd := SharedStep.marked (s := s) settled
      rw [← List.append_nil s.computations] at hadd
      exact hadd
  | finished outcome => exact hsame _ hnil
  | raised => exact hsame _ hnil

/-- An assertion for each run: on what it has read, on the row it has settled, and on the message it
has sent. -/
def Asserts (R : Job → Reading → Prop) (P M : Settled → Prop) : Stage → Prop
  | .fetch job read _ _ => R job read
  | .exceptions job read _ => R job read
  | .settle job read _ _ => R job read
  | .publish settled => P settled
  | .mark settled => M settled
  | _ => True

theorem Asserts.mono {R R' : Job → Reading → Prop} {P P' M M' : Settled → Prop}
    (hR : ∀ job read, R job read → R' job read) (hP : ∀ settled, P settled → P' settled)
    (hM : ∀ settled, M settled → M' settled) (h : Asserts R P M stage) : Asserts R' P' M' stage := by
  cases stage with
  | fingerprint job => trivial
  | manual job counted => trivial
  | existing job reasons counted => trivial
  | fetch job read pending got => exact hR _ _ h
  | exceptions job read samples => exact hR _ _ h
  | settle job read samples inputs => exact hR _ _ h
  | publish settled => exact hP _ h
  | mark settled => exact hM _ h
  | finished outcome => trivial
  | raised => trivial

/-- The rule for these assertions: what the read of the stored row establishes, and what follows
when the row is settled, and when the message is out. -/
theorem asserts_next {R : Shared → Job → Reading → Prop} {P M : Shared → Settled → Prop}
    (h : Asserts (R s) (P s) (M s) stage)
    (hread : ∀ job reasons counted, stage = .existing job reasons counted →
      R s job ⟨counted, reasons, existing s.world.db job.unit.unitId job.window.start⟩)
    (hrepublish : ∀ job read samples inputs, stage = .settle job read samples inputs →
      read.unchanged = true → P s (republished job read samples inputs))
    (hsaved : ∀ job read samples inputs db out, stage = .settle job read samples inputs →
      read.unchanged = false → job.save s.world.db read inputs = some (db, out) →
        P ⟨{ s.world with db := db }, s.computations ++ [⟨job, read, inputs, out.revision⟩]⟩
          (written job read samples inputs out))
    (hpublish : ∀ settled, stage = .publish settled →
      M ⟨{ s.world with messages := s.world.messages ++ [settled.message] }, s.computations⟩ settled) :
    Asserts (R (stage.next latest delivered s).1) (P (stage.next latest delivered s).1)
      (M (stage.next latest delivered s).1) (stage.next latest delivered s).2 := by
  have hnil : (⟨s.world, s.computations ++ []⟩ : Shared) = s := by
    rw [List.append_nil]
  cases stage with
  | fingerprint job => trivial
  | manual job counted =>
      simp only [Stage.next, Stage.advance]
      split <;> trivial
  | existing job reasons counted =>
      have hr := hread job reasons counted rfl
      simp only [Stage.next, Stage.advance]
      split
      · trivial
      · change R ⟨s.world, s.computations ++ []⟩ _ _
        rw [hnil]
        exact hr
  | fetch job read pending got =>
      cases pending with
      | nil =>
          change R ⟨s.world, s.computations ++ []⟩ _ _
          rw [hnil]
          exact h
      | cons q pending =>
          change R ⟨s.world, s.computations ++ []⟩ _ _
          rw [hnil]
          exact h
  | exceptions job read samples =>
      simp only [Stage.next, Stage.advance]
      split
      · trivial
      · change R ⟨s.world, s.computations ++ []⟩ _ _
        rw [hnil]
        exact h
  | settle job read samples inputs =>
      rcases settle_cases s.world job read samples inputs with
        ⟨hu, heq⟩ | ⟨hu, hsave, heq⟩ | ⟨db, out, hu, hsave, heq⟩
      · simp only [Stage.next, Stage.advance, Stage.computation, heq, hu, if_true]
        change P ⟨s.world, s.computations ++ []⟩ _
        rw [hnil]
        exact hrepublish _ _ _ _ rfl hu
      · simp only [Stage.next, Stage.advance, heq]
        trivial
      · simp only [Stage.next, Stage.advance, Stage.computation, heq, hu, hsave, Option.map_some,
          Bool.false_eq_true, if_false]
        exact hsaved _ _ _ _ _ _ rfl hu hsave
  | publish settled =>
      simp only [Stage.next, Stage.advance]
      split
      · change M ⟨_, s.computations ++ []⟩ _
        rw [List.append_nil]
        exact hpublish _ rfl
      · trivial
  | mark settled => trivial
  | finished outcome => trivial
  | raised => trivial

end Step

/-! ## A line that runs -/

/-- The first of the rows with the latest time. -/
def newest : List MetricRow → Option MetricRow
  | [] => none
  | r :: rows =>
      match newest rows with
      | none => some r
      | some q => if r.time < q.time then some q else some r

theorem newest_cons (r : MetricRow) (rows : List MetricRow) :
    ∃ q, newest (r :: rows) = some q ∧ (q = r ∨ newest rows = some q) ∧ r.time ≤ q.time ∧
      ∀ p ∈ newest rows, p.time ≤ q.time := by
  cases h : newest rows with
  | none =>
      refine ⟨r, by simp only [newest, h], .inl rfl, le_refl _, ?_⟩
      intro p hp
      cases hp
  | some q =>
      by_cases hlt : r.time < q.time
      · refine ⟨q, by simp only [newest, h, if_pos hlt], .inr rfl, hlt.le, ?_⟩
        intro p hp
        rw [Option.some.inj hp]
      · refine ⟨r, by simp only [newest, h, if_neg hlt], .inl rfl, le_refl _, ?_⟩
        intro p hp
        rw [← Option.some.inj hp]
        exact not_lt.mp hlt

theorem newest_spec (rows : List MetricRow) :
    ((newest rows).isSome = true ↔ rows ≠ []) ∧
      ∀ q, newest rows = some q → q ∈ rows ∧ ∀ p ∈ rows, p.time ≤ q.time := by
  induction rows with
  | nil =>
      refine ⟨by simp [newest], ?_⟩
      intro q hq
      cases hq
  | cons r rows ih =>
      obtain ⟨hsome, hmax⟩ := ih
      obtain ⟨q, hq, hfrom, hr, hrest⟩ := newest_cons r rows
      refine ⟨by simp [hq], ?_⟩
      intro q' hq'
      rw [hq] at hq'
      obtain rfl := Option.some.inj hq'
      constructor
      · rcases hfrom with rfl | hfrom
        · exact List.mem_cons_self
        · exact List.mem_cons_of_mem _ (hmax q hfrom).1
      · intro p hp
        rcases List.mem_cons.mp hp with rfl | hp
        · exact hr
        · have hne : rows ≠ [] := List.ne_nil_of_mem hp
          obtain ⟨m, hm⟩ := Option.isSome_iff_exists.mp (hsome.mpr hne)
          exact ((hmax m hm).2 p hp).trans (hrest m hm)

def newestRow : LatestRow where
  pick := newest
  isSome rows := (newest_spec rows).1
  mem rows r hr := ((newest_spec rows).2 r hr).1
  latest rows r hr := ((newest_spec rows).2 r hr).2

def stateRow (time : ℤ) (state : Str) : MetricRow :=
  ⟨time, lit "Plant/Line1/Status", lit "value", none, some state⟩

def goodRow (time : ℤ) (count : ℚ) : MetricRow :=
  ⟨time, lit "Plant/Line1/Good", lit "value", some count, none⟩

/-- The unit with an ideal cycle time. -/
def idealUnit (seconds : ℚ) : UnitMasterData := { lineUnit with idealCycleTimes := fun _ => some seconds }

/-- Its first shift. -/
def firstShift (idealSeconds : ℚ) : Job := ⟨idealUnit idealSeconds, tenSeconds, hours 1⟩

/-- Five parts in ten seconds. -/
def fiveParts : List MetricRow := [stateRow 0 executeState, goodRow 0 0, goodRow (seconds 9) 5]

/-- Nothing on record, and the rows of the shift. -/
def idleEngine (ι : Type) : Engine ι :=
  ⟨⟨⟨fiveParts, [], plantDatabase, []⟩, []⟩, fun _ => .raised⟩

theorem fresh_idleEngine (ι : Type) : Fresh (idleEngine ι) :=
  ⟨fun _ => rfl, fun _ => rfl, rfl, rfl, fun _ => rfl⟩

/-- A run and some of its steps. -/
def runMoves {ι : Type} (i : ι) (job : Job) (steps : Nat) (delivered : Bool) : List (Event ι) :=
  .start i (.fingerprint job) :: List.replicate steps (.advance i delivered)

theorem allowed_runMoves {ι : Type} {latest : LatestRow} {i : ι} {job : Job} {steps : Nat}
    {delivered : Bool} : ∀ m ∈ runMoves i job steps delivered, (engineProgram latest).Allowed m := by
  intro m hm
  rcases List.mem_cons.mp hm with rfl | hm
  · trivial
  · rw [List.eq_of_mem_replicate hm]
    trivial

end Uns.Oee
