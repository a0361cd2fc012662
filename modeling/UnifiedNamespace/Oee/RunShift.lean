/-
# `Oee.RunShift` — a run with nothing in between

`ShiftPipeline.run_shift` as a pass calls it, one shift after the other.  What the
run reads is then a function of the tables it begins with (`Job.reading`,
`Job.inputs`), and every stage of it is described by them (`Quiet`).

A run may raise at any awaited call, so it is the number of calls that are
answered.  However many there are, it leaves the historian's rows, the queue, the
operators' reasons and the rows of the other shifts as they were (`Quiet.frame`).
-/
import UnifiedNamespace.Oee.Reassigned

namespace Uns.Oee

open Py Lib

/-! ## The run -/

def Stage.outcome? : Stage → Option ShiftOutcome
  | .finished outcome => some outcome
  | _ => none

/-- `run_shift`; no outcome is a run that raises, after `calls` answers or of its own accord. -/
def runShift (latest : LatestRow) (delivered : Bool) (calls : Nat) (w : World) (job : Job) :
    World × Option ShiftOutcome :=
  let s := drive latest delivered calls (w, .fingerprint job)
  (s.1, s.2.outcome?)

/-- The calls that a run makes at most. -/
def Job.calls (job : Job) : Nat := job.queries.length + 8

/-- What is read before the decision. -/
def Job.reading (w : World) (job : Job) : Option Reading :=
  let manual := manualReasons w.db job.unit.unitId job.window
  (manualDigest manual).map fun digest =>
    ⟨(fingerprintOf w.rows job.unit.refs job.window.start job.window.finish).withManual digest, manual,
      Oee.existing w.db job.unit.unitId job.window.start⟩

/-- The answers to several statements. -/
def fetchAll (latest : LatestRow) (rows : List MetricRow) (job : Job) (queries : List Query)
    (got : Fetched) : Fetched :=
  queries.foldl (fun got q => got.add q.series (q.rows latest rows job)) got

/-- `_fetch`. -/
def Job.samples (latest : LatestRow) (rows : List MetricRow) (job : Job) : ShiftSamples :=
  (fetchAll latest rows job job.queries {}).samples

/-- What the calculator is given. -/
def Job.inputs (latest : LatestRow) (w : World) (job : Job) (read : Reading) : Option ShiftInputs :=
  shiftInputs job.unit job.window (job.samples latest w.rows)
    (exceptionWindows w.exceptions job.unit job.window.asInterval) read.manual (!read.fingerprint.isEmpty)

/-- The row is on record, and the message is next. -/
structure Settles (latest : LatestRow) (w : World) (job : Job) (w' : World) (settled : Settled) :
    Prop where
  reading : job.reading w = some settled.read
  continued : settled.read.skips = false
  inputs : job.inputs latest w settled.read = some settled.inputs
  settle : settleShift w job settled.read (job.samples latest w.rows) settled.inputs =
    (w', .publish settled)

def World.sent (w : World) (settled : Settled) : World :=
  { w with messages := w.messages ++ [settled.message] }

def World.marked (w : World) (settled : Settled) : World :=
  { w with db := markPublished w.db settled.resultId settled.job.computedAt }

/-- Where a run may be, by the tables it began with. -/
inductive Quiet (latest : LatestRow) (w : World) (job : Job) : World → Stage → Prop
  | fingerprint : Quiet latest w job w (.fingerprint job)
  | manual : Quiet latest w job w
      (.manual job (fingerprintOf w.rows job.unit.refs job.window.start job.window.finish))
  | existing {digest : Str}
      (hdigest : manualDigest (manualReasons w.db job.unit.unitId job.window) = some digest) :
      Quiet latest w job w (.existing job (manualReasons w.db job.unit.unitId job.window)
        ((fingerprintOf w.rows job.unit.refs job.window.start job.window.finish).withManual digest))
  | fetch {read : Reading} {pending : List Query} {got : Fetched} (hread : job.reading w = some read)
      (hskips : read.skips = false)
      (hgot : (fetchAll latest w.rows job pending got).samples = job.samples latest w.rows) :
      Quiet latest w job w (.fetch job read pending got)
  | exceptions {read : Reading} (hread : job.reading w = some read) (hskips : read.skips = false) :
      Quiet latest w job w (.exceptions job read (job.samples latest w.rows))
  | settle {read : Reading} {inputs : ShiftInputs} (hread : job.reading w = some read)
      (hskips : read.skips = false) (hinputs : job.inputs latest w read = some inputs) :
      Quiet latest w job w (.settle job read (job.samples latest w.rows) inputs)
  | publish {w' : World} {settled : Settled} (h : Settles latest w job w' settled) :
      Quiet latest w job w' (.publish settled)
  | mark {w' : World} {settled : Settled} (h : Settles latest w job w' settled) :
      Quiet latest w job (w'.sent settled) (.mark settled)
  | skipped {read : Reading} (hread : job.reading w = some read) (hskips : read.skips = true) :
      Quiet latest w job w (.finished read.unchangedOutcome)
  | unsent {w' : World} {settled : Settled} (h : Settles latest w job w' settled) :
      Quiet latest w job w' (.finished (settled.outcome false))
  | sent {w' : World} {settled : Settled} (h : Settles latest w job w' settled) :
      Quiet latest w job ((w'.sent settled).marked settled) (.finished (settled.outcome true))
  | raised : Quiet latest w job w .raised

section Run

variable {latest : LatestRow} {delivered : Bool} {w w' : World} {job : Job} {stage : Stage}

/-- One call leads from stage to stage. -/
theorem Quiet.advance (h : Quiet latest w job w' stage) :
    Quiet latest w job (stage.advance latest w' delivered).1 (stage.advance latest w' delivered).2 := by
  cases h with
  | fingerprint => exact .manual
  | manual =>
      simp only [Stage.advance]
      split
      · exact .raised
      · rename_i digest hdigest
        exact .existing hdigest
  | existing hdigest =>
      have hread : job.reading w = some ⟨_, _, Oee.existing w.db job.unit.unitId job.window.start⟩ :=
        congrArg (Option.map _) hdigest
      simp only [Stage.advance]
      split
      · rename_i hskips
        exact .skipped hread hskips
      · rename_i hskips
        exact .fetch hread (Bool.eq_false_iff.mpr hskips) rfl
  | @fetch read pending got hread hskips hgot =>
      cases pending with
      | nil =>
          have hsamples : got.samples = job.samples latest w.rows := hgot
          simp only [Stage.advance, hsamples]
          exact .exceptions hread hskips
      | cons q pending => exact .fetch hread hskips hgot
  | exceptions hread hskips =>
      simp only [Stage.advance]
      split
      · exact .raised
      · rename_i inputs hinputs
        exact .settle hread hskips hinputs
  | @settle read inputs hread hskips hinputs =>
      rcases settle_cases w job read (job.samples latest w.rows) inputs with
        ⟨-, heq⟩ | ⟨-, -, heq⟩ | ⟨db, out, -, -, heq⟩
      · simp only [Stage.advance, heq]
        exact .publish ⟨hread, hskips, hinputs, heq⟩
      · simp only [Stage.advance, heq]
        exact .raised
      · simp only [Stage.advance, heq]
        exact .publish ⟨hread, hskips, hinputs, heq⟩
  | publish h =>
      simp only [Stage.advance]
      split
      · exact .mark h
      · exact .unsent h
  | mark h => exact .sent h
  | skipped hread hskips => exact .skipped hread hskips
  | unsent h => exact .unsent h
  | sent h => exact .sent h
  | raised => exact .raised

theorem Quiet.drive (calls : Nat) {s : World × Stage} (h : Quiet latest w job s.1 s.2) :
    Quiet latest w job (Oee.drive latest delivered calls s).1 (Oee.drive latest delivered calls s).2 := by
  induction calls generalizing s with
  | zero => exact h
  | succ n ih => exact ih h.advance

/-- Whatever is answered, the run is at one of these stages. -/
theorem quiet_runShift (latest : LatestRow) (delivered : Bool) (calls : Nat) (w : World) (job : Job) :
    Quiet latest w job (drive latest delivered calls (w, .fingerprint job)).1
      (drive latest delivered calls (w, .fingerprint job)).2 :=
  Quiet.drive calls .fingerprint

theorem quiet_of_outcome {calls : Nat} {outcome : ShiftOutcome}
    (h : (runShift latest delivered calls w job).2 = some outcome) :
    Quiet latest w job (runShift latest delivered calls w job).1 (.finished outcome) := by
  have hquiet := quiet_runShift latest delivered calls w job
  have hstage : (drive latest delivered calls (w, .fingerprint job)).2 = .finished outcome := by
    change Stage.outcome? (drive latest delivered calls (w, .fingerprint job)).2 = some outcome at h
    cases hst : (drive latest delivered calls (w, .fingerprint job)).2 with
    | finished found =>
        rw [hst] at h
        rw [Option.some.inj h]
    | _ =>
        rw [hst] at h
        cases h
  rw [hstage] at hquiet
  exact hquiet

/-! ## It ends -/

/-- The calls still to be made. -/
def Stage.remaining : Stage → Nat
  | .fingerprint job => job.calls
  | .manual job _ => job.queries.length + 7
  | .existing job _ _ => job.queries.length + 6
  | .fetch _ _ pending _ => pending.length + 5
  | .exceptions .. => 4
  | .settle .. => 3
  | .publish _ => 2
  | .mark _ => 1
  | .finished _ => 0
  | .raised => 0

theorem remaining_advance : (stage.advance latest w delivered).2.remaining ≤ stage.remaining - 1 := by
  cases stage with
  | fingerprint job => exact le_refl _
  | manual job counted =>
      simp only [Stage.advance]
      split
      · exact Nat.zero_le _
      · exact le_refl _
  | existing job reasons counted =>
      simp only [Stage.advance]
      split
      · exact Nat.zero_le _
      · exact le_refl _
  | fetch job read pending got =>
      cases pending with
      | nil => exact le_refl _
      | cons q pending => exact le_refl _
  | exceptions job read samples =>
      simp only [Stage.advance]
      split
      · exact Nat.zero_le _
      · exact le_refl _
  | settle job read samples inputs =>
      rcases settle_cases w job read samples inputs with ⟨-, heq⟩ | ⟨-, -, heq⟩ | ⟨db, out, -, -, heq⟩
      · simp only [Stage.advance, heq]
        exact le_refl _
      · simp only [Stage.advance, heq]
        exact Nat.zero_le _
      · simp only [Stage.advance, heq]
        exact le_refl _
  | publish settled =>
      simp only [Stage.advance]
      split
      · exact le_refl _
      · exact Nat.zero_le _
  | mark settled => exact le_refl _
  | finished outcome => exact le_refl _
  | raised => exact le_refl _

theorem remaining_drive (calls : Nat) (s : World × Stage) :
    (drive latest delivered calls s).2.remaining ≤ s.2.remaining - calls := by
  induction calls generalizing s with
  | zero => exact le_refl _
  | succ n ih =>
      refine (ih _).trans ?_
      have hstep := @remaining_advance latest delivered s.1 s.2
      omega

/-- A run whose calls are all answered has an outcome, or has raised by itself. -/
theorem runShift_ends {calls : Nat} (h : job.calls ≤ calls) :
    (∃ outcome, (drive latest delivered calls (w, .fingerprint job)).2 = .finished outcome) ∨
      (drive latest delivered calls (w, .fingerprint job)).2 = .raised := by
  have hzero := @remaining_drive latest delivered calls (w, .fingerprint job)
  change _ ≤ job.calls - calls at hzero
  rw [Nat.sub_eq_zero_of_le h] at hzero
  cases hstage : (drive latest delivered calls (w, .fingerprint job)).2 with
  | finished outcome => exact .inl ⟨outcome, rfl⟩
  | raised => exact .inr rfl
  | fingerprint job =>
      rw [hstage] at hzero
      cases hzero
  | manual job counted =>
      rw [hstage] at hzero
      cases hzero
  | existing job reasons counted =>
      rw [hstage] at hzero
      cases hzero
  | fetch job read pending got =>
      rw [hstage] at hzero
      cases hzero
  | exceptions job read samples =>
      rw [hstage] at hzero
      cases hzero
  | settle job read samples inputs =>
      rw [hstage] at hzero
      cases hzero
  | publish settled =>
      rw [hstage] at hzero
      cases hzero
  | mark settled =>
      rw [hstage] at hzero
      cases hzero

/-! ## The operators' rows -/

end Run

/-- The reasons that a person has set, by the stop's unit and start. -/
def manualRows (events : EventTable) : List ((Nat × ℤ) × ReasonColumns) :=
  events.rows.entries.filterMap fun e =>
    if e.2.2.reason.reasonSource = .manual then some (e.1, e.2.2.reason) else none

theorem mem_manualRows {events : EventTable} {k : Nat × ℤ} {columns : ReasonColumns} :
    (k, columns) ∈ manualRows events ↔
      ∃ r, events.find? k = some r ∧ r.2.reason = columns ∧ columns.reasonSource = .manual := by
  unfold manualRows
  rw [List.mem_filterMap]
  constructor
  · rintro ⟨e, he, hrow⟩
    split at hrow
    · rename_i hmanual
      cases hrow
      exact ⟨e.2, Dict.get?_of_mem he, rfl, hmanual⟩
    · cases hrow
  · rintro ⟨r, hr, rfl, hmanual⟩
    exact ⟨(k, r), Dict.mem_of_get? hr, if_pos hmanual⟩

theorem entries_manualReasons (db : Database) (unitId : Nat) (window : ShiftWindow) :
    (manualReasons db unitId window).entries = (manualRows db.events).filterMap fun e =>
      if e.1.1 = unitId ∧ window.start ≤ e.1.2 ∧ e.1.2 < window.finish then
        some (e.1.2, ⟨e.2.reasonCode, some e.2.note, e.2.assignedBy⟩)
      else none := by
  unfold manualReasons manualRows
  dsimp only
  rw [List.filterMap_filterMap]
  induction db.events.rows.entries with
  | nil => rfl
  | cons e es ih =>
      by_cases hmanual : e.2.2.reason.reasonSource = .manual <;>
        by_cases hin : e.1.1 = unitId ∧ window.start ≤ e.1.2 ∧ e.1.2 < window.finish
      · rw [List.filter_cons_of_pos (by simpa [hmanual] using hin), List.map_cons, ih,
          List.filterMap_cons]
        simp [hmanual, hin]
      · rw [List.filter_cons_of_neg (by simpa [hmanual] using hin), ih, List.filterMap_cons]
        simp [hmanual, hin]
      · rw [List.filter_cons_of_neg (by simp [hmanual]), ih, List.filterMap_cons]
        simp [hmanual]
      · rw [List.filter_cons_of_neg (by simp [hmanual]), ih, List.filterMap_cons]
        simp [hmanual]

theorem manualReasons_congr {db db' : Database} (h : manualRows db'.events = manualRows db.events)
    (unitId : Nat) (window : ShiftWindow) :
    manualReasons db' unitId window = manualReasons db unitId window := by
  have hentries : (manualReasons db' unitId window).entries = (manualReasons db unitId window).entries := by
    rw [entries_manualReasons, entries_manualReasons, h]
  generalize manualReasons db' unitId window = M at hentries
  generalize manualReasons db unitId window = N at hentries
  cases M
  cases N
  cases hentries
  rfl

/-- A stop is a person's only when its row is. -/
def Attributed (events : EventTable) (unitId : Nat) (stops : List ClassifiedStop) : Prop :=
  ∀ stop ∈ stops, stop.source = .manual →
    ∃ columns, ((unitId, stop.interval.start), columns) ∈ manualRows events

theorem manualRows_upsert? {events events' : EventTable} {unitId : Nat} {shiftStart : ℤ}
    {stop : ClassifiedStop} (hown : Attributed events unitId [stop])
    (h : events.upsert? (unitId, stop.interval.start) (eventValue shiftStart stop)
      (mergeEvent (eventValue shiftStart stop)) = some events') :
    manualRows events' = manualRows events := by
  unfold Table.upsert? at h
  split at h
  · -- a new row is not a person's
    rename_i hnone
    have hauto : stop.source ≠ .manual := by
      intro hmanual
      obtain ⟨columns, hrow⟩ := hown stop (List.mem_singleton_self _) hmanual
      obtain ⟨r, hr, -⟩ := mem_manualRows.mp hrow
      rw [hnone] at hr
      cases hr
    unfold Table.insert? at h
    split at h
    · rename_i hok
      obtain rfl := Option.some.inj h
      unfold manualRows
      rw [Dict.entries_update_of_none _ _ hok.1, List.filterMap_append, List.filterMap_cons]
      have hcolumns : (eventValue shiftStart stop).reason.reasonSource ≠ .manual := hauto
      simp [hcolumns]
    · cases h
  · rename_i r hrow
    split at h
    · unfold Table.modify? at h
      split at h
      · obtain rfl := Option.some.inj h
        unfold manualRows
        change List.filterMap _ (List.map _ _) = _
        rw [List.filterMap_map]
        refine List.filterMap_congr fun e he => ?_
        simp only [Function.comp_apply]
        split
        · rename_i hkey
          have hkey := decide_eq_true_eq.mp hkey
          have he' : events.find? e.1 = some e.2 := Dict.get?_of_mem he
          unfold mergeEvent
          by_cases hmanual : e.2.2.reason.reasonSource = .manual
          · simp only [hmanual, if_true]
          · have hauto : stop.source ≠ .manual := by
              intro hstop
              obtain ⟨columns, hc⟩ := hown stop (List.mem_singleton_self _) hstop
              obtain ⟨q, hq, rfl, hqm⟩ := mem_manualRows.mp hc
              rw [← hkey, he'] at hq
              obtain rfl := Option.some.inj hq
              exact hmanual hqm
            have hcolumns : (eventValue shiftStart stop).reason.reasonSource ≠ .manual := hauto
            simp only [hmanual, hcolumns, if_false]
        · rfl
      · cases h
    · cases h

theorem manualRows_upsertStops {events events' : EventTable} {unitId : Nat} {shiftStart : ℤ}
    {stops : List ClassifiedStop} (hown : Attributed events unitId stops)
    (h : upsertStops events unitId shiftStart stops = some events') :
    manualRows events' = manualRows events := by
  induction stops generalizing events with
  | nil =>
      obtain rfl := Option.some.inj h
      rfl
  | cons stop stops ih =>
      obtain ⟨events₁, hstop, hrest⟩ := Option.bind_eq_some_iff.mp h
      have hfirst := manualRows_upsert? (fun s hs => hown s (List.mem_singleton.mp hs ▸ List.mem_cons_self))
        hstop
      have hown₁ : Attributed events₁ unitId stops := by
        intro s hs
        rw [hfirst]
        exact hown s (List.mem_cons_of_mem _ hs)
      rw [ih hown₁ hrest, hfirst]

/-- What is deleted is not a person's. -/
theorem manualRows_downtimeAutoDelete (events : EventTable) (unitId : Nat) (shiftStart : ℤ)
    (keep : List ℤ) : manualRows (downtimeAutoDelete events unitId shiftStart keep) = manualRows events := by
  unfold manualRows downtimeAutoDelete
  change List.filterMap _ (List.filter _ _) = _
  induction events.rows.entries with
  | nil => rfl
  | cons e es ih =>
      by_cases hstale : stale unitId shiftStart keep e.1 e.2.2 = true
      · have hauto : e.2.2.reason.reasonSource = .auto := (decide_eq_true_eq.mp hstale).2.2.1
        rw [List.filter_cons_of_neg (by simp [hstale]), ih, List.filterMap_cons]
        simp [hauto]
      · rw [List.filter_cons_of_pos (by simpa using hstale), List.filterMap_cons, List.filterMap_cons, ih]

/-- A save leaves the operators' reasons. -/
theorem manualRows_save {db db' : Database} {unitId : Nat} {window : ShiftWindow}
    {metrics : ShiftMetrics} {stops : List ClassifiedStop} {fingerprint : Fingerprint} {computedAt : ℤ}
    {out : StoredResult} (hown : Attributed db.events unitId stops)
    (h : save db unitId window metrics stops fingerprint computedAt = some (db', out)) :
    manualRows db'.events = manualRows db.events := by
  obtain ⟨written, hw, h⟩ := Option.bind_eq_some_iff.mp h
  obtain ⟨products, -, h⟩ := Option.bind_eq_some_iff.mp h
  obtain ⟨events, hev, h⟩ := Option.bind_eq_some_iff.mp h
  obtain ⟨saved, hsaved, heq⟩ := Option.map_eq_some_iff.mp h
  obtain ⟨-, hdb, -, -⟩ := writeResult_spec hw
  unfold Database.withEvents? at hsaved
  split at hsaved
  · obtain rfl := Option.some.inj hsaved
    cases heq
    unfold downtimeUpsert at hev
    split at hev
    · rw [hdb] at hev
      exact (manualRows_downtimeAutoDelete _ _ _ _).trans (manualRows_upsertStops hown hev)
    · cases hev
  · cases hsaved

/-- A reason that is a person's was read as one. -/
theorem source_classify {resolver : ReasonResolver} {manual : ℤ → Option ManualReason}
    {stops : List StopInterval} {cs : List ClassifiedStop} (h : classify resolver manual stops = some cs)
    {c : ClassifiedStop} (hc : c ∈ cs) (hmanual : c.source = .manual) :
    (manual c.interval.start).isSome = true := by
  induction stops generalizing cs with
  | nil =>
      obtain rfl := Option.some.inj h
      cases hc
  | cons stop stops ih =>
      obtain ⟨d, rest, hd, hrest, rfl⟩ := classify_cons.mp h
      rcases List.mem_cons.mp hc with rfl | hc
      · obtain ⟨hinterval, -, hsource⟩ := classifyStop_spec hd
        rw [hinterval]
        exact hsource.mp hmanual
      · exact ih hrest hc

theorem attributed_stopsToSave {u : UnitMasterData} {window : ShiftWindow} {samples : ShiftSamples}
    {exceptions : List ExceptionWindow} {db : Database} {hasInputData : Bool} {inputs : ShiftInputs}
    (h : shiftInputs u window samples exceptions (manualReasons db u.unitId window) hasInputData =
      some inputs) : Attributed db.events u.unitId (stopsToSave inputs) := by
  obtain ⟨classified, hclassified, rfl⟩ := Option.map_eq_some_iff.mp h
  intro stop hstop hmanual
  have hmem : stop ∈ classified := by
    unfold stopsToSave at hstop
    split at hstop
    · exact hstop
    · cases hstop
  have hsome : ((manualReasons db u.unitId window).get? stop.interval.start).isSome = true := by
    obtain ⟨observed, hobserved, hgaps⟩ := Option.bind_eq_some_iff.mp hclassified
    split at hgaps
    · obtain ⟨gaps, hunobserved, heq⟩ := Option.map_eq_some_iff.mp hgaps
      rw [← heq] at hmem
      rcases List.mem_append.mp hmem with hmem | hmem
      · exact source_classify hobserved hmem hmanual
      · have hnone := source_classify hunobserved hmem hmanual
        cases hnone
    · obtain rfl := Option.some.inj hgaps
      exact source_classify hobserved hmem hmanual
  obtain ⟨reason, hreason⟩ := Option.isSome_iff_exists.mp hsome
  have hentry := Dict.mem_of_get? hreason
  rw [entries_manualReasons, List.mem_filterMap] at hentry
  obtain ⟨e, he, hkey⟩ := hentry
  split at hkey
  · rename_i hin
    refine ⟨e.2, ?_⟩
    have hstart : e.1.2 = stop.interval.start := congrArg Prod.fst (Option.some.inj hkey)
    rw [← hin.1, ← hstart]
    exact he
  · cases hkey

/-! ## What a run leaves -/

/-- The shift that a run is about. -/
def Job.shift (job : Job) : Nat × ℤ := (job.unit.unitId, job.window.start)

/-- The numbers of the row are these. -/
def ShiftResult.Shows (r : ShiftResult) (m : ShiftMetrics) : Prop :=
  r = { r with
    loadingTimeS := m.loadingTimeS
    runTimeS := m.runTimeS
    plannedDownS := m.plannedDownS
    unplannedDownS := m.unplannedDownS
    goodCount := m.goodCount
    rejectCount := m.rejectCount
    totalCount := m.totalCount
    availability := m.availability
    performance := m.performance
    performanceRaw := m.performanceRaw
    quality := m.quality
    oee := m.oee
    status := m.status }

instance (r : ShiftResult) (m : ShiftMetrics) : Decidable (r.Shows m) :=
  inferInstanceAs (Decidable (_ = _))

theorem shows_resultValues (window : ShiftWindow) (metrics : ShiftMetrics) (fingerprint : Fingerprint)
    (computedAt : ℤ) (revision : Nat) :
    (resultValues window metrics fingerprint computedAt revision).Shows metrics := rfl

/-- A mark does not change them. -/
theorem shows_withPublishedAt {r : ShiftResult} {m : ShiftMetrics} {at_ : ℤ} (h : r.Shows m) :
    (r.withPublishedAt at_).Shows m := by
  unfold ShiftResult.Shows ShiftResult.withPublishedAt at *
  rw [h]

/-- What a run for one shift does not touch. -/
structure Frame (shift : Nat × ℤ) (w w' : World) : Prop where
  rows : w'.rows = w.rows
  exceptions : w'.exceptions = w.exceptions
  requests : w'.db.requests = w.db.requests
  manual : manualRows w'.db.events = manualRows w.db.events
  otherRows : ∀ k, k ≠ shift → w'.db.results.find? k = w.db.results.find? k

theorem Frame.refl (shift : Nat × ℤ) (w : World) : Frame shift w w :=
  ⟨rfl, rfl, rfl, rfl, fun _ _ => rfl⟩

theorem frame_sent (shift : Nat × ℤ) (w : World) (settled : Settled) : Frame shift w (w.sent settled) :=
  ⟨rfl, rfl, rfl, rfl, fun _ _ => rfl⟩

theorem Frame.trans {shift : Nat × ℤ} {w w' w'' : World} (h : Frame shift w w') (h' : Frame shift w' w'') :
    Frame shift w w'' :=
  ⟨h'.rows.trans h.rows, h'.exceptions.trans h.exceptions, h'.requests.trans h.requests,
    h'.manual.trans h.manual, fun k hk => (h'.otherRows k hk).trans (h.otherRows k hk)⟩

section Frames

variable {latest : LatestRow} {w w' : World} {job : Job} {stage : Stage} {settled : Settled}

theorem read_of_reading {read : Reading} (h : job.reading w = some read) :
    read.manual = manualReasons w.db job.unit.unitId job.window ∧
      read.stored = Oee.existing w.db job.unit.unitId job.window.start := by
  obtain ⟨digest, -, rfl⟩ := Option.map_eq_some_iff.mp h
  exact ⟨rfl, rfl⟩

/-- What has been settled: the row as it was found, or a new one. -/
theorem Settles.cases (h : Settles latest w job w' settled) :
    (settled.read.unchanged = true ∧ w' = w ∧
        ∃ r, w.db.results.find? job.shift = some r ∧ r.1 = settled.resultId) ∨
      (settled.read.unchanged = false ∧ Frame job.shift w w' ∧
        w'.db.results.find? job.shift = some (settled.resultId,
          resultValues job.window settled.metrics settled.read.fingerprint job.computedAt
            settled.revision) ∧
        settled.revision = ((w.db.results.find? job.shift).map fun q => q.2.revision).getD 0 + 1) := by
  obtain ⟨hmanual, hstored⟩ := read_of_reading h.reading
  rcases settle_cases w job settled.read (job.samples latest w.rows) settled.inputs with
    ⟨hu, heq⟩ | ⟨-, -, heq⟩ | ⟨db, out, hu, hsave, heq⟩
  · obtain ⟨rfl, hpublish⟩ := Prod.mk.inj (heq.symm.trans h.settle)
    refine .inl ⟨hu, rfl, ?_⟩
    have hfound : settled.read.stored ≠ none := by
      intro hnone
      simp [Reading.unchanged, hnone] at hu
    obtain ⟨stored, hsome⟩ := Option.ne_none_iff_exists'.mp hfound
    have hexisting := hsome
    rw [hstored] at hexisting
    obtain ⟨r, hr, hrow⟩ := Option.map_eq_some_iff.mp hexisting
    refine ⟨r, hr, ?_⟩
    have hid : settled.resultId = (settled.read.stored.map StoredResult.resultId).getD 0 := by
      conv_lhs => rw [← Stage.publish.inj hpublish]
      rfl
    rw [hid, hsome, ← hrow]
    rfl
  · cases heq.symm.trans h.settle
  · obtain ⟨rfl, hpublish⟩ := Prod.mk.inj (heq.symm.trans h.settle)
    have hs := Job.save_spec hsave
    have hown : Attributed w.db.events job.unit.unitId (stopsToSave settled.inputs) := by
      have hinputs := h.inputs
      unfold Job.inputs at hinputs
      rw [hmanual] at hinputs
      exact attributed_stopsToSave hinputs
    refine .inr ⟨hu, ⟨rfl, rfl, hs.requests, manualRows_save hown hsave, hs.result.otherRows⟩, ?_⟩
    have hrow := hs.result.row
    have hid : settled.resultId = out.resultId ∧ settled.revision = out.revision := by
      constructor
      · conv_lhs => rw [← Stage.publish.inj hpublish]
        rfl
      · conv_lhs => rw [← Stage.publish.inj hpublish]
        rfl
    rw [hid.1, hid.2]
    exact ⟨hrow, hs.result.next⟩

theorem Settles.frame (h : Settles latest w job w' settled) : Frame job.shift w w' := by
  rcases h.cases with ⟨-, rfl, -⟩ | ⟨-, hframe, -⟩
  · exact Frame.refl _ _
  · exact hframe

/-- The row that is marked is the shift's own. -/
theorem Settles.ownRow (h : Settles latest w job w' settled) :
    ∃ r, w'.db.results.find? job.shift = some r ∧ r.1 = settled.resultId := by
  rcases h.cases with ⟨-, rfl, hrow⟩ | ⟨-, -, hrow, -⟩
  · exact hrow
  · exact ⟨_, hrow, rfl⟩

theorem Settles.frame_marked (h : Settles latest w job w' settled) :
    Frame job.shift w ((w'.sent settled).marked settled) := by
  refine (h.frame.trans (frame_sent _ _ settled)).trans ⟨rfl, rfl, rfl, rfl, ?_⟩
  intro k hk
  obtain ⟨r, hr, hid⟩ := h.ownRow
  refine (find?_markPublished _ _ _ k).trans ?_
  change Option.map _ (w'.db.results.find? k) = w'.db.results.find? k
  cases hq : w'.db.results.find? k with
  | none => rfl
  | some q =>
      have hne : q.1 ≠ settled.resultId := by
        intro heq
        exact hk (Table.key_of_id hq hr (heq.trans hid.symm))
      rw [Option.map_some, if_neg hne]

/-- At every stage of it, a run has left the rest alone. -/
theorem Quiet.frame (h : Quiet latest w job w' stage) : Frame job.shift w w' := by
  cases h with
  | fingerprint => exact Frame.refl _ _
  | manual => exact Frame.refl _ _
  | existing hdigest => exact Frame.refl _ _
  | fetch hread hskips hgot => exact Frame.refl _ _
  | exceptions hread hskips => exact Frame.refl _ _
  | settle hread hskips hinputs => exact Frame.refl _ _
  | publish h => exact h.frame
  | mark h => exact h.frame.trans (frame_sent _ _ _)
  | skipped hread hskips => exact Frame.refl _ _
  | unsent h => exact h.frame
  | sent h => exact h.frame_marked
  | raised => exact Frame.refl _ _

/-- The row is as it was found, up to a mark. -/
def Kept (shift : Nat × ℤ) (w w' : World) : Prop :=
  (w.db.results.find? shift).isSome = true ∧
    (w'.db.results.find? shift = w.db.results.find? shift ∨
      ∃ at_, w'.db.results.find? shift =
        (w.db.results.find? shift).map fun r => (r.1, r.2.withPublishedAt at_))

/-- The row shows the numbers of now, under the fingerprint of now. -/
structure Written (latest : LatestRow) (w : World) (job : Job) (read : Reading) (w' : World) : Prop where
  changed : read.unchanged = false
  row : ∃ inputs r, job.inputs latest w read = some inputs ∧
    w'.db.results.find? job.shift = some r ∧ r.2.Shows (compute inputs) ∧
      r.2.inputFingerprint = read.fingerprint.asText ∧
        r.2.revision = ((w.db.results.find? job.shift).map fun q => q.2.revision).getD 0 + 1

theorem isSome_of_unchanged {read : Reading} (hread : job.reading w = some read)
    (h : read.unchanged = true) : (w.db.results.find? job.shift).isSome = true := by
  have hfound : read.stored ≠ none := by
    intro hnone
    simp [Reading.unchanged, hnone] at h
  rw [(read_of_reading hread).2] at hfound
  unfold existing at hfound
  rw [Option.isSome_iff_ne_none]
  intro hnone
  rw [show w.db.results.find? (job.unit.unitId, job.window.start) = none from hnone] at hfound
  exact hfound rfl

theorem Settles.row (h : Settles latest w job w' settled) :
    (settled.read.unchanged = true ∧ Kept job.shift w w') ∨
      Written latest w job settled.read w' := by
  rcases h.cases with ⟨hu, rfl, hrow⟩ | ⟨hu, -, hrow, hnext⟩
  · exact .inl ⟨hu, isSome_of_unchanged h.reading hu, .inl rfl⟩
  · exact .inr ⟨hu, _, _, h.inputs, hrow, shows_resultValues _ _ _ _ _, rfl, hnext⟩

theorem Settles.row_marked (h : Settles latest w job w' settled) :
    (settled.read.unchanged = true ∧ Kept job.shift w ((w'.sent settled).marked settled)) ∨
      Written latest w job settled.read ((w'.sent settled).marked settled) := by
  obtain ⟨q, hq, hid⟩ := h.ownRow
  have hmark : ((w'.sent settled).marked settled).db.results.find? job.shift =
      (w'.db.results.find? job.shift).map fun r =>
        (r.1, r.2.withPublishedAt settled.job.computedAt) := by
    refine (find?_markPublished _ _ _ _).trans ?_
    change Option.map _ (w'.db.results.find? job.shift) = _
    rw [hq, Option.map_some, Option.map_some, if_pos hid]
  rcases h.row with ⟨hu, hsome, hkept⟩ | ⟨hu, inputs, r, hinputs, hrow, hshows, hfingerprint, hnext⟩
  · rcases h.cases with ⟨-, rfl, -⟩ | ⟨hchanged, -⟩
    · exact .inl ⟨hu, hsome, .inr ⟨_, hmark⟩⟩
    · rw [hu] at hchanged
      cases hchanged
  · rw [hrow, Option.map_some] at hmark
    exact .inr ⟨hu, inputs, _, hinputs, hmark, shows_withPublishedAt hshows, hfingerprint, hnext⟩

/-- At every stage the row is kept, or written. -/
theorem Quiet.row (h : Quiet latest w job w' stage) :
    w'.db.results.find? job.shift = w.db.results.find? job.shift ∨ Kept job.shift w w' ∨
      ∃ read, job.reading w = some read ∧ Written latest w job read w' := by
  cases h with
  | fingerprint => exact .inl rfl
  | manual => exact .inl rfl
  | existing hdigest => exact .inl rfl
  | fetch hread hskips hgot => exact .inl rfl
  | exceptions hread hskips => exact .inl rfl
  | settle hread hskips hinputs => exact .inl rfl
  | publish h => exact .inr (h.row.imp And.right fun hw => ⟨_, h.reading, hw⟩)
  | mark h => exact .inr (h.row.imp And.right fun hw => ⟨_, h.reading, hw.changed, hw.row⟩)
  | skipped hread hskips => exact .inl rfl
  | unsent h => exact .inr (h.row.imp And.right fun hw => ⟨_, h.reading, hw⟩)
  | sent h => exact .inr (h.row_marked.imp And.right fun hw => ⟨_, h.reading, hw⟩)
  | raised => exact .inl rfl

/-- A run with an outcome has kept the row when its fingerprint was the current one, and written it
otherwise. -/
theorem Quiet.finished {outcome : ShiftOutcome} (h : Quiet latest w job w' (.finished outcome)) :
    ∃ read, job.reading w = some read ∧
      ((read.unchanged = true ∧ Kept job.shift w w') ∨ Written latest w job read w') := by
  cases h with
  | @skipped read hread hskips =>
      obtain ⟨hunchanged, -⟩ := Bool.and_eq_true_iff.mp hskips
      exact ⟨read, hread, .inl ⟨hunchanged, isSome_of_unchanged hread hunchanged, .inl rfl⟩⟩
  | @unsent _ settled h => exact ⟨settled.read, h.reading, h.row⟩
  | @sent _ settled h => exact ⟨settled.read, h.reading, h.row_marked⟩

theorem action_settled (h : Settles latest w job w' settled) : settled.action ≠ .unchanged := by
  rcases settle_cases w job settled.read (job.samples latest w.rows) settled.inputs with
    ⟨-, heq⟩ | ⟨-, -, heq⟩ | ⟨db, out, -, -, heq⟩
  · rw [← Stage.publish.inj (Prod.mk.inj (heq.symm.trans h.settle)).2]
    intro heq
    cases heq
  · cases heq.symm.trans h.settle
  · rw [← Stage.publish.inj (Prod.mk.inj (heq.symm.trans h.settle)).2]
    unfold written
    dsimp only
    split <;> decide

/-- Only a run that skips the shift says that it is unchanged. -/
theorem Quiet.unchanged {outcome : ShiftOutcome} (h : Quiet latest w job w' (.finished outcome))
    (haction : outcome.action = .unchanged) :
    w' = w ∧ ∃ read, job.reading w = some read ∧ read.skips = true := by
  cases h with
  | @skipped read hread hskips => exact ⟨rfl, read, hread, hskips⟩
  | unsent h => exact absurd haction (action_settled h)
  | sent h => exact absurd haction (action_settled h)

end Frames

end Uns.Oee
