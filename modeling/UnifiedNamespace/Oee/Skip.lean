/-
# `Oee.Skip` — what an unchanged fingerprint says

`run_shift` skips a shift whose fingerprint is the one its row was stored with.
The fingerprint counts the rows of the window, and rows are only added, so an equal
count means the same rows (`windowRows_eq`).  But a run also reads the last sample of
each series before the window, which the fingerprint does not cover.

So a skipped shift shows the numbers of now exactly when the carried samples of now
and those of the stored computation give the same numbers (`unchanged_shows_iff`).
A row that arrives late, from before the window, can make the difference
(`lateRow_not_shown`).
-/
import UnifiedNamespace.Oee.RunShift

namespace Uns.Oee

open Py Lib

/-! ## A history of rows and runs -/

/-- The authored units, and the shift of a unit that begins at an instant. -/
structure Roster where
  unit : Nat → UnitMasterData
  window : Nat → ℤ → ShiftWindow
  unitId : ∀ i, (unit i).unitId = i
  start : ∀ i t, (window i t).start = t

def Roster.job (roster : Roster) (i : Nat) (t computedAt : ℤ) : Job :=
  ⟨roster.unit i, roster.window i t, computedAt⟩

/-- Rows arrive, or a pass reaches a shift. -/
inductive HistorianOp where
  | insert (rows : List MetricRow)
  | runShift (i : Nat) (t computedAt : ℤ) (delivered : Bool) (calls : Nat)

/-- The tables, and the rows that each stored row was computed from. -/
structure Observed where
  world : World
  computedFrom : Nat × ℤ → List MetricRow

def World.revisionAt (w : World) (shift : Nat × ℤ) : Nat :=
  ((w.db.results.find? shift).map fun r => r.2.revision).getD 0

/-- The tables that a run leaves; a new revision was computed from the rows of now. -/
def Observed.after (s : Observed) (w : World) : Observed where
  world := w
  computedFrom shift :=
    if w.revisionAt shift = s.world.revisionAt shift then s.computedFrom shift else s.world.rows

def Observed.apply (latest : LatestRow) (roster : Roster) (s : Observed) : HistorianOp → Observed
  | .insert rows => { s with world := { s.world with rows := s.world.rows ++ rows } }
  | .runShift i t computedAt delivered calls =>
      s.after (Oee.runShift latest delivered calls s.world (roster.job i t computedAt)).1

def Observed.run (latest : LatestRow) (roster : Roster) (s : Observed) (ops : List HistorianOp) :
    Observed := ops.foldl (Observed.apply latest roster) s

def Observed.start (w : World) : Observed := ⟨w, fun _ => []⟩

/-! ## Samples carried into the window -/

/-- The rows before the window from one state of the historian, those of the window from another. -/
def Job.samplesFrom (latest : LatestRow) (before within : List MetricRow) (job : Job) : ShiftSamples :=
  (job.queries.foldl (fun (got : Fetched) q =>
    got.add q.series (q.rows latest (if q.prior then before else within) job)) {}).samples

def Job.inputsFrom (latest : LatestRow) (before within : List MetricRow) (w : World) (job : Job) :
    Option ShiftInputs :=
  shiftInputs job.unit job.window (job.samplesFrom latest before within)
    (exceptionWindows w.exceptions job.unit job.window.asInterval)
    (manualReasons w.db job.unit.unitId job.window)
    (!(fingerprintOf within job.unit.refs job.window.start job.window.finish).isEmpty)

/-- The columns of the result row. -/
def ShiftMetrics.columns (m : ShiftMetrics) : ShiftResult := resultValues ⟨0, 0, []⟩ m {} 0 0

/-- The stored row shows the numbers that the tables give now. -/
def ShowsNow (latest : LatestRow) (w : World) (job : Job) : Prop :=
  ∃ r read inputs, w.db.results.find? job.shift = some r ∧ job.reading w = some read ∧
    job.inputs latest w read = some inputs ∧ r.2.Shows (compute inputs)

/-- The samples carried into the window, now and when the row was computed, give the same numbers. -/
def CarriedAgree (latest : LatestRow) (s : Observed) (job : Job) : Prop :=
  ∃ a b, job.inputsFrom latest (s.computedFrom job.shift) s.world.rows s.world = some a ∧
    job.inputsFrom latest s.world.rows s.world.rows s.world = some b ∧
      (compute a).columns = (compute b).columns

section Samples

variable {latest : LatestRow} {job : Job} {w : World} {rows rows' : List MetricRow}

theorem samplesFrom_self : job.samplesFrom latest rows rows = job.samples latest rows := by
  unfold Job.samplesFrom Job.samples fetchAll
  simp only [ite_self]

theorem inputsFrom_self {read : Reading} (h : job.reading w = some read) :
    job.inputs latest w read = job.inputsFrom latest w.rows w.rows w := by
  obtain ⟨digest, -, rfl⟩ := Option.map_eq_some_iff.mp h
  unfold Job.inputs Job.inputsFrom
  rw [samplesFrom_self]
  rfl

/-- A row of numbers shows others when they are the same numbers. -/
theorem shows_iff {r : ShiftResult} {m m' : ShiftMetrics} (h : r.Shows m) :
    r.Shows m' ↔ m.columns = m'.columns := by
  unfold ShiftResult.Shows at *
  rw [h]
  simp only [ShiftMetrics.columns, resultValues, ShiftResult.mk.injEq, true_and, and_true]

/-- Nothing new in the window: as many rows as before, and none was taken away. -/
theorem fingerprintRows_of_count {refs : List MetricRef} {start finish : ℤ} (hstart : rows <+: rows')
    (h : (fingerprintOf rows refs start finish).rowCount = (fingerprintOf rows' refs start finish).rowCount) :
    ∃ added, rows' = rows ++ added ∧ fingerprintRows added refs start finish = [] := by
  obtain ⟨added, rfl⟩ := hstart
  refine ⟨added, rfl, ?_⟩
  have hlength : (fingerprintRows (rows ++ added) refs start finish).length =
      (fingerprintRows rows refs start finish).length + (fingerprintRows added refs start finish).length := by
    unfold fingerprintRows
    rw [List.filter_append, List.length_append]
  change (fingerprintRows rows refs start finish).length =
    (fingerprintRows (rows ++ added) refs start finish).length at h
  rw [hlength] at h
  exact List.eq_nil_of_length_eq_zero (by omega)

/-- So each series of the unit has the rows it had. -/
theorem windowRows_eq {refs : List MetricRef} {ref : MetricRef} {start finish : ℤ} (href : ref ∈ refs)
    (hstart : rows <+: rows')
    (h : (fingerprintOf rows refs start finish).rowCount = (fingerprintOf rows' refs start finish).rowCount) :
    windowRows rows' ref start finish = windowRows rows ref start finish := by
  obtain ⟨added, rfl, hnone⟩ := fingerprintRows_of_count hstart h
  have hadded : windowRows added ref start finish = [] := by
    rw [windowRows, List.filter_eq_nil_iff]
    intro r hr hin
    obtain ⟨hown, hrange⟩ := decide_eq_true_eq.mp hin
    refine List.filter_eq_nil_iff.mp hnone r hr (decide_eq_true_eq.mpr ⟨?_, hrange⟩)
    rw [hown]
    exact href
  unfold windowRows at *
  rw [List.filter_append, hadded, List.append_nil]

theorem seriesRef_mem {u : UnitMasterData} {series : Series} {ref : MetricRef}
    (h : u.seriesRef series = some ref) : ref ∈ u.refs := by
  unfold UnitMasterData.refs
  cases series with
  | state =>
      obtain rfl := Option.some.inj h
      simp
  | good =>
      obtain rfl := Option.some.inj h
      simp
  | reject =>
      have h' : u.rejectRef = some ref := h
      simp [h']
  | product =>
      have h' : u.productRef = some ref := h
      simp [h']

/-- With the same count, the inputs differ in what is carried only. -/
theorem inputsFrom_of_count (before : List MetricRow) (hstart : rows <+: rows')
    (h : (fingerprintOf rows job.unit.refs job.window.start job.window.finish).rowCount =
      (fingerprintOf rows' job.unit.refs job.window.start job.window.finish).rowCount) :
    job.inputsFrom latest before rows' w = job.inputsFrom latest before rows w := by
  have hquery : ∀ q : Query, q.rows latest (if q.prior then before else rows') job =
      q.rows latest (if q.prior then before else rows) job := by
    intro q
    cases hprior : q.prior with
    | true => rfl
    | false =>
        unfold Query.rows
        simp only [hprior, Bool.false_eq_true, if_false]
        split
        · rfl
        · rename_i ref href
          rw [windowRows_eq (seriesRef_mem href) hstart h]
  have hsamples : job.samplesFrom latest before rows' = job.samplesFrom latest before rows := by
    unfold Job.samplesFrom
    simp only [hquery]
  have hempty : (fingerprintOf rows' job.unit.refs job.window.start job.window.finish).isEmpty =
      (fingerprintOf rows job.unit.refs job.window.start job.window.finish).isEmpty := by
    unfold Fingerprint.isEmpty
    rw [h]
  unfold Job.inputsFrom
  rw [hsamples, hempty]

/-- Samples that are carried as before agree. -/
theorem carriedAgree_of_same {s : Observed} {r : ShiftInputs}
    (hsame : ∀ q ∈ job.queries, q.prior = true →
      q.rows latest (s.computedFrom job.shift) job = q.rows latest s.world.rows job)
    (h : job.inputsFrom latest s.world.rows s.world.rows s.world = some r) : CarriedAgree latest s job := by
  have hsamples : job.samplesFrom latest (s.computedFrom job.shift) s.world.rows =
      job.samplesFrom latest s.world.rows s.world.rows := by
    refine congrArg Fetched.samples (List.foldl_ext _ _ _ fun got q hq => ?_)
    cases hprior : q.prior with
    | true =>
        simp only [if_true]
        rw [hsame q hq hprior]
    | false => rfl
  refine ⟨r, r, ?_, h, rfl⟩
  unfold Job.inputsFrom at *
  rw [hsamples]
  exact h

end Samples

/-! ## Where the stored rows come from -/

/-- A row computed from these rows. -/
structure ComputedFrom (latest : LatestRow) (w : World) (job : Job) (rows : List MetricRow)
    (r : ShiftResult) : Prop where
  grown : rows <+: w.rows
  fingerprint : ∃ digest, manualDigest (manualReasons w.db job.unit.unitId job.window) = some digest ∧
    r.inputFingerprint = ((fingerprintOf rows job.unit.refs job.window.start
      job.window.finish).withManual digest).asText
  numbers : ∃ inputs, job.inputsFrom latest rows rows w = some inputs ∧ r.Shows (compute inputs)

/-- Each stored row was computed from the rows on record for it. -/
def Sourced (latest : LatestRow) (roster : Roster) (s : Observed) : Prop :=
  ∀ i t r, s.world.db.results.find? (i, t) = some r →
    ComputedFrom latest s.world (roster.job i t 0) (s.computedFrom (i, t)) r.2

section History

variable {latest : LatestRow} {roster : Roster} {s : Observed} {w w' : World} {job : Job}

theorem shift_job (i : Nat) (t computedAt : ℤ) : (roster.job i t computedAt).shift = (i, t) := by
  unfold Roster.job Job.shift
  rw [roster.unitId, roster.start]

theorem inputsFrom_congr {before within : List MetricRow} (hexceptions : w'.exceptions = w.exceptions)
    (hmanual : manualRows w'.db.events = manualRows w.db.events) :
    job.inputsFrom latest before within w' = job.inputsFrom latest before within w := by
  unfold Job.inputsFrom
  rw [hexceptions, manualReasons_congr hmanual]

/-- More rows, and the same reasons and exceptions: the row still comes from where it came from. -/
theorem ComputedFrom.mono {rows : List MetricRow} {r r' : ShiftResult}
    (h : ComputedFrom latest w job rows r) (hrows : w.rows <+: w'.rows)
    (hexceptions : w'.exceptions = w.exceptions)
    (hmanual : manualRows w'.db.events = manualRows w.db.events)
    (hr : r' = r ∨ ∃ at_, r' = r.withPublishedAt at_) : ComputedFrom latest w' job rows r' := by
  obtain ⟨hgrown, ⟨digest, hdigest, htext⟩, inputs, hinputs, hshows⟩ := h
  refine ⟨hgrown.trans hrows, ⟨digest, ?_, ?_⟩, inputs, ?_, ?_⟩
  · rw [manualReasons_congr hmanual]
    exact hdigest
  · rcases hr with rfl | ⟨at_, rfl⟩
    · exact htext
    · exact htext
  · rw [inputsFrom_congr hexceptions hmanual]
    exact hinputs
  · rcases hr with rfl | ⟨at_, rfl⟩
    · exact hshows
    · exact shows_withPublishedAt hshows

/-- A written row comes from the rows of now. -/
theorem Written.computedFrom {read : Reading} (hread : job.reading w = some read)
    (hframe : Frame job.shift w w') (h : Written latest w job read w') :
    ∃ r, w'.db.results.find? job.shift = some r ∧ ComputedFrom latest w' job w.rows r.2 ∧
      w'.revisionAt job.shift ≠ w.revisionAt job.shift := by
  obtain ⟨-, inputs, r, hinputs, hrow, hshows, htext, hrevision⟩ := h
  refine ⟨r, hrow, ⟨?_, ?_, inputs, ?_, hshows⟩, ?_⟩
  · rw [hframe.rows]
  · obtain ⟨digest, hdigest, rfl⟩ := Option.map_eq_some_iff.mp hread
    refine ⟨digest, ?_, htext⟩
    rw [manualReasons_congr hframe.manual]
    exact hdigest
  · rw [inputsFrom_congr hframe.exceptions hframe.manual, ← inputsFrom_self hread]
    exact hinputs
  · unfold World.revisionAt
    rw [hrow, Option.map_some, Option.getD_some]
    omega

theorem sourced_runShift (hs : Sourced latest roster s) (i : Nat) (t computedAt : ℤ) (delivered : Bool)
    (calls : Nat) :
    Sourced latest roster (s.apply latest roster (.runShift i t computedAt delivered calls)) := by
  have hquiet := quiet_runShift latest delivered calls s.world (roster.job i t computedAt)
  have hframe := hquiet.frame
  have hrow := hquiet.row
  rw [shift_job] at hframe hrow
  change Sourced latest roster (s.after (drive latest delivered calls (s.world, _)).1)
  generalize (drive latest delivered calls (s.world, .fingerprint (roster.job i t computedAt))).1 = w
    at hframe hrow
  have hold : ∀ j u r q, s.world.db.results.find? (j, u) = some q →
      w.revisionAt (j, u) = s.world.revisionAt (j, u) → (r = q.2 ∨ ∃ at_, r = q.2.withPublishedAt at_) →
        ComputedFrom latest w (roster.job j u 0)
          (if w.revisionAt (j, u) = s.world.revisionAt (j, u) then s.computedFrom (j, u)
            else s.world.rows) r := by
    intro j u r q hq hrevision hr
    rw [if_pos hrevision]
    exact (hs j u q hq).mono (by rw [hframe.rows]) hframe.exceptions hframe.manual hr
  intro j u r hr
  change w.db.results.find? (j, u) = some r at hr
  change ComputedFrom latest w (roster.job j u 0)
    (if w.revisionAt (j, u) = s.world.revisionAt (j, u) then s.computedFrom (j, u) else s.world.rows) r.2
  by_cases hkey : (j, u) = (i, t)
  · -- the shift of the run: its row is kept, marked or written
    obtain ⟨rfl, rfl⟩ := Prod.mk.inj hkey
    rcases hrow with hsame | ⟨hfound, hsame | ⟨at_, hmarked⟩⟩ | ⟨read, hread, hwritten⟩
    · rw [hsame] at hr
      exact hold j u _ r hr (by rw [World.revisionAt, World.revisionAt, hsame]) (.inl rfl)
    · rw [hsame] at hr
      exact hold j u _ r hr (by rw [World.revisionAt, World.revisionAt, hsame]) (.inl rfl)
    · have hsome := hr
      rw [hmarked] at hsome
      obtain ⟨q, hq, rfl⟩ := Option.map_eq_some_iff.mp hsome
      refine hold j u _ q hq ?_ (.inr ⟨at_, rfl⟩)
      unfold World.revisionAt
      rw [hmarked, hq]
      rfl
    · rw [← @shift_job roster j u computedAt] at hframe
      obtain ⟨q, hq, hcomputed, hrevision⟩ := hwritten.computedFrom hread hframe
      rw [shift_job] at hq hrevision
      rw [hr] at hq
      obtain rfl := Option.some.inj hq
      rw [if_neg hrevision]
      exact ⟨hcomputed.grown, hcomputed.fingerprint, hcomputed.numbers⟩
  · have hsame := hframe.otherRows (j, u) hkey
    rw [hsame] at hr
    exact hold j u _ r hr (by rw [World.revisionAt, World.revisionAt, hsame]) (.inl rfl)

theorem sourced_apply (hs : Sourced latest roster s) (op : HistorianOp) :
    Sourced latest roster (s.apply latest roster op) := by
  cases op with
  | insert rows =>
      intro i t r hr
      exact (hs i t r hr).mono ⟨rows, rfl⟩ rfl rfl (.inl rfl)
  | runShift i t computedAt delivered calls => exact sourced_runShift hs i t computedAt delivered calls

theorem sourced_run (hs : Sourced latest roster s) (ops : List HistorianOp) :
    Sourced latest roster (s.run latest roster ops) := by
  induction ops generalizing s with
  | nil => exact hs
  | cons op ops ih => exact ih (sourced_apply hs op)

theorem sourced_start (h : ∀ k, w.db.results.find? k = none) :
    Sourced latest roster (.start w) := by
  intro i t r hr
  cases (h (i, t)).symm.trans hr

/-- A row whose fingerprint is current shows the numbers of now exactly when the carried samples agree. -/
theorem showsNow_iff {i : Nat} {t computedAt : ℤ} {read : Reading} (hs : Sourced latest roster s)
    (hread : (roster.job i t computedAt).reading s.world = some read) (h : read.unchanged = true) :
    ShowsNow latest s.world (roster.job i t computedAt) ↔
      CarriedAgree latest s (roster.job i t computedAt) := by
  have hfound := isSome_of_unchanged hread h
  obtain ⟨r, hr⟩ := Option.isSome_iff_exists.mp hfound
  have hkey := hr
  rw [shift_job] at hkey
  obtain ⟨hgrown, ⟨digest, hdigest, htext⟩, a, ha, hshows⟩ := hs i t r hkey
  -- the fingerprint of now counts the rows that the stored one counted
  have hcount : (fingerprintOf (s.computedFrom (i, t)) (roster.unit i).refs (roster.window i t).start
        (roster.window i t).finish).rowCount =
      (fingerprintOf s.world.rows (roster.unit i).refs (roster.window i t).start
        (roster.window i t).finish).rowCount := by
    have hcurrent : r.2.inputFingerprint = read.fingerprint.asText := by
      have hstored := (read_of_reading hread).2
      unfold existing at hstored
      rw [show s.world.db.results.find? ((roster.job i t computedAt).unit.unitId,
        (roster.job i t computedAt).window.start) = some r from hr] at hstored
      simpa [Reading.unchanged, hstored] using h
    obtain ⟨digest', hdigest', hsame⟩ := Option.map_eq_some_iff.mp hread
    rw [← hsame] at hcurrent
    have hfingerprint := asText_injective (notMem_manualDigest hdigest) (notMem_manualDigest hdigest')
      (htext.symm.trans hcurrent)
    have hrowCount := congrArg Fingerprint.rowCount hfingerprint
    exact hrowCount
  have hcarried : (roster.job i t computedAt).inputsFrom latest (s.computedFrom (i, t)) s.world.rows
      s.world = some a := by
    rw [inputsFrom_of_count (s.computedFrom (i, t)) hgrown hcount]
    exact ha
  unfold ShowsNow CarriedAgree
  rw [shift_job]
  constructor
  · rintro ⟨q, read', b, hq, hread', hb, hq'⟩
    rw [shift_job, hkey] at hr
    rw [hkey] at hq
    obtain rfl := Option.some.inj hq
    refine ⟨a, b, hcarried, ?_, (shows_iff hshows).mp hq'⟩
    rw [← inputsFrom_self hread']
    exact hb
  · rintro ⟨a', b, ha', hb, hcolumns⟩
    rw [hcarried] at ha'
    obtain rfl := Option.some.inj ha'
    refine ⟨r, read, b, hkey, hread, ?_, (shows_iff hshows).mpr hcolumns⟩
    rw [inputsFrom_self hread]
    exact hb

/-- After every history of rows and runs: a shift that a run finds unchanged shows the numbers of now
exactly when the samples carried into its window still give the numbers they gave. -/
theorem unchanged_shows_iff (h : ∀ k, w.db.results.find? k = none) (ops : List HistorianOp) {i : Nat}
    {t computedAt : ℤ} {delivered : Bool} {calls : Nat} {outcome : ShiftOutcome}
    (hrun : (runShift latest delivered calls ((Observed.start w).run latest roster ops).world
      (roster.job i t computedAt)).2 = some outcome) (haction : outcome.action = .unchanged) :
    ShowsNow latest ((Observed.start w).run latest roster ops).world (roster.job i t computedAt) ↔
      CarriedAgree latest ((Observed.start w).run latest roster ops) (roster.job i t computedAt) := by
  have hs := sourced_run (@sourced_start latest roster w h) ops
  generalize (Observed.start w).run latest roster ops = s at hs hrun
  obtain ⟨-, read, hread, hskips⟩ := (quiet_of_outcome hrun).unchanged haction
  exact showsNow_iff hs hread (Bool.and_eq_true_iff.mp hskips).1

end History

/-! ## A row that arrives late -/

/-- Ten-second shifts of units with an ideal cycle time of a second. -/
def tenSecondRoster : Roster where
  unit i := { idealUnit 1 with unitId := i }
  window _ t := ⟨t, t + seconds 10, []⟩
  unitId _ := rfl
  start _ _ := rfl

/-- Producing since before the shift, and a report in the middle of it. -/
def carriedRows : List MetricRow :=
  [stateRow (seconds (-10)) executeState, goodRow 0 0, stateRow (seconds 5) executeState,
    goodRow (seconds 9) 5]

/-- The shift is computed and published, and then a row arrives that is older than the shift. -/
def lateRow (time : ℤ) : Observed :=
  (Observed.start ⟨carriedRows, [], plantDatabase, []⟩).run newestRow tenSecondRoster
    [.runShift 1 0 (hours 1) true 20, .insert [stateRow time (lit "HELD")]]

theorem lateRow_unchanged {time : ℤ} {outcome : Option Action}
    (h : (runShift newestRow true 20 (lateRow time).world (tenSecondRoster.job 1 0 (hours 2))).2.map
      ShiftOutcome.action = outcome) (hsome : outcome = some .unchanged) :
    ∃ found, (runShift newestRow true 20 (lateRow time).world (tenSecondRoster.job 1 0 (hours 2))).2 =
      some found ∧ found.action = .unchanged := by
  rw [hsome] at h
  obtain ⟨found, hfound, haction⟩ := Option.map_eq_some_iff.mp h
  exact ⟨found, hfound, haction⟩

/-- Older than the sample that is carried, it makes no difference. -/
theorem showsNow_lateRow :
    ShowsNow newestRow (lateRow (seconds (-20))).world (tenSecondRoster.job 1 0 (hours 2)) := by
  obtain ⟨found, hfound, haction⟩ := @lateRow_unchanged (seconds (-20)) _ rfl (by decide +kernel)
  refine (unchanged_shows_iff (fun _ => rfl) _ hfound haction).mpr ?_
  have hinputs : ((tenSecondRoster.job 1 0 (hours 2)).inputsFrom newestRow
      (lateRow (seconds (-20))).world.rows (lateRow (seconds (-20))).world.rows
        (lateRow (seconds (-20))).world).isSome = true := by decide +kernel
  obtain ⟨inputs, hi⟩ := Option.isSome_iff_exists.mp hinputs
  exact carriedAgree_of_same (by decide +kernel) hi

/-- Newer, it stops the line for the first five seconds, which the stored row counts as Run Time. -/
theorem lateRow_not_shown : ¬ ∀ (latest : LatestRow) (roster : Roster) (w : World)
    (ops : List HistorianOp) (i : Nat) (t computedAt : ℤ) (outcome : ShiftOutcome),
    (∀ k, w.db.results.find? k = none) →
      (runShift latest true 20 ((Observed.start w).run latest roster ops).world
        (roster.job i t computedAt)).2 = some outcome → outcome.action = .unchanged →
        ShowsNow latest ((Observed.start w).run latest roster ops).world (roster.job i t computedAt) := by
  intro h
  obtain ⟨found, hfound, haction⟩ := @lateRow_unchanged (seconds (-5)) _ rfl (by decide +kernel)
  obtain ⟨r, read, inputs, hr, hread, hinputs, hshows⟩ :=
    h newestRow tenSecondRoster ⟨carriedRows, [], plantDatabase, []⟩
      [.runShift 1 0 (hours 1) true 20, .insert [stateRow (seconds (-5)) (lit "HELD")]] 1 0 (hours 2)
      found (fun _ => rfl) hfound haction
  rw [inputsFrom_self hread] at hinputs
  have hstored : ((lateRow (seconds (-5))).world.db.results.find? (1, 0)).map
      (fun r => r.2.runTimeS) = some 10 := by decide +kernel
  have hnow : ((tenSecondRoster.job 1 0 (hours 2)).inputsFrom newestRow
      (lateRow (seconds (-5))).world.rows (lateRow (seconds (-5))).world.rows
        (lateRow (seconds (-5))).world).map (fun inputs => (compute inputs).runTimeS) = some 5 := by
    decide +kernel
  change (lateRow (seconds (-5))).world.db.results.find? (1, 0) = some r at hr
  rw [hr, Option.map_some] at hstored
  change (tenSecondRoster.job 1 0 (hours 2)).inputsFrom newestRow
    (lateRow (seconds (-5))).world.rows (lateRow (seconds (-5))).world.rows
      (lateRow (seconds (-5))).world = some inputs at hinputs
  rw [hinputs, Option.map_some] at hnow
  have hsame := congrArg ShiftResult.runTimeS hshows
  change r.2.runTimeS = (compute inputs).runTimeS at hsame
  rw [Option.some.inj hstored, Option.some.inj hnow] at hsame
  revert hsame
  decide

end Uns.Oee
