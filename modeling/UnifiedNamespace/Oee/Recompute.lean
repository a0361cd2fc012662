/-
# `Oee.Recompute` — a recomputation after master data changed

`recompute_cli.py` queues a range, and the next pass runs every shift of it through
the same `run_shift` (`requested_due`).  That one decides by the fingerprint of the
historian's rows and of the operators' reasons, and no edit of master data is in it.

So after a pass without failures a requested shift shows the numbers of now exactly
when its fingerprint had changed too, or its row showed them already
(`recomputed_iff`).
-/
import UnifiedNamespace.Oee.Scheduler
import UnifiedNamespace.Oee.Skip

namespace Uns.Oee

open Py Lib

/-! ## A requested shift is due -/

section Due

variable {plan : Planning} {rows : List MetricRow} {unit : UnitMasterData}

theorem unseen_spec (windows : List ShiftWindow) (seen : List ℤ) :
    ((unseen seen windows).map ShiftWindow.start).Nodup ∧
      (∀ w ∈ unseen seen windows, w.start ∉ seen) ∧
        ∀ w ∈ windows, w.start ∉ seen → ∃ q ∈ unseen seen windows, q.start = w.start := by
  induction windows generalizing seen with
  | nil =>
      refine ⟨List.nodup_nil, ?_, ?_⟩
      · intro w hw
        cases hw
      · intro w hw
        cases hw
  | cons window windows ih =>
      by_cases hseen : window.start ∈ seen
      · obtain ⟨hnodup, hfresh, hfound⟩ := ih seen
        simp only [unseen, if_pos hseen]
        refine ⟨hnodup, hfresh, ?_⟩
        intro w hw hnew
        rcases List.mem_cons.mp hw with rfl | hw
        · exact absurd hseen hnew
        · exact hfound w hw hnew
      · obtain ⟨hnodup, hfresh, hfound⟩ := ih (window.start :: seen)
        simp only [unseen, if_neg hseen]
        refine ⟨?_, ?_, ?_⟩
        · rw [List.map_cons, List.nodup_cons]
          refine ⟨?_, hnodup⟩
          intro hmem
          obtain ⟨q, hq, hstart⟩ := List.mem_map.mp hmem
          exact hfresh q hq (hstart ▸ List.mem_cons_self)
        · intro w hw
          rcases List.mem_cons.mp hw with rfl | hw
          · exact hseen
          · exact fun hin => hfresh w hw (List.mem_cons_of_mem _ hin)
        · intro w hw hnew
          by_cases hsame : w.start = window.start
          · exact ⟨window, List.mem_cons_self, hsame.symm⟩
          · rcases List.mem_cons.mp hw with rfl | hw
            · exact absurd rfl hsame
            · obtain ⟨q, hq, hstart⟩ := hfound w hw (by simp [hsame, hnew])
              exact ⟨q, List.mem_cons_of_mem _ hq, hstart⟩

/-- One window for each start. -/
theorem orderedUnique_spec (windows : List ShiftWindow) :
    ((orderedUnique windows).map ShiftWindow.start).Nodup ∧
      ∀ w ∈ windows, ∃ q ∈ orderedUnique windows, q.start = w.start := by
  obtain ⟨hnodup, -, hfound⟩ := unseen_spec (windows.insertionSort fun a b => a.start ≤ b.start) []
  refine ⟨hnodup, ?_⟩
  intro w hw
  exact hfound w ((List.mem_insertionSort _).mpr hw) List.not_mem_nil

theorem windowsFor_spec {planned : List ShiftWindow × Option BackfillTally}
    (h : windowsFor plan rows unit = some planned) :
    ∃ windows requested, planned.1 = orderedUnique windows ∧
      requestWindows plan.env.zones plan.config unit plan.now (rangesFor unit.unitId plan.claimed) =
        some requested ∧ requested ⊆ windows := by
  obtain ⟨recheck, -, h⟩ := Option.bind_eq_some_iff.mp h
  obtain ⟨requested, hrequested, h⟩ := Option.bind_eq_some_iff.mp h
  split at h
  · obtain rfl := Option.some.inj h
    exact ⟨_, requested, rfl, hrequested, List.subset_append_right _ _⟩
  · split at h
    · cases h
    · obtain ⟨backfill, -, rfl⟩ := Option.map_eq_some_iff.mp h
      refine ⟨_, requested, rfl, hrequested, ?_⟩
      intro w hw
      exact List.mem_append_left _ (List.mem_append_right _ hw)

theorem mem_requestWindows {zones : Str → Option Zone} {config : OeeConfig} {now : ℤ}
    {ranges : List (ℤ × ℤ)} {requested windows : List ShiftWindow} {range : ℤ × ℤ} {w : ShiftWindow}
    (h : requestWindows zones config unit now ranges = some requested) (hrange : range ∈ ranges)
    (hwindows : shiftWindows zones unit.schedule range.1 range.2 = some windows) (hw : w ∈ windows)
    (hclosed : w.isClosedAt now config.settleMinutes = true) : w ∈ requested := by
  induction ranges generalizing requested with
  | nil => cases hrange
  | cons first ranges ih =>
      obtain ⟨found, hfound, h⟩ := Option.bind_eq_some_iff.mp h
      obtain ⟨rest, hrest, rfl⟩ := Option.map_eq_some_iff.mp h
      rcases List.mem_cons.mp hrange with rfl | hrange
      · rw [hfound] at hwindows
        obtain rfl := Option.some.inj hwindows
        exact List.mem_append_left _ (List.mem_filter.mpr ⟨hw, hclosed⟩)
      · exact List.mem_append_right _ (ih hrest hrange)

/-- A settled shift inside a claimed range is run. -/
theorem requested_due {item : ClaimedRange} {windows : List ShiftWindow} {w : ShiftWindow}
    (hplans : Plans plan rows unit = true) (hitem : item ∈ plan.claimed)
    (hunit : item.unitId = none ∨ item.unitId = some unit.unitId)
    (hwindows : shiftWindows plan.env.zones unit.schedule item.start item.finish = some windows)
    (hw : w ∈ windows) (hclosed : w.isClosedAt plan.now plan.config.settleMinutes = true) :
    ∃ job ∈ dueJobs plan rows unit, job.shift = (unit.unitId, w.start) := by
  obtain ⟨planned, hplanned⟩ := Option.isSome_iff_exists.mp hplans
  obtain ⟨all, requested, heq, hrequested, hsubset⟩ := windowsFor_spec hplanned
  have hrange : (item.start, item.finish) ∈ rangesFor unit.unitId plan.claimed :=
    List.mem_map.mpr ⟨item, List.mem_filter.mpr ⟨hitem, decide_eq_true_eq.mpr hunit⟩, rfl⟩
  have hmem := hsubset (mem_requestWindows hrequested hrange hwindows hw hclosed)
  obtain ⟨q, hq, hstart⟩ := (orderedUnique_spec all).2 w hmem
  refine ⟨⟨unit, q, plan.now⟩, ?_, Prod.ext rfl hstart⟩
  rw [dueJobs, hplanned]
  exact List.mem_map.mpr ⟨q, heq ▸ hq, rfl⟩

/-- Each shift at most once. -/
theorem shifts_dueJobs : ((dueJobs plan rows unit).map Job.shift).Nodup := by
  unfold dueJobs
  split
  · exact List.nodup_nil
  · rename_i planned hplanned
    obtain ⟨all, -, heq, -⟩ := windowsFor_spec hplanned
    rw [List.map_map, heq]
    have hnodup := (orderedUnique_spec all).1
    refine List.Nodup.of_map Prod.snd ?_
    rw [List.map_map]
    exact hnodup

end Due

/-! ## One run among others -/

section Among

variable {latest : LatestRow} {env : Surroundings} {w w' w'' : World} {job : Job} {read : Reading}

/-- What a run reads is what it would have read before runs of other shifts. -/
structure SameFor (job : Job) (w w' : World) : Prop where
  rows : w'.rows = w.rows
  exceptions : w'.exceptions = w.exceptions
  manual : manualRows w'.db.events = manualRows w.db.events
  row : w'.db.results.find? job.shift = w.db.results.find? job.shift

theorem SameFor.reading (h : SameFor job w w') : job.reading w' = job.reading w := by
  unfold Job.reading existing
  rw [h.rows, manualReasons_congr h.manual,
    show w'.db.results.find? (job.unit.unitId, job.window.start) =
      w.db.results.find? (job.unit.unitId, job.window.start) from h.row]

theorem SameFor.inputs (h : SameFor job w w') : job.inputs latest w' read = job.inputs latest w read := by
  unfold Job.inputs
  rw [h.rows, h.exceptions]

theorem sameFor_runAll {jobs : List Job} (h : job.shift ∉ jobs.map Job.shift) :
    SameFor job w (runAll env w jobs).1 := by
  obtain ⟨hrows, hexceptions, -, hmanual, hother⟩ :=
    @runAll_frame env w (jobs.map Job.shift) jobs fun _ hj => List.mem_map_of_mem hj
  exact ⟨hrows, hexceptions, hmanual, hother _ h⟩

/-- Kept or written, as the run decided on what it read. -/
def Decided (latest : LatestRow) (w : World) (job : Job) (w' : World) : Prop :=
  ∃ read, job.reading w = some read ∧
    ((read.unchanged = true ∧ Kept job.shift w w') ∨ Written latest w job read w')

theorem Decided.before (h : SameFor job w w') (hd : Decided latest w' job w'') :
    Decided latest w job w'' := by
  obtain ⟨read, hread, hd⟩ := hd
  refine ⟨read, h.reading.symm.trans hread, ?_⟩
  rcases hd with ⟨hu, hsome, hkept⟩ | ⟨hu, inputs, r, hinputs, hrow, hshows, htext, hrevision⟩
  · rw [h.row] at hsome hkept
    exact .inl ⟨hu, hsome, hkept⟩
  · rw [h.inputs] at hinputs
    rw [h.row] at hrevision
    exact .inr ⟨hu, inputs, r, hinputs, hrow, hshows, htext, hrevision⟩

theorem Decided.after (hd : Decided latest w job w') (h : SameFor job w' w'') :
    Decided latest w job w'' := by
  obtain ⟨read, hread, hd⟩ := hd
  refine ⟨read, hread, ?_⟩
  rcases hd with ⟨hu, hsome, hkept⟩ | ⟨hu, inputs, r, hinputs, hrow, hshows, htext, hrevision⟩
  · rw [← h.row] at hkept
    exact .inl ⟨hu, hsome, hkept⟩
  · rw [← h.row] at hrow
    exact .inr ⟨hu, inputs, r, hinputs, hrow, hshows, htext, hrevision⟩

/-- In a sequence of runs of different shifts, each decides on the tables before the first. -/
theorem runAll_decided {jobs : List Job} (hshifts : (jobs.map Job.shift).Nodup)
    (hok : ∀ run ∈ (runAll env w jobs).2, run.2.isSome = true) (hjob : job ∈ jobs) :
    Decided env.latest w job (runAll env w jobs).1 := by
  obtain ⟨before, after, rfl⟩ := List.append_of_mem hjob
  rw [List.map_append, List.map_cons, List.nodup_append, List.nodup_cons] at hshifts
  obtain ⟨-, ⟨hafter, -⟩, hbefore⟩ := hshifts
  have hnew : job.shift ∉ before.map Job.shift := fun hmem =>
    hbefore _ hmem _ List.mem_cons_self rfl
  simp only [runAll_append, runAll] at hok ⊢
  have hran := hok (job, _) (List.mem_append_right _ List.mem_cons_self)
  obtain ⟨outcome, houtcome⟩ := Option.isSome_iff_exists.mp hran
  have hdecided : Decided env.latest (runAll env w before).1 job _ :=
    (quiet_of_outcome houtcome).finished
  exact (hdecided.before (sameFor_runAll hnew)).after (sameFor_runAll hafter)

/-- The row shows the numbers of now, unless its fingerprint was current and it showed others. -/
def ChangeNoticed (latest : LatestRow) (w : World) (job : Job) : Prop :=
  ∀ read, job.reading w = some read → read.unchanged = true → ShowsNow latest w job

theorem showsNow_congr (hrows : w'.rows = w.rows) (hexceptions : w'.exceptions = w.exceptions)
    (hmanual : manualRows w'.db.events = manualRows w.db.events) (hread : job.reading w = some read) :
    (∃ read', job.reading w' = some read') ∧ ∀ read', job.reading w' = some read' →
      job.inputs latest w' read' = job.inputs latest w read := by
  obtain ⟨digest, hdigest, rfl⟩ := Option.map_eq_some_iff.mp hread
  refine ⟨Option.isSome_iff_exists.mp ?_, ?_⟩
  · unfold Job.reading
    rw [manualReasons_congr hmanual, Option.isSome_map, hdigest]
    rfl
  · intro read' hread'
    rw [inputsFrom_self hread', inputsFrom_self hread, inputsFrom_congr hexceptions hmanual, hrows]

/-- What a decided run shows. -/
theorem Decided.showsNow_iff (hrows : w'.rows = w.rows) (hexceptions : w'.exceptions = w.exceptions)
    (hmanual : manualRows w'.db.events = manualRows w.db.events) (h : Decided latest w job w') :
    ShowsNow latest w' job ↔ ChangeNoticed latest w job := by
  obtain ⟨read, hread, hd⟩ := h
  obtain ⟨⟨read', hread'⟩, hinputs⟩ := @showsNow_congr latest _ _ _ _ hrows hexceptions hmanual hread
  rcases hd with ⟨hu, hsome, hkept⟩ | ⟨hu, inputs, r, hi, hrow, hshows, -, -⟩
  · obtain ⟨r, hr⟩ := Option.isSome_iff_exists.mp hsome
    have hrow' : ∃ r', w'.db.results.find? job.shift = some r' ∧ ∀ m, r'.2.Shows m ↔ r.2.Shows m := by
      rcases hkept with heq | ⟨at_, heq⟩
      · exact ⟨r, heq.trans hr, fun _ => Iff.rfl⟩
      · refine ⟨_, by rw [heq, hr]; rfl, fun m => ⟨?_, shows_withPublishedAt⟩⟩
        intro hm
        have hcolumns := congrArg (fun q : ShiftResult => { q with publishedAt := r.2.publishedAt }) hm
        exact hcolumns
    obtain ⟨r', hr', hsame⟩ := hrow'
    constructor
    · rintro ⟨q, p, inputs, hq, hp, hi, hshows⟩ found hfound -
      rw [hr'] at hq
      obtain rfl := Option.some.inj hq
      rw [hinputs p hp] at hi
      exact ⟨r, read, inputs, hr, hread, hi, (hsame _).mp hshows⟩
    · intro hnoticed
      obtain ⟨q, p, inputs, hq, hp, hi, hshows⟩ := hnoticed read hread hu
      rw [hr] at hq
      rw [hread] at hp
      obtain rfl := Option.some.inj hq
      obtain rfl := Option.some.inj hp
      exact ⟨r', read', inputs, hr', hread', (hinputs read' hread').trans hi, (hsame _).mpr hshows⟩
  · refine iff_of_true ⟨r, read', inputs, hrow, hread', (hinputs read' hread').trans hi, hshows⟩ ?_
    intro found hfound hunchanged
    rw [hread] at hfound
    obtain rfl := Option.some.inj hfound
    rw [hu] at hunchanged
    cases hunchanged

end Among

/-! ## A pass -/

section Pass

variable {env : Surroundings} {s : Scheduler} {active : ActiveUnits} {now : ℤ} {w : World}

theorem shifts_flatMap {plan : Planning} {rows : List MetricRow} {units : List UnitMasterData}
    (h : (units.map UnitMasterData.unitId).Nodup) :
    ((units.flatMap (dueJobs plan rows)).map Job.shift).Nodup := by
  induction units with
  | nil => exact List.nodup_nil
  | cons unit units ih =>
      rw [List.map_cons, List.nodup_cons] at h
      rw [List.flatMap_cons, List.map_append, List.nodup_append]
      refine ⟨shifts_dueJobs, ih h.2, ?_⟩
      rintro k hk q hq rfl
      obtain ⟨job, hjob, rfl⟩ := List.mem_map.mp hk
      obtain ⟨other, hother, hshift⟩ := List.mem_map.mp hq
      obtain ⟨unit', hunit', hjob'⟩ := List.mem_flatMap.mp hother
      refine h.1 (List.mem_map.mpr ⟨unit', hunit', ?_⟩)
      rw [← unit_of_dueJobs hjob', ← unit_of_dueJobs hjob]
      exact congrArg Prod.fst hshift

theorem takeWhile_of_unreached {plan : Planning} {rows : List MetricRow} {units : List UnitMasterData}
    (h : unreached plan rows units = []) : units.takeWhile (Plans plan rows) = units := by
  have happend := List.takeWhile_append_dropWhile (p := Plans plan rows) (l := units)
  rw [show units.dropWhile (Plans plan rows) = [] from h, List.append_nil] at happend
  exact happend

/-- A pass without failures has decided on every shift that was due. -/
theorem runPass_decided {summary : PassSummary} (h : (runPass env s active now w).summary = some summary)
    (hclean : summary.failures = 0) {unit : UnitMasterData} (hunit : unit ∈ active.units) {job : Job}
    (hjob : job ∈ dueJobs (s.planning env now w) w.rows unit) :
    Decided env.latest w job (runPass env s active now w).world ∧
      (runPass env s active now w).world.rows = w.rows ∧
      (runPass env s active now w).world.exceptions = w.exceptions ∧
      manualRows (runPass env s active now w).world.db.events = manualRows w.db.events := by
  obtain ⟨hworld, hruns, hend⟩ := @computeUnits_spec (s.planning env now w) active.units
    ⟨w.claimed env now, [], []⟩
  unfold runPass at h ⊢
  dsimp only at h ⊢
  split at h
  · rename_i hplanned
    rw [if_pos hplanned]
    have hreached := hend.mp hplanned
    rw [takeWhile_of_unreached hreached] at hworld hruns
    obtain rfl := Option.some.inj h
    have hok : ∀ run ∈ (computeUnits (s.planning env now w) active.units
        ⟨w.claimed env now, [], []⟩).1.runs, run.2.isSome = true := by
      refine verdict_none.mp ?_
      rw [Progress.verdict, if_pos hclean]
    rw [hruns, List.nil_append] at hok
    have hdue : job ∈ active.units.flatMap (dueJobs (s.planning env now w) w.rows) :=
      List.mem_flatMap.mpr ⟨unit, hunit, hjob⟩
    have hdecided := runAll_decided (shifts_flatMap active.nodup) hok hdue
    obtain ⟨hrows, hexceptions, -, hmanual, -⟩ := @runAll_frame env (w.claimed env now) _
      (active.units.flatMap (dueJobs (s.planning env now w) w.rows)) fun _ hj => List.mem_map_of_mem hj
    have hbefore : SameFor job w (w.claimed env now) := ⟨rfl, rfl, rfl, rfl⟩
    rw [hworld]
    exact ⟨(hdecided.before hbefore).after ⟨rfl, rfl, rfl, rfl⟩, hrows, hexceptions, hmanual⟩
  · cases h

/-- After a pass without failures a shift that was due, so every requested one, shows the numbers of
now exactly when its fingerprint had changed, or the row showed them already. -/
theorem recomputed_iff {summary : PassSummary} (h : (runPass env s active now w).summary = some summary)
    (hclean : summary.failures = 0) {unit : UnitMasterData} (hunit : unit ∈ active.units) {job : Job}
    (hjob : job ∈ dueJobs (s.planning env now w) w.rows unit) :
    ShowsNow env.latest (runPass env s active now w).world job ↔ ChangeNoticed env.latest w job := by
  obtain ⟨hdecided, hrows, hexceptions, hmanual⟩ := runPass_decided h hclean hunit hjob
  exact hdecided.showsNow_iff hrows hexceptions hmanual

end Pass

/-! ## A corrected cycle time -/

/-- A line with a day shift. -/
def cycleUnit (idealSeconds : ℚ) : UnitMasterData :=
  { idealUnit idealSeconds with schedule := (dayUnit 1 (lit "UTC")).schedule }

def oneUnit (idealSeconds : ℚ) : ActiveUnits where
  units := [cycleUnit idealSeconds]
  nodup := show [1].Nodup by decide

/-- Half as many parts as seconds. -/
def dayRows : List MetricRow :=
  [stateRow (days 12 + hours 6) executeState, goodRow (days 12 + hours 6) 0,
    goodRow (days 12 + hours 15) 18000]

/-- The shift was computed and published with a cycle of one second; then rows arrive, and the range is
requested. -/
def correctedWorld (rows : List MetricRow) : World :=
  let w := (runPass quietHost steadyScheduler (oneUnit 1) (days 13) ⟨dayRows, [], plantDatabase, []⟩).world
  { w with
    rows := w.rows ++ rows
    db := { w.db with requests := [(0, ⟨some 1, days 12, days 13, [], none, days 13, none, none, none⟩)] } }

/-- The run for the shift under the corrected cycle of two seconds. -/
def correctedJob : Job :=
  ⟨cycleUnit 2, ⟨days 12 + hours 6, days 12 + hours 16, lit "day"⟩, days 13 + hours 1⟩

def correctedPass (rows : List MetricRow) : Pass :=
  runPass quietHost steadyScheduler (oneUnit 2) (days 13 + hours 1) (correctedWorld rows)

theorem correctedJob_due (rows : List MetricRow)
    (h : ((windowsFor (steadyScheduler.planning quietHost (days 13 + hours 1) (correctedWorld rows))
      (correctedWorld rows).rows (cycleUnit 2)).map Prod.fst) =
        some [⟨days 12 + hours 6, days 12 + hours 16, lit "day"⟩]) :
    correctedJob ∈ dueJobs (steadyScheduler.planning quietHost (days 13 + hours 1) (correctedWorld rows))
      (correctedWorld rows).rows (cycleUnit 2) := by
  obtain ⟨planned, hplanned, hwindows⟩ := Option.map_eq_some_iff.mp h
  rw [dueJobs, hplanned]
  dsimp only
  rw [hwindows]
  exact List.mem_singleton_self _

/-- With a row that arrived late as well, the shift is computed anew. -/
theorem showsNow_corrected :
    ShowsNow newestRow (correctedPass [goodRow (days 12 + hours 15) 19000]).world correctedJob := by
  have hclean : (correctedPass [goodRow (days 12 + hours 15) 19000]).summary.map PassSummary.failures =
      some 0 := by decide +kernel
  obtain ⟨summary, hsummary, hfailures⟩ := Option.map_eq_some_iff.mp hclean
  refine (recomputed_iff hsummary hfailures (List.mem_singleton_self _)
    (correctedJob_due _ (by decide +kernel))).mpr ?_
  intro read hread hunchanged
  have hchanged : (correctedJob.reading (correctedWorld [goodRow (days 12 + hours 15) 19000])).map
      Reading.unchanged = some false := by decide +kernel
  rw [hread, Option.map_some, hunchanged] at hchanged
  cases hchanged

/-- Without one, the request is completed and the row keeps half the Performance. -/
theorem correctedCycle_not_shown :
    ¬ ∀ (env : Surroundings) (s : Scheduler) (active : ActiveUnits) (now : ℤ) (w : World)
      (summary : PassSummary), (runPass env s active now w).summary = some summary →
        summary.failures = 0 → ∀ unit ∈ active.units, ∀ job ∈ dueJobs (s.planning env now w) w.rows unit,
          ShowsNow env.latest (runPass env s active now w).world job := by
  intro h
  have hclean : (correctedPass []).summary.map PassSummary.failures = some 0 := by decide +kernel
  obtain ⟨summary, hsummary, hfailures⟩ := Option.map_eq_some_iff.mp hclean
  obtain ⟨r, read, inputs, hr, hread, hinputs, hshows⟩ := h quietHost steadyScheduler (oneUnit 2)
    (days 13 + hours 1) (correctedWorld []) summary hsummary hfailures _ (List.mem_singleton_self _)
    correctedJob (correctedJob_due _ (by decide +kernel))
  rw [inputsFrom_self hread] at hinputs
  have hstored : ((correctedPass []).world.db.results.find? correctedJob.shift).map
      (fun r => r.2.performance) = some (some (1 / 2)) := by decide +kernel
  have hnow : (correctedJob.inputsFrom newestRow (correctedPass []).world.rows
      (correctedPass []).world.rows (correctedPass []).world).map
        (fun inputs => (compute inputs).performance) = some (some 1) := by decide +kernel
  change (correctedPass []).world.db.results.find? correctedJob.shift = some r at hr
  change correctedJob.inputsFrom newestRow (correctedPass []).world.rows
    (correctedPass []).world.rows (correctedPass []).world = some inputs at hinputs
  rw [hr, Option.map_some] at hstored
  rw [hinputs, Option.map_some] at hnow
  have hsame := congrArg ShiftResult.performance hshows
  change r.2.performance = (compute inputs).performance at hsame
  rw [Option.some.inj hstored, Option.some.inj hnow] at hsame
  revert hsame
  decide +kernel

end Uns.Oee
