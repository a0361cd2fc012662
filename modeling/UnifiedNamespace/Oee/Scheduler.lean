/-
# `Oee.Scheduler` — which shifts a pass computes

`scheduler.py`.  A pass claims the pending requests, plans the windows of each unit
from the late window, the requests and the first pass's backfill, and runs one
shift after the other.  A run that raises is counted; planning stands outside that
`try`, so a unit whose planning raises ends the pass: the units behind it are not
reached and the claimed requests are not closed (`passCovers_iff`).
-/
import UnifiedNamespace.Oee.RunShift

namespace Uns.Oee

open Py Lib

/-! ## The windows that are due -/

structure OeeConfig where
  settleMinutes : ℤ
  lateWindowHours : ℤ
  backfillDays : ℤ

/-- One request this instance has taken; no unit means every unit. -/
structure ClaimedRange where
  requestId : Nat
  unitId : Option Nat
  start : ℤ
  finish : ℤ
  deriving DecidableEq

structure BackfillPlan where
  windows : List ShiftWindow := []
  skippedNoHistory : Nat := 0
  skippedPredatesData : Nat := 0

structure BackfillTally where
  unitId : Nat
  assetPath : Str
  computed : Nat
  skippedNoHistory : Nat
  skippedPredatesData : Nat

def requestClaimLimit : Nat := 200

/-- `int`, toward zero. -/
def truncate (x : ℚ) : ℤ := if x < 0 then -⌊-x⌋ else ⌊x⌋

/-- `backfill_days`, reduced to what the retention policy can still answer. -/
def clampBackfillDays (configured : ℤ) (retention : Option ℚ) : ℤ :=
  match retention with
  | none => configured
  | some kept => min configured (truncate kept)

/-- The late window, opened by the longest slot. -/
def lookback (unit : UnitMasterData) (lateWindowHours : ℤ) : ℤ :=
  hours lateWindowHours +
    ((unit.schedule.slots.map fun slot => minutes slot.durationMinutes).max?).getD 0

section Windows

variable (zones : Str → Option Zone) (config : OeeConfig) (unit : UnitMasterData) (now : ℤ)

/-- Settled shifts still inside their late window. -/
def recheckWindows : Option (List ShiftWindow) :=
  (shiftWindows zones unit.schedule (now - lookback unit config.lateWindowHours) now).map fun windows =>
    windows.filter fun w =>
      w.isClosedAt now config.settleMinutes && decide (now - w.finish ≤ hours config.lateWindowHours)

/-- Settled shifts back to the clamped limit that the unit has data for. -/
def backfillWindows (backfillDays : ℤ) (earliestInputAt : Option ℤ) : Option BackfillPlan :=
  (shiftWindows zones unit.schedule (now - days backfillDays) now).map fun windows =>
    let settled := windows.filter fun w => w.isClosedAt now config.settleMinutes
    match earliestInputAt with
    | none => { skippedNoHistory := settled.length }
    | some earliest =>
        let kept := settled.filter fun w => earliest < w.finish
        { windows := kept, skippedPredatesData := settled.length - kept.length }

/-- Settled shifts inside the requested ranges, with no late window. -/
def requestWindows : List (ℤ × ℤ) → Option (List ShiftWindow)
  | [] => some []
  | range :: ranges =>
      (shiftWindows zones unit.schedule range.1 range.2).bind fun windows =>
        (requestWindows ranges).map fun rest =>
          windows.filter (fun w => w.isClosedAt now config.settleMinutes) ++ rest

end Windows

/-- The claimed ranges that apply to one unit. -/
def rangesFor (unitId : Nat) (claimed : List ClaimedRange) : List (ℤ × ℤ) :=
  (claimed.filter fun item => item.unitId = none ∨ item.unitId = some unitId).map fun item =>
    (item.start, item.finish)

/-- The windows whose start has not been seen. -/
def unseen (seen : List ℤ) : List ShiftWindow → List ShiftWindow
  | [] => []
  | w :: windows =>
      if w.start ∈ seen then unseen seen windows else w :: unseen (w.start :: seen) windows

/-- One window per shift start, earliest first. -/
def orderedUnique (windows : List ShiftWindow) : List ShiftWindow :=
  unseen [] (windows.insertionSort fun a b => a.start ≤ b.start)

/-! ## The queue -/

def claimRequests (db : Database) (locked : List Nat) (at_ : ℤ) (limit : Nat) :
    Database × List ClaimedRange :=
  let pending := (((db.requests.filter fun r => r.2.claimedAt = none ∧ r.1 ∉ locked).insertionSort
    fun a b => a.2.requestedAt ≤ b.2.requestedAt).take limit).map Prod.fst
  ({ db with requests := db.requests.map fun r =>
      if r.1 ∈ pending then (r.1, { r.2 with claimedAt := some at_ }) else r },
    (db.requests.filter fun r => r.1 ∈ pending).map fun r =>
      ⟨r.1, r.2.unitId, r.2.rangeStart, r.2.rangeEnd⟩)

/-- One verdict for the whole pass. -/
def completeRequests (db : Database) (requestIds : List Nat) (at_ : ℤ) (error : Option Str) : Database :=
  { db with requests := db.requests.map fun r =>
      if r.1 ∈ requestIds then (r.1, { r.2 with completedAt := some at_, error := error }) else r }

/-! ## A pass -/

/-- What a pass meets: the zones, the retention policy, the requests that another session holds, the
units whose earliest sample cannot be read, and how far each run gets. -/
structure Surroundings where
  latest : LatestRow
  zones : Str → Option Zone
  retention : Option ℚ
  locked : List Nat
  earliestFails : Nat → Bool
  calls : Nat × ℤ → Nat
  delivered : Nat × ℤ → Bool

structure Scheduler where
  config : OeeConfig
  backfillDays : Option ℤ
  backfilled : Bool

/-- `active_units`: each unit once. -/
structure ActiveUnits where
  units : List UnitMasterData
  nodup : (units.map UnitMasterData.unitId).Nodup

/-- What planning one unit reads. -/
structure Planning where
  env : Surroundings
  config : OeeConfig
  backfillDays : ℤ
  now : ℤ
  claimed : List ClaimedRange
  backfilling : Bool

/-- `_windows_for`; `none` when it raises. -/
def windowsFor (plan : Planning) (rows : List MetricRow) (unit : UnitMasterData) :
    Option (List ShiftWindow × Option BackfillTally) :=
  (recheckWindows plan.env.zones plan.config unit plan.now).bind fun recheck =>
    (requestWindows plan.env.zones plan.config unit plan.now
        (rangesFor unit.unitId plan.claimed)).bind fun requested =>
      if plan.backfilling = false then some (orderedUnique (recheck ++ requested), none)
      else if plan.env.earliestFails unit.unitId then none
      else
        (backfillWindows plan.env.zones plan.config unit plan.now plan.backfillDays
            (earliestSampleAt rows unit.refs)).map fun backfill =>
          (orderedUnique (recheck ++ requested ++ backfill.windows),
            some
              { unitId := unit.unitId
                assetPath := unit.assetPath
                computed := backfill.windows.length
                skippedNoHistory := backfill.skippedNoHistory
                skippedPredatesData := backfill.skippedPredatesData })

/-- The runs made so far, each with its outcome unless it raised. -/
structure Progress where
  world : World
  runs : List (Job × Option ShiftOutcome)
  tallies : List BackfillTally

/-- One run after the other; one that raises is passed over. -/
def runAll (env : Surroundings) (w : World) : List Job → World × List (Job × Option ShiftOutcome)
  | [] => (w, [])
  | job :: jobs =>
      let ran := runShift env.latest (env.delivered job.shift) (env.calls job.shift) w job
      let rest := runAll env ran.1 jobs
      (rest.1, (job, ran.2) :: rest.2)

def computeUnit (plan : Planning) (p : Progress) (unit : UnitMasterData) : Option Progress :=
  (windowsFor plan p.world.rows unit).map fun planned =>
    let ran := runAll plan.env p.world (planned.1.map fun window => ⟨unit, window, plan.now⟩)
    ⟨ran.1, p.runs ++ ran.2, p.tallies ++ planned.2.toList⟩

/-- The loop over the units, and whether it reached the end. -/
def computeUnits (plan : Planning) : List UnitMasterData → Progress → Progress × Bool
  | [], p => (p, true)
  | unit :: units, p =>
      match computeUnit plan p unit with
      | none => (p, false)
      | some p => computeUnits plan units p

def Progress.failures (p : Progress) : Nat := p.runs.countP fun r => r.2.isNone

/-- `None` when every window has been computed. -/
def Progress.verdict (p : Progress) : Option Str :=
  if p.failures = 0 then none else some (decimal p.failures ++ lit " window(s) failed in this pass")

structure PassSummary where
  outcomes : List ShiftOutcome
  units : Nat
  windows : Nat
  failures : Nat
  backfilled : Bool
  backfill : List BackfillTally

/-- What a pass leaves; no summary is a pass that raised. -/
structure Pass where
  scheduler : Scheduler
  world : World
  runs : List (Job × Option ShiftOutcome)
  claimed : List ClaimedRange
  summary : Option PassSummary

/-- What a pass has read and claimed before the first unit. -/
def Scheduler.planning (s : Scheduler) (env : Surroundings) (now : ℤ) (w : World) : Planning where
  env := env
  config := s.config
  backfillDays := s.backfillDays.getD (clampBackfillDays s.config.backfillDays env.retention)
  now := now
  claimed := (claimRequests w.db env.locked now requestClaimLimit).2
  backfilling := !s.backfilled

def World.claimed (w : World) (env : Surroundings) (now : ℤ) : World :=
  { w with db := (claimRequests w.db env.locked now requestClaimLimit).1 }

def World.closed (w : World) (requestIds : List Nat) (now : ℤ) (error : Option Str) : World :=
  { w with db := completeRequests w.db requestIds now error }

/-- Compute every due shift for every active unit. -/
def runPass (env : Surroundings) (s : Scheduler) (active : ActiveUnits) (now : ℤ) (w : World) : Pass :=
  let plan := s.planning env now w
  let computed := computeUnits plan active.units ⟨w.claimed env now, [], []⟩
  let p := computed.1
  let bounded : Scheduler := { s with backfillDays := some plan.backfillDays }
  if computed.2 then
    { scheduler := { bounded with backfilled := s.backfilled || decide (p.failures = 0) }
      world := p.world.closed (plan.claimed.map ClaimedRange.requestId) now p.verdict
      runs := p.runs
      claimed := plan.claimed
      summary := some
        { outcomes := p.runs.filterMap Prod.snd
          units := active.units.length
          windows := p.runs.length
          failures := p.failures
          backfilled := plan.backfilling
          backfill := p.tallies } }
  else
    { scheduler := bounded
      world := p.world
      runs := p.runs
      claimed := plan.claimed
      summary := none }

/-! ## The runs of a pass -/

section Runs

variable {env : Surroundings} {plan : Planning} {w : World}

/-- The runs that one unit's windows call for. -/
def dueJobs (plan : Planning) (rows : List MetricRow) (unit : UnitMasterData) : List Job :=
  match windowsFor plan rows unit with
  | none => []
  | some planned => planned.1.map fun window => ⟨unit, window, plan.now⟩

/-- Planning the unit does not raise. -/
def Plans (plan : Planning) (rows : List MetricRow) (unit : UnitMasterData) : Bool :=
  (windowsFor plan rows unit).isSome

theorem runAll_append (jobs jobs' : List Job) :
    runAll env w (jobs ++ jobs') =
      ((runAll env (runAll env w jobs).1 jobs').1,
        (runAll env w jobs).2 ++ (runAll env (runAll env w jobs).1 jobs').2) := by
  induction jobs generalizing w with
  | nil => rfl
  | cons job jobs ih =>
      simp only [List.cons_append, runAll, ih]

theorem runAll_jobs (jobs : List Job) : (runAll env w jobs).2.map Prod.fst = jobs := by
  induction jobs generalizing w with
  | nil => rfl
  | cons job jobs ih =>
      unfold runAll
      rw [List.map_cons, ih]

/-- What every run leaves alone. -/
theorem runAll_frame (shifts : List (Nat × ℤ)) (jobs : List Job) (h : ∀ job ∈ jobs, job.shift ∈ shifts) :
    (runAll env w jobs).1.rows = w.rows ∧ (runAll env w jobs).1.exceptions = w.exceptions ∧
      (runAll env w jobs).1.db.requests = w.db.requests ∧
        manualRows (runAll env w jobs).1.db.events = manualRows w.db.events ∧
          ∀ k, k ∉ shifts → (runAll env w jobs).1.db.results.find? k = w.db.results.find? k := by
  induction jobs generalizing w with
  | nil => exact ⟨rfl, rfl, rfl, rfl, fun _ _ => rfl⟩
  | cons job jobs ih =>
      have hframe := (quiet_runShift env.latest (env.delivered job.shift) (env.calls job.shift) w job).frame
      obtain ⟨hrows, hexceptions, hrequests, hmanual, hother⟩ :=
        ih (w := (runShift env.latest (env.delivered job.shift) (env.calls job.shift) w job).1)
          fun q hq => h q (List.mem_cons_of_mem _ hq)
      refine ⟨hrows.trans hframe.rows, hexceptions.trans hframe.exceptions,
        hrequests.trans hframe.requests, hmanual.trans hframe.manual, ?_⟩
      intro k hk
      refine (hother k hk).trans (hframe.otherRows k ?_)
      rintro rfl
      exact hk (h job List.mem_cons_self)

theorem rows_runAll (jobs : List Job) : (runAll env w jobs).1.rows = w.rows :=
  (runAll_frame (jobs.map Job.shift) jobs fun _ h => List.mem_map_of_mem h).1

theorem requests_runAll (jobs : List Job) : (runAll env w jobs).1.db.requests = w.db.requests :=
  (runAll_frame (jobs.map Job.shift) jobs fun _ h => List.mem_map_of_mem h).2.2.1

/-- The runs are those of the units up to the first whose planning raises. -/
theorem computeUnits_spec (units : List UnitMasterData) (p : Progress) :
    (computeUnits plan units p).1.world = (runAll plan.env p.world
        ((units.takeWhile (Plans plan p.world.rows)).flatMap (dueJobs plan p.world.rows))).1 ∧
      (computeUnits plan units p).1.runs = p.runs ++ (runAll plan.env p.world
        ((units.takeWhile (Plans plan p.world.rows)).flatMap (dueJobs plan p.world.rows))).2 ∧
      ((computeUnits plan units p).2 = true ↔ units.dropWhile (Plans plan p.world.rows) = []) := by
  induction units generalizing p with
  | nil => exact ⟨rfl, (List.append_nil _).symm, by simp [computeUnits]⟩
  | cons unit units ih =>
      cases hplanned : windowsFor plan p.world.rows unit with
      | none =>
          have hstop : Plans plan p.world.rows unit = false := by
            rw [Plans, hplanned]
            rfl
          have hnone : computeUnit plan p unit = none := by
            rw [computeUnit, hplanned]
            rfl
          simp [computeUnits, hnone, hstop, runAll]
      | some planned =>
          have hgo : Plans plan p.world.rows unit = true := by
            rw [Plans, hplanned]
            rfl
          have hjobs : dueJobs plan p.world.rows unit =
              planned.1.map fun window => ⟨unit, window, plan.now⟩ := by
            rw [dueJobs, hplanned]
          have hsome : computeUnit plan p unit = some
              ⟨(runAll plan.env p.world (dueJobs plan p.world.rows unit)).1,
                p.runs ++ (runAll plan.env p.world (dueJobs plan p.world.rows unit)).2,
                p.tallies ++ planned.2.toList⟩ := by
            rw [computeUnit, hplanned, hjobs]
            rfl
          obtain ⟨hworld, hruns, hend⟩ := ih
            ⟨(runAll plan.env p.world (dueJobs plan p.world.rows unit)).1,
              p.runs ++ (runAll plan.env p.world (dueJobs plan p.world.rows unit)).2,
              p.tallies ++ planned.2.toList⟩
          dsimp only at hworld hruns hend
          rw [rows_runAll] at hworld hruns hend
          simp only [computeUnits, hsome]
          rw [List.takeWhile_cons_of_pos hgo, List.dropWhile_cons_of_pos hgo, List.flatMap_cons,
            runAll_append]
          exact ⟨hworld, hruns.trans (List.append_assoc _ _ _), hend⟩

end Runs

/-! ## A unit that cannot be planned -/

/-- The units from the first whose planning raises. -/
def unreached (plan : Planning) (rows : List MetricRow) (units : List UnitMasterData) :
    List UnitMasterData := units.dropWhile (Plans plan rows)

/-- `run_shift` is called for every due window of every unit that can be planned, and every request
that was claimed is closed: as completed when no call raised, as failed otherwise. -/
structure PassCovers (env : Surroundings) (s : Scheduler) (active : ActiveUnits) (now : ℤ) (w : World) :
    Prop where
  computed : ∀ unit ∈ active.units, ∀ job ∈ dueJobs (s.planning env now w) w.rows unit,
    ∃ outcome, (job, outcome) ∈ (runPass env s active now w).runs
  ended : ∀ item ∈ (runPass env s active now w).claimed,
    ∀ request, (item.requestId, request) ∈ (runPass env s active now w).world.db.requests →
      request.completedAt = some now ∧
        (request.error = none ↔ ∀ run ∈ (runPass env s active now w).runs, run.2.isSome = true)

/-- Every unit can be planned; or nothing was claimed, and nothing is due behind the first that
cannot. -/
def NotPoisoned (env : Surroundings) (s : Scheduler) (active : ActiveUnits) (now : ℤ) (w : World) :
    Prop :=
  (unreached (s.planning env now w) w.rows active.units = [] ∨ (s.planning env now w).claimed = []) ∧
    ∀ unit ∈ unreached (s.planning env now w) w.rows active.units,
      dueJobs (s.planning env now w) w.rows unit = []

/-- A request is claimed before it is closed. -/
def OpenRequests (db : Database) : Prop :=
  ∀ r ∈ db.requests, r.2.claimedAt = none → r.2.completedAt = none

section Poison

variable {env : Surroundings} {s : Scheduler} {active : ActiveUnits} {now : ℤ} {w : World}
variable {plan : Planning} {rows : List MetricRow}

/-- A claimed request is on record, and open. -/
theorem open_claimRequests {db : Database} {locked : List Nat} {limit : Nat} (hopen : OpenRequests db)
    {item : ClaimedRange} (h : item ∈ (claimRequests db locked now limit).2) :
    ∃ request, (item.requestId, request) ∈ (claimRequests db locked now limit).1.requests ∧
      request.completedAt = none := by
  obtain ⟨r, hr, rfl⟩ := List.mem_map.mp h
  have hpending := decide_eq_true_eq.mp (List.mem_filter.mp hr).2
  obtain ⟨q, hq, hid⟩ := List.mem_map.mp hpending
  have hq' := (List.mem_insertionSort _).mp (List.mem_of_mem_take hq)
  obtain ⟨hmem, hunclaimed⟩ := List.mem_filter.mp hq'
  refine ⟨{ q.2 with claimedAt := some now }, List.mem_map.mpr ⟨q, hmem, ?_⟩,
    hopen q hmem (decide_eq_true_eq.mp hunclaimed).1⟩
  rw [if_pos (hid.symm ▸ hpending)]
  exact Prod.ext hid rfl

theorem unit_of_dueJobs {unit : UnitMasterData} {job : Job} (h : job ∈ dueJobs plan rows unit) :
    job.unit = unit := by
  unfold dueJobs at h
  split at h
  · cases h
  · obtain ⟨window, -, rfl⟩ := List.mem_map.mp h
    rfl

/-- A unit is planned before the first that cannot be, or not reached. -/
theorem notMem_unreached {unit : UnitMasterData}
    (h : unit ∈ active.units.takeWhile (Plans plan rows)) : unit ∉ unreached plan rows active.units := by
  intro hdrop
  have hnodup : active.units.Nodup := List.Nodup.of_map _ active.nodup
  rw [← List.takeWhile_append_dropWhile (p := Plans plan rows) (l := active.units),
    List.nodup_append] at hnodup
  exact hnodup.2.2 unit h unit hdrop rfl

/-- The runs of a pass are those of the units it reaches. -/
theorem runs_runPass : (runPass env s active now w).runs.map Prod.fst =
    (active.units.takeWhile (Plans (s.planning env now w) w.rows)).flatMap
      (dueJobs (s.planning env now w) w.rows) := by
  obtain ⟨-, hruns, -⟩ := @computeUnits_spec (s.planning env now w) active.units
    ⟨w.claimed env now, [], []⟩
  have hpass : (runPass env s active now w).runs =
      (computeUnits (s.planning env now w) active.units ⟨w.claimed env now, [], []⟩).1.runs := by
    unfold runPass
    dsimp only
    split <;> rfl
  rw [hpass, hruns, List.nil_append, runAll_jobs]
  rfl

theorem verdict_none {p : Progress} :
    p.verdict = none ↔ ∀ run ∈ p.runs, run.2.isSome = true := by
  unfold Progress.verdict
  have hcount : p.failures = 0 ↔ ∀ run ∈ p.runs, run.2.isSome = true := by
    unfold Progress.failures
    rw [List.countP_eq_zero]
    refine forall₂_congr fun run _ => ?_
    rw [← Option.not_isSome, Bool.not_eq_true, Bool.not_eq_false']
  rw [← hcount]
  split <;> simp_all

/-- What a pass leaves of the queue. -/
theorem requests_runPass (h : unreached (s.planning env now w) w.rows active.units = []) :
    (runPass env s active now w).world.db.requests =
      (completeRequests (w.claimed env now).db
        ((s.planning env now w).claimed.map ClaimedRange.requestId) now
        (computeUnits (s.planning env now w) active.units ⟨w.claimed env now, [], []⟩).1.verdict).requests ∧
      (runPass env s active now w).runs =
        (computeUnits (s.planning env now w) active.units ⟨w.claimed env now, [], []⟩).1.runs := by
  obtain ⟨hworld, -, hend⟩ := @computeUnits_spec (s.planning env now w) active.units
    ⟨w.claimed env now, [], []⟩
  have hreached := hend.mpr h
  unfold runPass
  simp only [hreached, if_true, and_true]
  unfold World.closed completeRequests
  dsimp only
  rw [hworld, requests_runAll]

theorem requests_unreached (h : unreached (s.planning env now w) w.rows active.units ≠ []) :
    (runPass env s active now w).world.db.requests = (w.claimed env now).db.requests := by
  obtain ⟨hworld, -, hend⟩ := @computeUnits_spec (s.planning env now w) active.units
    ⟨w.claimed env now, [], []⟩
  have hstopped : (computeUnits (s.planning env now w) active.units ⟨w.claimed env now, [], []⟩).2 =
      false := Bool.eq_false_iff.mpr fun heq => h (hend.mp heq)
  unfold runPass
  simp only [hstopped, Bool.false_eq_true, if_false]
  rw [hworld, requests_runAll]

theorem claimed_runPass : (runPass env s active now w).claimed = (s.planning env now w).claimed := by
  unfold runPass
  dsimp only
  split <;> rfl

/-- A pass does what it owes to the other units and to its requests exactly when every unit can be
planned, or nothing is lost behind the one that cannot. -/
theorem passCovers_iff (hopen : OpenRequests w.db) :
    PassCovers env s active now w ↔ NotPoisoned env s active now w := by
  constructor
  · intro h
    refine ⟨?_, ?_⟩
    · by_contra hboth
      obtain ⟨hstopped, hclaimed⟩ := not_or.mp hboth
      obtain ⟨item, hitem⟩ := List.exists_mem_of_ne_nil _ hclaimed
      obtain ⟨request, hrequest, hnone⟩ := open_claimRequests hopen hitem
      have hended := h.ended item (by rw [claimed_runPass]; exact hitem) request
        (by rw [requests_unreached hstopped]; exact hrequest)
      rw [hnone] at hended
      cases hended.1
    · intro unit hunit
      by_contra hdue
      obtain ⟨job, hjob⟩ := List.exists_mem_of_ne_nil _ hdue
      have hmem : unit ∈ active.units := (List.dropWhile_suffix _).subset hunit
      obtain ⟨outcome, hrun⟩ := h.computed unit hmem job hjob
      have hjobs := List.mem_map_of_mem (f := Prod.fst) hrun
      rw [runs_runPass, List.mem_flatMap] at hjobs
      obtain ⟨other, hother, hjob'⟩ := hjobs
      rw [← unit_of_dueJobs hjob', unit_of_dueJobs hjob] at hother
      exact notMem_unreached hother hunit
  · rintro ⟨hstopped, hdue⟩
    refine ⟨?_, ?_⟩
    · intro unit hunit job hjob
      rw [← List.takeWhile_append_dropWhile (p := Plans (s.planning env now w) w.rows)
        (l := active.units)] at hunit
      rcases List.mem_append.mp hunit with hunit | hunit
      · have hjobs : job ∈ (runPass env s active now w).runs.map Prod.fst := by
          rw [runs_runPass]
          exact List.mem_flatMap.mpr ⟨unit, hunit, hjob⟩
        obtain ⟨run, hrun, rfl⟩ := List.mem_map.mp hjobs
        exact ⟨run.2, hrun⟩
      · rw [hdue unit hunit] at hjob
        cases hjob
    · intro item hitem request hrequest
      rw [claimed_runPass] at hitem
      rcases hstopped with hreached | hnothing
      · obtain ⟨hrequests, hruns⟩ := requests_runPass hreached
        rw [hrequests] at hrequest
        rw [hruns, ← verdict_none]
        obtain ⟨r, -, hr⟩ := List.mem_map.mp hrequest
        by_cases hid : r.1 ∈ (s.planning env now w).claimed.map ClaimedRange.requestId
        · rw [if_pos hid] at hr
          obtain ⟨-, rfl⟩ := Prod.mk.inj hr
          exact ⟨rfl, Iff.rfl⟩
        · rw [if_neg hid] at hr
          refine absurd ?_ hid
          rw [congrArg Prod.fst hr]
          exact List.mem_map_of_mem hitem
      · rw [hnothing] at hitem
        cases hitem

/-- A pass closes only what it has claimed. -/
theorem openRequests_runPass (h : OpenRequests w.db) : OpenRequests (runPass env s active now w).world.db := by
  have hclaimed : ∀ r ∈ (w.claimed env now).db.requests, r.2.claimedAt = none →
      r.2.completedAt = none ∧ r.1 ∉ (s.planning env now w).claimed.map ClaimedRange.requestId := by
    intro r hr hnone
    obtain ⟨q, hq, rfl⟩ := List.mem_map.mp hr
    dsimp only at hnone ⊢
    split at hnone
    · cases hnone
    · rename_i hpending
      rw [if_neg hpending]
      refine ⟨h q hq hnone, ?_⟩
      intro hmem
      obtain ⟨item, hitem, hid⟩ := List.mem_map.mp hmem
      obtain ⟨p, hp, rfl⟩ := List.mem_map.mp hitem
      rw [← show p.1 = q.1 from hid] at hpending
      exact hpending (decide_eq_true_eq.mp (List.mem_filter.mp hp).2)
  intro r hr hnone
  by_cases hreached : unreached (s.planning env now w) w.rows active.units = []
  · rw [(requests_runPass hreached).1] at hr
    obtain ⟨q, hq, rfl⟩ := List.mem_map.mp hr
    dsimp only at hnone ⊢
    split at hnone
    · rename_i hid
      exact absurd hid (hclaimed q hq hnone).2
    · rename_i hid
      rw [if_neg hid]
      exact (hclaimed q hq hnone).1
  · rw [requests_unreached hreached] at hr
    exact (hclaimed r hr hnone).1

theorem openRequests_assignReason {db db' : Database} {eventId : Nat} {reasonCode assignedBy : Str}
    {note : Option Str} (h : OpenRequests db)
    (hassign : assignReason db eventId reasonCode note assignedBy now = .queued db') : OpenRequests db' := by
  unfold assignReason at hassign
  split at hassign
  · split at hassign
    · cases hassign
    · obtain rfl := Assigned.queued.inj hassign
      intro r hr hnone
      rcases List.mem_append.mp hr with hr | hr
      · exact h r hr hnone
      · rw [List.mem_singleton.mp hr]
  · cases hassign

end Poison

/-! ## A pattern that names no zone -/

/-- A day shift of ten hours in a zone. -/
def dayUnit (unitId : Nat) (zone : Str) : UnitMasterData :=
  { idealUnit 1 with
    unitId := unitId
    schedule := ⟨lit "day", zone, (List.range 7).map fun d => ⟨d, hours 6, 600, lit "day"⟩⟩ }

/-- The first unit's pattern is in this zone, the second's is in UTC. -/
def twoUnits (zone : Str) : ActiveUnits where
  units := [dayUnit 1 zone, dayUnit 2 (lit "UTC")]
  nodup := show [1, 2].Nodup by decide

/-- A host that knows UTC, no other session, and a broker that takes every message. -/
def quietHost : Surroundings where
  latest := newestRow
  zones name := if name = lit "UTC" then some ⟨id, id⟩ else none
  retention := none
  locked := []
  earliestFails _ := false
  calls _ := 20
  delivered _ := true

/-- Not the first pass any more. -/
def steadyScheduler : Scheduler := ⟨⟨30, 24, 30⟩, some 30, true⟩

/-- A request for both units is pending. -/
def requestedWorld : World :=
  ⟨[], [], { plantDatabase with requests := [(0, ⟨none, days 10, days 12, [], none, days 12, none, none,
    none⟩)] }, []⟩

theorem openRequests_requestedWorld : OpenRequests requestedWorld.db := by
  intro r hr _
  rw [List.mem_singleton.mp hr]

/-- With a known zone the pass covers both units. -/
theorem passCovers_known :
    PassCovers quietHost steadyScheduler (twoUnits (lit "UTC")) (days 13) requestedWorld := by
  refine (passCovers_iff openRequests_requestedWorld).mpr ?_
  have hreached : unreached (steadyScheduler.planning quietHost (days 13) requestedWorld)
      requestedWorld.rows (twoUnits (lit "UTC")).units = [] := by decide +kernel
  refine ⟨.inl hreached, ?_⟩
  rw [hreached]
  intro unit hunit
  cases hunit

/-- With an unknown one the request stays claimed. -/
theorem unknownZone_poisons :
    ¬ ∀ (env : Surroundings) (s : Scheduler) (active : ActiveUnits) (now : ℤ) (w : World),
      OpenRequests w.db → PassCovers env s active now w := by
  intro h
  have hcovers := h quietHost steadyScheduler (twoUnits (lit "Mars/Olympus")) (days 13) requestedWorld
    openRequests_requestedWorld
  have hclaimed : (runPass quietHost steadyScheduler (twoUnits (lit "Mars/Olympus")) (days 13)
      requestedWorld).claimed = [⟨0, none, days 10, days 12⟩] := by decide +kernel
  have hrequests : (runPass quietHost steadyScheduler (twoUnits (lit "Mars/Olympus")) (days 13)
      requestedWorld).world.db.requests =
        [(0, ⟨none, days 10, days 12, [], none, days 12, some (days 13), none, none⟩)] := by
    decide +kernel
  obtain ⟨hcompleted, -⟩ := hcovers.ended ⟨0, none, days 10, days 12⟩
    (by rw [hclaimed]; exact List.mem_singleton_self _) _
    (by rw [hrequests]; exact List.mem_singleton_self _)
  cases hcompleted

end Uns.Oee
