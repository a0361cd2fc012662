/-
# `Oee.Calc` — counters, reasons and the OEE arithmetic

`counters.py`, `classifier.py` and `oee_calc.py`: what a counter series produced
between two instants, the reason of a stop, and the numbers of one shift.
Instants are microseconds and the calculator's floats are rationals.

Run Time is computed by subtraction.  Over the instants of the window it is what
neither an exception nor a stop covers (`covers_run`), and its duration counts
them (`runTimeS_compute`).
-/
import UnifiedNamespace.Oee.States

namespace Uns.Oee

open Py

/-! ## Counters -/

/-- One counter reading. -/
structure Sample where
  at_ : ℤ
  value : ℚ
  deriving DecidableEq

def Sample.le (a b : Sample) : Prop := a.at_ < b.at_ ∨ (a.at_ = b.at_ ∧ a.value ≤ b.value)

instance : DecidableRel Sample.le := fun _ _ => inferInstanceAs (Decidable (_ ∨ _))

/-- How much a counter advanced, and how often it restarted. -/
structure CounterDelta where
  total : ℚ
  resets : Nat
  samples : Nat
  deriving DecidableEq

def orderedSamples (samples : List Sample) : List Sample := samples.insertionSort Sample.le

/-- One step between two readings; a step backwards is a restart. -/
def counterStep (acc : ℚ × Nat) (pair : Sample × Sample) : ℚ × Nat :=
  let step := pair.2.value - pair.1.value
  if 0 ≤ step then (acc.1 + step, acc.2) else (acc.1 + max pair.2.value 0, acc.2 + 1)

/-- The production represented by `samples`, restart-safe. -/
def counterDelta (samples : List Sample) : CounterDelta :=
  let ordered := orderedSamples samples
  let sums := (ordered.zip ordered.tail).foldl counterStep (0, 0)
  ⟨sums.1, sums.2, ordered.length⟩

/-- The readings of the window, with the last one before it when none is at its start. -/
def counterWindow (ordered : List Sample) (start finish : ℤ) : List Sample :=
  let inside := ordered.filter fun s => start ≤ s.at_ ∧ s.at_ ≤ finish
  match inside, (ordered.filter fun s => s.at_ < start).getLast? with
  | first :: rest, some prior => if start < first.at_ then prior :: first :: rest else inside
  | _, _ => inside

/-- The production between `start` and `finish`, both bounds inclusive. -/
def counterDeltaIn (samples : List Sample) (start finish : ℤ) : CounterDelta :=
  counterDelta (counterWindow (orderedSamples samples) start finish)

/-! ## Reasons -/

/-- `reason_source`. -/
inductive ReasonSource where
  | auto
  | manual
  deriving DecidableEq

structure ReasonSpec where
  code : Str
  displayName : Str
  category : Str
  isPlanned : Bool
  deriving DecidableEq

/-- An operator's attribution. -/
structure ManualReason where
  reasonCode : Str
  note : Option Str
  assignedBy : Option Str
  deriving DecidableEq

/-- A stop with its reason resolved. -/
structure ClassifiedStop where
  interval : Interval
  stateValue : Str
  reasonCode : Str
  isPlanned : Bool
  source : ReasonSource
  note : Option Str
  assignedBy : Option Str
  deriving DecidableEq

def unclassifiedReasonCode : Str := lit "UNCLASSIFIED"

/-- The precedence chain for one OEE unit; the vocabulary has the floor. -/
structure ReasonResolver where
  reasons : Str → Option ReasonSpec
  unitRules : Str → Option Str
  defaultRules : Str → Option Str
  floor : (reasons unclassifiedReasonCode).isSome = true

/-- `unit_rules.get(state) or default_rules.get(state)`. -/
def ReasonResolver.code (r : ReasonResolver) (stateValue : Str) : Option Str :=
  match r.unitRules stateValue with
  | some (c :: code) => some (c :: code)
  | _ => r.defaultRules stateValue

/-- The reason with this code; `none` is the `ValueError`. -/
def ReasonResolver.spec (r : ReasonResolver) (code : Str) : Option ReasonSpec := r.reasons code

/-- Unit rule, then plant-wide rule, then unclassified. -/
def ReasonResolver.resolve (r : ReasonResolver) (stateValue : Str) : Option ReasonSpec :=
  match r.code stateValue with
  | none => r.reasons unclassifiedReasonCode
  | some code => r.spec code

def classifyStop (resolver : ReasonResolver) (manual : ℤ → Option ManualReason)
    (stop : StopInterval) : Option ClassifiedStop :=
  match manual stop.interval.start with
  | some override =>
      (resolver.spec override.reasonCode).map fun spec =>
        { interval := stop.interval
          stateValue := stop.state
          reasonCode := spec.code
          isPlanned := spec.isPlanned
          source := .manual
          note := override.note
          assignedBy := override.assignedBy }
  | none =>
      (resolver.resolve stop.state).map fun spec =>
        { interval := stop.interval
          stateValue := stop.state
          reasonCode := spec.code
          isPlanned := spec.isPlanned
          source := .auto
          note := none
          assignedBy := none }

/-- Attach a reason to every stop. -/
def classify (resolver : ReasonResolver) (manual : ℤ → Option ManualReason) :
    List StopInterval → Option (List ClassifiedStop)
  | [] => some []
  | stop :: stops =>
      (classifyStop resolver manual stop).bind fun c =>
        (classify resolver manual stops).map (c :: ·)

def plannedIntervals (classified : List ClassifiedStop) : List Interval :=
  (classified.filter fun c => c.isPlanned).map ClassifiedStop.interval

def unplannedIntervals (classified : List ClassifiedStop) : List Interval :=
  (classified.filter fun c => !c.isPlanned).map ClassifiedStop.interval

/-! ## The calculator -/

inductive OeeStatus where
  | ok
  | noLoadingTime
  | noProduction
  | missingIdealCycleTime
  | noInputData
  deriving DecidableEq

/-- What one product ran during, and what it produced. -/
structure ProductSegment where
  productCode : Option Str
  intervals : List Interval
  idealCycleTimeS : Option ℚ
  goodCount : ℚ
  rejectCount : ℚ
  deriving DecidableEq

def ProductSegment.totalCount (p : ProductSegment) : ℚ := p.goodCount + p.rejectCount

/-- Everything one shift's numbers are computed from. -/
structure ShiftInputs where
  window : Interval
  exceptionIntervals : List Interval
  classifiedStops : List ClassifiedStop
  products : List ProductSegment
  hasInputData : Bool
  deriving DecidableEq

structure ProductMetrics where
  productCode : Option Str
  runTimeS : ℚ
  goodCount : ℚ
  rejectCount : ℚ
  totalCount : ℚ
  idealCycleTimeS : Option ℚ
  deriving DecidableEq

structure ShiftMetrics where
  loadingTimeS : ℚ := 0
  runTimeS : ℚ := 0
  plannedDownS : ℚ := 0
  unplannedDownS : ℚ := 0
  goodCount : ℚ := 0
  rejectCount : ℚ := 0
  totalCount : ℚ := 0
  availability : Option ℚ := none
  performance : Option ℚ := none
  performanceRaw : Option ℚ := none
  quality : Option ℚ := none
  oee : Option ℚ := none
  status : OeeStatus := .noInputData
  products : List ProductMetrics := []
  missingIdealCycleTime : Bool := false
  performanceOverUnity : Bool := false
  deriving DecidableEq

namespace ShiftInputs

def plannedInShift (inputs : ShiftInputs) : List Interval :=
  intersect (inputs.exceptionIntervals ++ plannedIntervals inputs.classifiedStops) [inputs.window]

def loading (inputs : ShiftInputs) : List Interval := subtract [inputs.window] inputs.plannedInShift

def unplannedInLoading (inputs : ShiftInputs) : List Interval :=
  intersect (unplannedIntervals inputs.classifiedStops) inputs.loading

def run (inputs : ShiftInputs) : List Interval := subtract inputs.loading inputs.unplannedInLoading

end ShiftInputs

def productMetrics (segments : List ProductSegment) (run : List Interval) : List ProductMetrics :=
  segments.map fun segment =>
    { productCode := segment.productCode
      runTimeS := unionDurationS (intersect segment.intervals run)
      goodCount := segment.goodCount
      rejectCount := segment.rejectCount
      totalCount := segment.totalCount
      idealCycleTimeS := segment.idealCycleTimeS }

/-- The unclamped Performance, and whether an ideal cycle time was missing. -/
def performanceRaw (products : List ProductMetrics) (runTimeS totalCount : ℚ) : Option ℚ × Bool :=
  if runTimeS ≤ 0 ∨ totalCount ≤ 0 then (none, false)
  else
    let producing := products.filter fun p => 0 < p.totalCount
    if producing.any fun p => p.idealCycleTimeS.isNone then (none, true)
    else (some ((producing.map fun p => p.idealCycleTimeS.getD 0 * p.totalCount).sum / runTimeS), false)

def statusOf (performance quality : Option ℚ) (missingIdeal : Bool) : OeeStatus :=
  if quality.isNone ∨ (performance.isNone ∧ missingIdeal = false) then .noProduction
  else if missingIdeal then .missingIdealCycleTime
  else .ok

/-- `availability * performance * quality`. -/
def oeeOf (availability : ℚ) (performance quality : Option ℚ) : Option ℚ :=
  performance.bind fun p => quality.map fun q => availability * p * q

/-- The four factors for one shift, or the reason there are none. -/
def compute (inputs : ShiftInputs) : ShiftMetrics :=
  if inputs.hasInputData = false then {}
  else
    let plannedDownS := unionDurationS inputs.plannedInShift
    let loadingTimeS := unionDurationS inputs.loading
    let unplannedDownS := unionDurationS inputs.unplannedInLoading
    let runTimeS := unionDurationS inputs.run
    let products := productMetrics inputs.products inputs.run
    let goodCount := (products.map ProductMetrics.goodCount).sum
    let rejectCount := (products.map ProductMetrics.rejectCount).sum
    let totalCount := goodCount + rejectCount
    if loadingTimeS ≤ 0 then
      { plannedDownS, goodCount, rejectCount, totalCount, status := .noLoadingTime, products }
    else
      let availability := runTimeS / loadingTimeS
      let quality := if 0 < totalCount then some (goodCount / totalCount) else none
      let raw := performanceRaw products runTimeS totalCount
      let performance := raw.1.map fun p => min p 1
      { loadingTimeS, runTimeS, plannedDownS, unplannedDownS, goodCount, rejectCount, totalCount
        availability := some availability
        performance
        performanceRaw := raw.1
        quality
        oee := oeeOf availability performance quality
        status := statusOf performance quality raw.2
        products
        missingIdealCycleTime := raw.2
        performanceOverUnity := (raw.1.map fun p => decide (1 < p)).getD false }

/-! ## Run Time -/

theorem classify_cons {resolver : ReasonResolver} {manual : ℤ → Option ManualReason}
    {stop : StopInterval} {stops : List StopInterval} {cs : List ClassifiedStop} :
    classify resolver manual (stop :: stops) = some cs ↔
      ∃ c rest, classifyStop resolver manual stop = some c ∧
        classify resolver manual stops = some rest ∧ cs = c :: rest := by
  rw [classify, Option.bind_eq_some_iff]
  simp only [Option.map_eq_some_iff]
  constructor
  · rintro ⟨c, hc, rest, hrest, rfl⟩
    exact ⟨c, rest, hc, hrest, rfl⟩
  · rintro ⟨c, rest, hc, hrest, rfl⟩
    exact ⟨c, hc, rest, hrest, rfl⟩

/-- What a classified stop takes from its stop and from the operator. -/
theorem classifyStop_spec {resolver : ReasonResolver} {manual : ℤ → Option ManualReason}
    {stop : StopInterval} {c : ClassifiedStop} (h : classifyStop resolver manual stop = some c) :
    c.interval = stop.interval ∧ c.stateValue = stop.state ∧
      (c.source = .manual ↔ (manual stop.interval.start).isSome = true) := by
  unfold classifyStop at h
  split at h
  · rename_i override hm
    obtain ⟨spec, -, rfl⟩ := Option.map_eq_some_iff.mp h
    rw [hm]
    simp
  · rename_i hm
    obtain ⟨spec, -, rfl⟩ := Option.map_eq_some_iff.mp h
    rw [hm]
    simp

/-- Classification keeps the intervals. -/
theorem interval_classify {resolver : ReasonResolver} {manual : ℤ → Option ManualReason}
    {stops : List StopInterval} {cs : List ClassifiedStop} (h : classify resolver manual stops = some cs) :
    cs.map ClassifiedStop.interval = stops.map StopInterval.interval := by
  induction stops generalizing cs with
  | nil =>
      obtain rfl := Option.some.inj h
      rfl
  | cons stop stops ih =>
      obtain ⟨c, rest, hc, hrest, rfl⟩ := classify_cons.mp h
      rw [List.map_cons, List.map_cons, ih hrest, (classifyStop_spec hc).1]

theorem covers_planned_or_unplanned {cs : List ClassifiedStop} {t : ℤ} :
    Covers (plannedIntervals cs) t ∨ Covers (unplannedIntervals cs) t ↔
      Covers (cs.map ClassifiedStop.interval) t := by
  induction cs with
  | nil => simp [plannedIntervals, unplannedIntervals]
  | cons c cs ih =>
      unfold plannedIntervals unplannedIntervals at ih ⊢
      cases hp : c.isPlanned <;>
        simp only [List.filter_cons, hp, Bool.not_true, Bool.not_false, if_true, if_false,
          Bool.false_eq_true, List.map_cons, covers_cons, ← ih] <;>
        tauto

variable {inputs : ShiftInputs} {t : ℤ}

/-- Run Time is what is left of the window. -/
theorem covers_run : Covers inputs.run t ↔
    (inputs.window.start ≤ t ∧ t < inputs.window.finish) ∧
      ¬ Covers inputs.exceptionIntervals t ∧
      ¬ Covers (inputs.classifiedStops.map ClassifiedStop.interval) t := by
  have hwindow : Covers [inputs.window] t ↔ inputs.window.start ≤ t ∧ t < inputs.window.finish := by
    simp
  unfold ShiftInputs.run ShiftInputs.unplannedInLoading ShiftInputs.loading ShiftInputs.plannedInShift
  simp only [covers_subtract, covers_intersect, covers_append, hwindow, ← covers_planned_or_unplanned]
  tauto

/-- The Run Time of a shift with input data counts the microseconds of its run. -/
theorem runTimeS_compute (h : inputs.hasInputData = true) (hl : 0 < unionDurationS inputs.loading) :
    (compute inputs).runTimeS = ((instants inputs.run).card : ℚ) / 1000000 := by
  unfold compute
  rw [h, if_neg (by decide)]
  dsimp only
  rw [if_neg (not_le.mpr hl)]
  exact unionDurationS_eq_card _

/-- Without Loading Time there is no run either. -/
theorem run_eq_empty (hl : unionDurationS inputs.loading ≤ 0) : instants inputs.run = ∅ := by
  rw [unionDurationS_eq_card] at hl
  have hcard : ((instants inputs.loading).card : ℚ) ≤ 0 := by linarith
  have hempty : instants inputs.loading = ∅ := by
    rw [← Finset.card_eq_zero]
    exact_mod_cast le_antisymm hcard (Nat.cast_nonneg _)
  ext t
  simp only [mem_instants, ShiftInputs.run, covers_subtract, Finset.notMem_empty, iff_false]
  rintro ⟨ht, -⟩
  rw [← mem_instants, hempty] at ht
  cases ht

/-- In either case it is the duration of the run. -/
theorem runTimeS_eq (h : inputs.hasInputData = true) :
    (compute inputs).runTimeS = ((instants inputs.run).card : ℚ) / 1000000 := by
  rcases lt_or_ge 0 (unionDurationS inputs.loading) with hl | hl
  · exact runTimeS_compute h hl
  · rw [run_eq_empty hl]
    unfold compute
    rw [h, if_neg (by decide)]
    dsimp only
    rw [if_pos hl]
    simp

end Uns.Oee
