/-
# `Oee.RunTime` — what a shift's Run Time covers

Run Time is what exceptions and stops leave of the window, so an instant no sample
speaks for has to be in a stop.  `shift_inputs` adds the unobserved gaps as stops,
except a gap whose start is a key of the manual reasons.  There is one gap, from
the window's start to the first sample, so an operator's reason at the window's
start turns it into Run Time.

`observedProduction_iff`: Run Time covers producing instants only, exactly when
there is no such reason or the gap is inside exceptions.
-/
import UnifiedNamespace.Oee.Pipeline

namespace Uns.Oee

open Py Lib

variable {u : UnitMasterData} {window : ShiftWindow} {samples : ShiftSamples}
variable {exceptions : List ExceptionWindow} {manual : ManualReasons} {inputs : ShiftInputs}
variable {hasInputData : Bool}

/-- The reported Run Time counts the instants of `run`; there the last sample is a producing state,
and the rest of the window is in an exception or a stop. -/
structure ObservedProduction (u : UnitMasterData) (window : ShiftWindow) (samples : ShiftSamples)
    (inputs : ShiftInputs) : Prop where
  total : (compute inputs).runTimeS = ((instants inputs.run).card : ℚ) / 1000000
  inside : ∀ t, Covers inputs.run t → window.start ≤ t ∧ t < window.finish
  producing : ∀ t, Covers inputs.run t →
    ∃ s ∈ u.producingStates, stateAt samples.state t = some s
  rest : ∀ t, window.start ≤ t → t < window.finish → ¬ Covers inputs.run t →
    Covers inputs.exceptionIntervals t ∨ Covers (plannedIntervals inputs.classifiedStops) t ∨
      Covers (unplannedIntervals inputs.classifiedStops) t

/-- No manual reason at the window's start, or every unobserved instant is in an exception. -/
def GapAccounted (window : ShiftWindow) (samples : ShiftSamples) (exceptions : List ExceptionWindow)
    (manual : ManualReasons) : Prop :=
  ∀ t, window.start ≤ t → t < window.finish → stateAt samples.state t = none →
    manual.get? window.start = none ∨ Covers (exceptions.map ExceptionWindow.interval) t

/-! ## The stops of the assembled inputs -/

theorem shiftInputs_eq (h : shiftInputs u window samples exceptions manual hasInputData = some inputs) :
    inputs.window = window.asInterval ∧ inputs.hasInputData = hasInputData ∧
      inputs.exceptionIntervals = exceptionIntervals exceptions ∧
      classifiedStops u window samples manual hasInputData = some inputs.classifiedStops ∧
      inputs.products = productSegments u window samples := by
  obtain ⟨classified, hc, rfl⟩ := Option.map_eq_some_iff.mp h
  exact ⟨rfl, rfl, rfl, hc, rfl⟩

/-- The intervals of the classified stops: the non-producing segments, and the gaps. -/
theorem interval_classifiedStops {cs : List ClassifiedStop}
    (h : classifiedStops u window samples manual hasInputData = some cs) :
    cs.map ClassifiedStop.interval =
      (stopIntervals (stateSegments samples.state window.asInterval) u.producingStates).map
          StopInterval.interval ++
        if hasInputData then
          (unobserved window (stateSegments samples.state window.asInterval) manual).map
            StopInterval.interval
        else [] := by
  obtain ⟨classified, hc, hrest⟩ := Option.bind_eq_some_iff.mp h
  split at hrest
  · rename_i hd
    obtain ⟨gaps, hg, rfl⟩ := Option.map_eq_some_iff.mp hrest
    rw [List.map_append, interval_classify hc, interval_classify hg, if_pos hd]
  · rename_i hd
    obtain rfl := Option.some.inj hrest
    rw [interval_classify hc, if_neg hd, List.append_nil]

theorem covers_stopIntervals {segments : List StateSegment} {producing : List Str} {t : ℤ} :
    Covers ((stopIntervals segments producing).map StopInterval.interval) t ↔
      ∃ s, s ∉ producing ∧ SegmentAt segments s t := by
  unfold stopIntervals Covers SegmentAt
  simp only [List.mem_map, List.mem_filter, decide_eq_true_eq, exists_exists_and_eq_and]
  constructor
  · rintro ⟨g, ⟨hg, hp⟩, ht⟩
    exact ⟨g.state, hp, g, hg, rfl, ht⟩
  · rintro ⟨s, hp, g, hg, rfl, ht⟩
    exact ⟨g, ⟨hg, hp⟩, ht⟩

theorem covers_segments {segments : List StateSegment} {t : ℤ} :
    Covers (segments.map StateSegment.interval) t ↔ ∃ s, SegmentAt segments s t := by
  constructor
  · rintro ⟨i, hi, ht⟩
    obtain ⟨g, hg, rfl⟩ := List.mem_map.mp hi
    exact ⟨g.state, g, hg, rfl, ht⟩
  · rintro ⟨s, g, hg, -, ht⟩
    exact ⟨g.interval, List.mem_map_of_mem hg, ht⟩

/-! ## The gap -/

/-- What no segment covers of the window. -/
abbrev gaps (window : ShiftWindow) (samples : ShiftSamples) : List Interval :=
  subtract [window.asInterval]
    ((stateSegments samples.state window.asInterval).map StateSegment.interval)

theorem covers_gaps {t : ℤ} : Covers (gaps window samples) t ↔
    (window.start ≤ t ∧ t < window.finish) ∧ stateAt samples.state t = none := by
  have hwindow : Covers [window.asInterval] t ↔ window.start ≤ t ∧ t < window.finish := by
    simp [ShiftWindow.asInterval]
  rw [covers_subtract, hwindow, covers_segments]
  refine and_congr_right ?_
  intro ht
  rw [Option.eq_none_iff_forall_ne_some]
  refine not_exists.trans (forall_congr' ?_)
  intro s
  rw [@mem_stateSegments t s samples.state window.asInterval ht]

/-- Before an instant without a sample there is none either. -/
theorem stateAt_none_of_le {state : List StateSample} {t t' : ℤ} (h : stateAt state t = none)
    (hle : t' ≤ t) : stateAt state t' = none := by
  change lastState (orderedStates state) t = none at h
  change lastState (orderedStates state) t' = none
  refine lastState_of_lt ?_
  intro p hp
  by_contra hlt
  have hsome := (@lastState_isSome t (orderedStates state)).mpr ⟨p, hp, (not_lt.mp hlt).trans hle⟩
  rw [h] at hsome
  cases hsome

/-- A gap starts at the window's start. -/
theorem start_of_mem_gaps {gap : Interval} (h : gap ∈ gaps window samples) :
    gap.start = window.start := by
  have hsep := separated_subtract [window.asInterval]
    ((stateSegments samples.state window.asInterval).map StateSegment.interval)
  have hne := hsep.nonempty gap h
  obtain ⟨hin, hnone⟩ := covers_gaps.mp ⟨gap, h, le_refl gap.start, hne⟩
  by_contra hstart
  -- the instant before it is unobserved too, so another gap ends where this one starts
  have hbefore : Covers (gaps window samples) (gap.start - 1) :=
    covers_gaps.mpr ⟨by omega, stateAt_none_of_le hnone (by omega)⟩
  obtain ⟨other, hother, ht⟩ := hbefore
  have happart := hsep.apart_of_mem hother h
  rcases happart with rfl | hlt | hlt <;> omega

theorem interval_unobserved : (unobserved window (stateSegments samples.state window.asInterval)
    manual).map StopInterval.interval =
      (gaps window samples).filter fun gap => (manual.get? gap.start).isNone := by
  rw [unobserved, List.map_map]
  exact List.map_id' _

theorem covers_unobserved {t : ℤ} :
    Covers ((unobserved window (stateSegments samples.state window.asInterval) manual).map
        StopInterval.interval) t ↔
      (window.start ≤ t ∧ t < window.finish) ∧ stateAt samples.state t = none ∧
        manual.get? window.start = none := by
  rw [interval_unobserved]
  constructor
  · rintro ⟨gap, hgap, ht⟩
    obtain ⟨hmem, hnone⟩ := List.mem_filter.mp hgap
    rw [start_of_mem_gaps hmem, Option.isNone_iff_eq_none] at hnone
    obtain ⟨hin, hstate⟩ := covers_gaps.mp ⟨gap, hmem, ht⟩
    exact ⟨hin, hstate, hnone⟩
  · rintro ⟨hin, hstate, hnone⟩
    obtain ⟨gap, hmem, ht⟩ := covers_gaps.mpr ⟨hin, hstate⟩
    refine ⟨gap, List.mem_filter.mpr ⟨hmem, ?_⟩, ht⟩
    rw [start_of_mem_gaps hmem, Option.isNone_iff_eq_none]
    exact hnone

/-! ## Run Time -/

/-- An instant of the run is producing, or unobserved with a reason at the window's start. -/
theorem covers_run_shiftInputs {t : ℤ}
    (h : shiftInputs u window samples exceptions manual true = some inputs) :
    Covers inputs.run t ↔ (window.start ≤ t ∧ t < window.finish) ∧
      ¬ Covers (exceptions.map ExceptionWindow.interval) t ∧
      ((∃ s ∈ u.producingStates, stateAt samples.state t = some s) ∨
        (stateAt samples.state t = none ∧ manual.get? window.start ≠ none)) := by
  obtain ⟨hwindow, -, hexc, hstops, -⟩ := shiftInputs_eq h
  rw [covers_run, hwindow, hexc, interval_classifiedStops hstops, exceptionIntervals, covers_merge,
    if_pos rfl, covers_append, covers_stopIntervals, covers_unobserved]
  refine and_congr_right fun ht => and_congr_right fun _ => ?_
  have ht' : window.start ≤ t ∧ t < window.finish := ht
  simp only [@mem_stateSegments t _ samples.state window.asInterval ht]
  cases hstate : stateAt samples.state t with
  | none => simp [ht']
  | some s => simp

theorem observedProduction_iff (h : shiftInputs u window samples exceptions manual true = some inputs) :
    ObservedProduction u window samples inputs ↔ GapAccounted window samples exceptions manual := by
  obtain ⟨hwindow, hdata, -, -, -⟩ := shiftInputs_eq h
  constructor
  · intro hobs t hstart hfinish hnone
    by_contra hno
    obtain ⟨hkey, hexc⟩ := not_or.mp hno
    obtain ⟨s, -, hs⟩ := hobs.producing t
      ((covers_run_shiftInputs h).mpr ⟨⟨hstart, hfinish⟩, hexc, .inr ⟨hnone, hkey⟩⟩)
    rw [hnone] at hs
    cases hs
  · intro hgap
    refine ⟨runTimeS_eq hdata, ?_, ?_, ?_⟩
    · intro t ht
      exact ((covers_run_shiftInputs h).mp ht).1
    · intro t ht
      obtain ⟨⟨hstart, hfinish⟩, hexc, hprod | ⟨hnone, hkey⟩⟩ := (covers_run_shiftInputs h).mp ht
      · exact hprod
      · exact absurd (hgap t hstart hfinish hnone) (not_or.mpr ⟨hkey, hexc⟩)
    · intro t hstart hfinish hrun
      rw [covers_run, hwindow] at hrun
      rw [covers_planned_or_unplanned]
      by_contra hno
      exact hrun ⟨⟨hstart, hfinish⟩, not_or.mp hno⟩

/-! ## A reason at the window's start -/

def executeState : Str := lit "EXECUTE"

/-- A unit that produces in EXECUTE, without counters of rejects or products. -/
def lineUnit : UnitMasterData where
  unitId := 1
  assetPath := lit "Plant/Line1"
  schedule := ⟨lit "day", lit "UTC", []⟩
  producingStates := [executeState]
  stateRef := ⟨lit "Plant/Line1/Status", lit "value"⟩
  goodRef := ⟨lit "Plant/Line1/Good", lit "value"⟩
  rejectRef := none
  productRef := none
  idealCycleTimes := fun _ => none
  resolver :=
    { reasons := fun code =>
        if code = unclassifiedReasonCode then some ⟨code, code, [], false⟩ else none
      unitRules := fun _ => none
      defaultRules := fun _ => none
      floor := rfl }

/-- Ten seconds, of which the last five have a sample. -/
def tenSeconds : ShiftWindow := ⟨0, seconds 10, []⟩

def lateStart : ShiftSamples := ⟨[⟨seconds 5, executeState⟩], [], [], []⟩

/-- The operator's reason for the stop at the window's start. -/
def startReason : ManualReasons := ⟨[(0, ⟨unclassifiedReasonCode, none, some (lit "op")⟩)], by decide⟩

/-- Without a reason the gap is a stop, and Run Time is the last five seconds. -/
theorem observedProduction_lateStart : ∃ inputs,
    shiftInputs lineUnit tenSeconds lateStart [] .empty true = some inputs ∧
      ObservedProduction lineUnit tenSeconds lateStart inputs := by
  have hinputs : (shiftInputs lineUnit tenSeconds lateStart [] .empty true).isSome = true := rfl
  obtain ⟨inputs, hi⟩ := Option.isSome_iff_exists.mp hinputs
  refine ⟨inputs, hi, (observedProduction_iff hi).mpr ?_⟩
  intro t _ _ _
  exact .inl rfl

/-- With one, the first five seconds are Run Time though no sample says so. -/
theorem startReason_not_observed : ¬ ∀ u window samples exceptions manual inputs,
    shiftInputs u window samples exceptions manual true = some inputs →
      ObservedProduction u window samples inputs := by
  intro h
  have hinputs : (shiftInputs lineUnit tenSeconds lateStart [] startReason true).isSome = true := rfl
  obtain ⟨inputs, hi⟩ := Option.isSome_iff_exists.mp hinputs
  have hrun : Covers inputs.run 0 := by
    rw [covers_run_shiftInputs hi]
    refine ⟨by decide, ?_, .inr ⟨rfl, by decide⟩⟩
    exact covers_nil
  obtain ⟨s, -, hs⟩ := (h _ _ _ _ _ inputs hi).producing 0 hrun
  cases hs

end Uns.Oee
