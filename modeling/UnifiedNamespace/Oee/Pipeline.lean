/-
# `Oee.Pipeline` — the inputs of one shift

`sources.py`, `master_data.py` and the pure part of `pipeline.py`: the samples a
unit's series have in and before a window, the fingerprint of the window, the
authored data of the unit, and the assembly of what the calculator reads.

The historian table is the list of its rows.  Which of several rows with the
latest time `ORDER BY time DESC LIMIT 1` returns is not specified, so it is a
parameter (`LatestRow`) with what the order does promise.
-/
import UnifiedNamespace.Lib.Dict
import UnifiedNamespace.Python.Sha256
import UnifiedNamespace.Oee.ShiftCalendar

namespace Uns.Oee

open Py Lib

/-! ## The historian -/

/-- One addressable series. -/
structure MetricRef where
  topic : Str
  metricName : Str
  deriving DecidableEq

structure MetricRow where
  time : ℤ
  topic : Str
  metricName : Str
  valueDouble : Option ℚ
  valueText : Option Str
  deriving DecidableEq

def MetricRow.ref (r : MetricRow) : MetricRef := ⟨r.topic, r.metricName⟩

/-- `ORDER BY time DESC LIMIT 1`. -/
structure LatestRow where
  pick : List MetricRow → Option MetricRow
  isSome : ∀ rows, (pick rows).isSome = true ↔ rows ≠ []
  mem : ∀ rows, ∀ r ∈ pick rows, r ∈ rows
  latest : ∀ rows, ∀ r ∈ pick rows, ∀ r' ∈ rows, r'.time ≤ r.time

def priorLookback : ℤ := hours 72

/-- `window_sql`, without its order. -/
def windowRows (rows : List MetricRow) (ref : MetricRef) (start finish : ℤ) : List MetricRow :=
  rows.filter fun r => r.ref = ref ∧ start ≤ r.time ∧ r.time ≤ finish

/-- The rows that `prior_sql` orders. -/
def priorRows (rows : List MetricRow) (ref : MetricRef) (start : ℤ) : List MetricRow :=
  rows.filter fun r => r.ref = ref ∧ r.time < start ∧ start - priorLookback ≤ r.time

/-- `_rows`: the baseline row when one exists, then the window's. -/
def seriesRows (latest : LatestRow) (rows : List MetricRow) (hasValue : MetricRow → Bool)
    (ref : MetricRef) (start finish : ℤ) : List MetricRow :=
  (latest.pick ((priorRows rows ref start).filter hasValue)).toList ++
    (windowRows rows ref start finish).filter hasValue

/-- Counter readings for one series, with the pre-window baseline. -/
def numericSamples (latest : LatestRow) (rows : List MetricRow) (ref : MetricRef)
    (start finish : ℤ) : List Sample :=
  orderedSamples
    ((seriesRows latest rows (·.valueDouble.isSome) ref start finish).filterMap fun r =>
      r.valueDouble.map fun value => ⟨r.time, value⟩)

/-- State or product readings for one series, with the value in force at `start`. -/
def textSamples (latest : LatestRow) (rows : List MetricRow) (ref : MetricRef)
    (start finish : ℤ) : List StateSample :=
  orderedStates
    ((seriesRows latest rows (·.valueText.isSome) ref start finish).filterMap fun r =>
      r.valueText.map fun value => ⟨r.time, value⟩)

/-- What the input window looked like. -/
structure Fingerprint where
  rowCount : Nat := 0
  maxTime : Option ℤ := none
  manualDigest : Str := lit "-"
  deriving DecidableEq

namespace Fingerprint

def isEmpty (f : Fingerprint) : Bool := f.rowCount = 0

/-- The stored form. -/
def asText (f : Fingerprint) : Str :=
  decimal f.rowCount ++ 58 :: ((match f.maxTime with
    | some t => isoformat t
    | none => lit "-") ++ 58 :: f.manualDigest)

def withManual (f : Fingerprint) (digest : Str) : Fingerprint := { f with manualDigest := digest }

end Fingerprint

/-- The rows of several series inside a closed window. -/
def fingerprintRows (rows : List MetricRow) (refs : List MetricRef) (start finish : ℤ) :
    List MetricRow :=
  rows.filter fun r => r.ref ∈ refs ∧ start ≤ r.time ∧ r.time ≤ finish

/-- `count(*), max(time)` over them. -/
def fingerprintOf (rows : List MetricRow) (refs : List MetricRef) (start finish : ℤ) : Fingerprint :=
  let found := fingerprintRows rows refs start finish
  { rowCount := found.length, maxTime := (found.map MetricRow.time).max? }

/-- The first sample time across several series. -/
def earliestSampleAt (rows : List MetricRow) (refs : List MetricRef) : Option ℤ :=
  ((rows.filter fun r => r.ref ∈ refs).map MetricRow.time).min?

/-! ## Master data -/

/-- One OEE unit with everything it points at resolved. -/
structure UnitMasterData where
  unitId : Nat
  assetPath : Str
  schedule : ShiftSchedule
  producingStates : List Str
  stateRef : MetricRef
  goodRef : MetricRef
  rejectRef : Option MetricRef
  productRef : Option MetricRef
  idealCycleTimes : Option Str → Option ℚ
  resolver : ReasonResolver

/-- Every series this unit reads. -/
def UnitMasterData.refs (u : UnitMasterData) : List MetricRef :=
  u.stateRef :: u.goodRef :: (u.rejectRef.toList ++ u.productRef.toList)

/-- This product's authored cycle time, else the Asset default, else nothing. -/
def UnitMasterData.idealCycleTimeFor (u : UnitMasterData) (productCode : Option Str) : Option ℚ :=
  match productCode with
  | none => u.idealCycleTimes none
  | some code => (u.idealCycleTimes (some code)).or (u.idealCycleTimes none)

/-- A `model.shift_exception` row with its Asset's path. -/
structure ShiftException where
  startsAt : ℤ
  endsAt : ℤ
  kind : Str
  assetPath : Option Str
  deriving DecidableEq

/-- An exception that applies to a unit, clipped to the shift. -/
structure ExceptionWindow where
  interval : Interval
  kind : Str
  assetPath : Option Str
  deriving DecidableEq

/-- Everywhere, on the unit's own Asset, or on an ancestor. -/
def appliesTo (exceptionAssetPath : Option Str) (unitAssetPath : Str) : Bool :=
  match exceptionAssetPath with
  | none => true
  | some path => decide (path = unitAssetPath) || (path ++ [47]).isPrefixOf unitAssetPath

def exceptionWindows (exceptions : List ShiftException) (u : UnitMasterData) (window : Interval) :
    List ExceptionWindow :=
  (exceptions.filter fun e =>
      e.startsAt < window.finish ∧ window.start < e.endsAt ∧ appliesTo e.assetPath u.assetPath).filterMap
    fun e => ((⟨e.startsAt, e.endsAt⟩ : Interval).clippedTo window).map fun clipped =>
      ⟨clipped, e.kind, e.assetPath⟩

def exceptionIntervals (windows : List ExceptionWindow) : List Interval :=
  merge (windows.map ExceptionWindow.interval)

/-! ## The inputs of the calculator -/

/-- Every series one shift needs, already fetched. -/
structure ShiftSamples where
  state : List StateSample
  good : List Sample
  reject : List Sample
  product : List StateSample
  deriving DecidableEq

def ShiftSamples.counterResets (s : ShiftSamples) : Nat :=
  (counterDelta s.good).resets + (counterDelta s.reject).resets

/-- The operator's attributions, keyed by the stop's start. -/
abbrev ManualReasons := Dict ℤ ManualReason

/-- One product's counts, taken per interval. -/
def productSegment (u : UnitMasterData) (productCode : Option Str) (intervals : List Interval)
    (samples : ShiftSamples) : ProductSegment where
  productCode := productCode
  intervals := intervals
  idealCycleTimeS := u.idealCycleTimeFor productCode
  goodCount := (intervals.map fun i => (counterDeltaIn samples.good i.start i.finish).total).sum
  rejectCount := (intervals.map fun i => (counterDeltaIn samples.reject i.start i.finish).total).sum

/-- The intervals of each code, in the order the codes first ran. -/
def groupByProduct (segments : List StateSegment) : Dict Str (List Interval) :=
  segments.foldl (fun grouped s => grouped.update s.state [] (· ++ [s.interval])) .empty

/-- The shift split by what was running. -/
def productSegments (u : UnitMasterData) (window : ShiftWindow) (samples : ShiftSamples) :
    List ProductSegment :=
  if u.productRef = none ∨ samples.product = [] then
    [productSegment u none [window.asInterval] samples]
  else
    (groupByProduct (stateSegments samples.product window.asInterval)).entries.map fun e =>
      productSegment u (some e.1) (merge e.2) samples

/-- State value for time inside the shift that no sample covers. -/
def unobservedState : Str := lit "UNKNOWN"

/-- The gaps that become stops. -/
def unobserved (window : ShiftWindow) (segments : List StateSegment) (manual : ManualReasons) :
    List StopInterval :=
  ((subtract [window.asInterval] (segments.map StateSegment.interval)).filter fun gap =>
    (manual.get? gap.start).isNone).map fun gap => ⟨unobservedState, gap⟩

/-- The classified stops of one shift; `none` is a reason outside the vocabulary. -/
def classifiedStops (u : UnitMasterData) (window : ShiftWindow) (samples : ShiftSamples)
    (manual : ManualReasons) (hasInputData : Bool) : Option (List ClassifiedStop) :=
  let segments := stateSegments samples.state window.asInterval
  (classify u.resolver manual.get? (stopIntervals segments u.producingStates)).bind fun classified =>
    if hasInputData then
      (classify u.resolver (fun _ => none) (unobserved window segments manual)).map fun gaps =>
        classified ++ gaps
    else some classified

/-- Everything the calculator needs, assembled from one shift's rows. -/
def shiftInputs (u : UnitMasterData) (window : ShiftWindow) (samples : ShiftSamples)
    (exceptions : List ExceptionWindow) (manual : ManualReasons) (hasInputData : Bool) :
    Option ShiftInputs :=
  (classifiedStops u window samples manual hasInputData).map fun classified =>
    { window := window.asInterval
      exceptionIntervals := exceptionIntervals exceptions
      classifiedStops := classified
      products := productSegments u window samples
      hasInputData := hasInputData }

/-- Downtime with no reason rule behind it. -/
def unclassifiedSeconds (stops : List ClassifiedStop) : ℚ :=
  unionDurationS ((stops.filter fun s => s.reasonCode = unclassifiedReasonCode).map
    ClassifiedStop.interval)

/-! ## The operator's digest -/

/-- `f"{at.isoformat()}={reason.reason_code}"`. -/
def manualItem (item : ℤ × ManualReason) : Str := isoformat item.1 ++ 61 :: item.2.reasonCode

/-- `"|".join(...)`. -/
def joinBars : List Str → Str
  | [] => []
  | [item] => item
  | item :: items => item ++ 124 :: joinBars items

/-- The attributions in the order of their stops. -/
def sortedItems (manual : ManualReasons) : List (ℤ × ManualReason) :=
  manual.entries.insertionSort fun a b => a.1 ≤ b.1

def manualText (manual : ManualReasons) : Str := joinBars ((sortedItems manual).map manualItem)

/-- A short, stable summary of the operator's attributions; `none` when the text does not encode. -/
def manualDigest (manual : ManualReasons) : Option Str :=
  if manual.entries = [] then some (lit "-")
  else (utf8Encode (manualText manual)).map fun bytes => (sha256Hex bytes).take 16

end Uns.Oee
