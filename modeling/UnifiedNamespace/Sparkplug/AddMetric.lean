/-
# `Sparkplug.AddMetric` — a metric that is refused

`add_metric` of the message generator.  The metric is added to the list of the payload or of
the template first, and then its fields are assigned one after another, so whatever raises
leaves it there with the fields it had got so far.  A call leaves the list alone when it raises
only if it never raises: `unchanged_iff` says by its arguments when that is.
-/
import UnifiedNamespace.Lib.Raise
import UnifiedNamespace.Sparkplug.Setters

namespace Uns.Sparkplug.MessageGenerator

open Py Lib

/-! ## The fields of the new metric -/

/-- The header of `Payload.Metric()`. -/
def blank : Header := ⟨none, none, none, none, none, none, none, none⟩

/-- An unsigned integer of a field of `bits`. -/
def Fits (bits : Nat) (n : Int) : Prop := 0 ≤ n ∧ n < 2 ^ bits

instance (bits : Nat) (n : Int) : Decidable (Fits bits n) := inferInstanceAs (Decidable (_ ∧ _))

/-- An assignment changes the header, or raises and leaves it: the error is what it was. -/
abbrev Assigned := Except Header Header

def setName (name : Str) (header : Header) : Assigned :=
  if name.all isScalar then .ok { header with name := some name } else .error header

def setAlias (n : Int) (header : Header) : Assigned :=
  if Fits 64 n then .ok { header with metricAlias := some (UInt64.ofNat n.toNat) } else .error header

def setTimestamp (n : Int) (header : Header) : Assigned :=
  if Fits 64 n then .ok { header with timestamp := some (UInt64.ofNat n.toNat) } else .error header

def setDatatype (n : Int) (header : Header) : Assigned :=
  if Fits 32 n then .ok { header with datatype := some (UInt32.ofNat n.toNat) } else .error header

/-! ## `add_metric` -/

/-- The names that aliases were given. -/
abbrev AliasNameMap := Dict Int Str

structure Call where
  name : Option Str
  datatype : Int
  value : Option Argument
  metricAlias : Option Int
  timestamp : Option Int

/-- `self.alias_name_map.get(alias)` for a call with a name and an alias: the map, and whether the names agree. -/
def mapAlias (names : AliasNameMap) (name : Str) (metricAlias : Int) : AliasNameMap × Bool :=
  match names.get? metricAlias with
  | none => (names.update metricAlias name fun _ => name, true)
  | some old => (names, decide (old = name))

/-- `_get_metric_wrapper`, on the metric that was added. -/
def getMetricWrapper (names : AliasNameMap) (call : Call) (timestamp : Int) : AliasNameMap × Assigned :=
  match call.name, call.metricAlias with
  | none, none => (names, .error blank)
  | some name, some metricAlias =>
      let (names, agree) := mapAlias names name metricAlias
      (names, if agree then setName name blank >>= setAlias metricAlias >>= setTimestamp timestamp else .error blank)
  | none, some metricAlias =>
      (names,
        if (names.get? metricAlias).isSome then setAlias metricAlias blank >>= setTimestamp timestamp else .error blank)
  | some name, none => (names, setName name blank >>= setTimestamp timestamp)

/-- What a call leaves. -/
structure Result where
  names : AliasNameMap
  metrics : List Metric
  raised : Bool

/-- The value of a metric whose header is set. -/
def addValue (runtime : Runtime) (call : Call) (header : Header) : Metric × Bool :=
  match call.value with
  | none => (.mk { header with isNull := some true } none .unset, false)
  | some value =>
      match setValue runtime call.datatype.toNat value with
      | none => (.mk header none .unset, true)
      | some content => (.mk header none content, false)

/-- `add_metric` to a payload or a template with these metrics, at the time `now`. -/
def addMetric (runtime : Runtime) (now : Nat) (names : AliasNameMap) (metrics : List Metric) (call : Call) : Result :=
  let (names, wrapper) := getMetricWrapper names call (call.timestamp.getD now)
  match wrapper >>= setDatatype call.datatype with
  | .error header => ⟨names, metrics ++ [.mk header none .unset], true⟩
  | .ok header =>
      let (metric, raised) := addValue runtime call header
      ⟨names, metrics ++ [metric], raised⟩

/-! ## When a call raises -/

/-- A name that can be encoded, an alias that fits and has no other name, or an alias that has one. -/
def Named (names : AliasNameMap) : Option Str → Option Int → Prop
  | none, none => False
  | some name, some metricAlias =>
      name.all isScalar = true ∧ Fits 64 metricAlias ∧ ∀ old, names.get? metricAlias = some old → old = name
  | none, some metricAlias => Fits 64 metricAlias ∧ (names.get? metricAlias).isSome
  | some name, none => name.all isScalar = true

/-- Nothing about the call is refused. -/
structure Accepted (runtime : Runtime) (now : Nat) (names : AliasNameMap) (call : Call) : Prop where
  named : Named names call.name call.metricAlias
  timestamp : Fits 64 (call.timestamp.getD now)
  datatype : Fits 32 call.datatype
  value : ∀ v, call.value = some v → (setValue runtime call.datatype.toNat v).isSome

/-- An assignment that is made under a condition. -/
theorem guarded_ok {p : Prop} [Decidable p] {changed header : Header} :
    (∃ h, (if p then .ok changed else .error header : Assigned) = .ok h) ↔ p := by
  split
  · next hp => exact ⟨fun _ => hp, fun _ => ⟨changed, rfl⟩⟩
  · next hp => exact ⟨fun ⟨_, h⟩ => (by cases h), fun h => absurd h hp⟩

/-- One assignment after others. -/
theorem then_ok {x : Assigned} {f : Header → Assigned} {p : Prop} (hf : ∀ header, (∃ h, f header = .ok h) ↔ p) :
    (∃ h, (x >>= f) = .ok h) ↔ (∃ h, x = .ok h) ∧ p := by
  constructor
  · rintro ⟨h, hbind⟩
    obtain ⟨header, hx, hh⟩ := bind_ok.mp hbind
    exact ⟨⟨header, hx⟩, (hf header).mp ⟨h, hh⟩⟩
  · rintro ⟨⟨header, hx⟩, hp⟩
    obtain ⟨h, hh⟩ := (hf header).mpr hp
    exact ⟨h, bind_ok.mpr ⟨header, hx, hh⟩⟩

theorem mapAlias_agrees (names : AliasNameMap) (name : Str) (metricAlias : Int) :
    (mapAlias names name metricAlias).2 = true ↔ ∀ old, names.get? metricAlias = some old → old = name := by
  rw [mapAlias]
  cases hget : names.get? metricAlias with
  | none => exact ⟨fun _ old h => (by cases h), fun _ => rfl⟩
  | some old =>
      refine ⟨fun h old' hold => ?_, fun h => decide_eq_true (h old rfl)⟩
      cases hold
      exact of_decide_eq_true h

/-- A part of the wrapper that is only reached under a condition. -/
theorem reached_ok {p : Prop} [Decidable p] {x : Assigned} {header : Header} :
    (∃ h, (if p then x else .error header) = .ok h) ↔ p ∧ ∃ h, x = .ok h := by
  split
  · next hp => exact ⟨fun h => ⟨hp, h⟩, fun h => h.2⟩
  · next hp => exact ⟨fun ⟨_, h⟩ => (by cases h), fun h => absurd h.1 hp⟩

theorem getMetricWrapper_ok (names : AliasNameMap) (call : Call) (timestamp : Int) :
    (∃ h, (getMetricWrapper names call timestamp).2 = .ok h) ↔
      Named names call.name call.metricAlias ∧ Fits 64 timestamp := by
  have htimestamp : ∀ header, (∃ h, setTimestamp timestamp header = .ok h) ↔ Fits 64 timestamp := fun _ => guarded_ok
  have halias : ∀ metricAlias header, (∃ h, setAlias metricAlias header = .ok h) ↔ Fits 64 metricAlias :=
    fun _ _ => guarded_ok
  have hname : ∀ name header, (∃ h, setName name header = .ok h) ↔ name.all isScalar = true := fun _ _ => guarded_ok
  rw [getMetricWrapper]
  cases call.name with
  | none =>
      cases call.metricAlias with
      | none => exact ⟨fun ⟨_, h⟩ => (by cases h), fun h => h.1.elim⟩
      | some metricAlias =>
          rw [Named]
          refine reached_ok.trans ?_
          rw [then_ok htimestamp, halias]
          tauto
  | some name =>
      cases call.metricAlias with
      | none =>
          rw [Named]
          refine (then_ok htimestamp).trans ?_
          rw [hname]
      | some metricAlias =>
          rw [Named]
          refine reached_ok.trans ?_
          rw [then_ok htimestamp, then_ok (halias metricAlias), hname, mapAlias_agrees]
          tauto

section

variable (runtime : Runtime) (now : Nat) (names : AliasNameMap) (metrics : List Metric) (call : Call)

theorem addValue_raised (header : Header) :
    (addValue runtime call header).2 = true ↔
      ¬ ∀ v, call.value = some v → (setValue runtime call.datatype.toNat v).isSome := by
  rw [addValue]
  cases hvalue : call.value with
  | none => exact ⟨fun h => (by cases h), fun h => absurd (fun v hv => by cases hv) h⟩
  | some value =>
      cases hset : setValue runtime call.datatype.toNat value with
      | none =>
          refine ⟨fun _ h => ?_, fun _ => by simp only [hset]⟩
          have hsome := h value rfl
          rw [hset] at hsome
          cases hsome
      | some content =>
          refine ⟨fun h => ?_, fun h => absurd (fun v hv => ?_) h⟩
          · simp only [hset] at h
            cases h
          · cases hv
            rw [hset]
            rfl

/-- Whatever comes of it, one metric is added. -/
theorem metrics_addMetric : ∃ metric, (addMetric runtime now names metrics call).metrics = metrics ++ [metric] := by
  unfold addMetric
  dsimp only
  split
  · exact ⟨_, rfl⟩
  · exact ⟨_, rfl⟩

/-- A call raises where something about it is refused. -/
theorem raised_iff : (addMetric runtime now names metrics call).raised = true ↔ ¬ Accepted runtime now names call := by
  have hwrapper := getMetricWrapper_ok names call (call.timestamp.getD now)
  have hheader : (∃ h, ((getMetricWrapper names call (call.timestamp.getD now)).2 >>= setDatatype call.datatype) = .ok h) ↔
      (Named names call.name call.metricAlias ∧ Fits 64 (call.timestamp.getD now)) ∧ Fits 32 call.datatype :=
    (then_ok fun _ => guarded_ok).trans (and_congr_left fun _ => hwrapper)
  unfold addMetric
  dsimp only
  split
  · next header herror =>
      refine ⟨fun _ h => ?_, fun _ => rfl⟩
      obtain ⟨h, hok⟩ := hheader.mpr ⟨⟨h.named, h.timestamp⟩, h.datatype⟩
      cases herror.symm.trans hok
  · next header hok =>
      obtain ⟨⟨hnamed, htimestamp⟩, hdatatype⟩ := hheader.mp ⟨header, hok⟩
      refine (addValue_raised runtime call header).trans (not_congr ?_)
      exact ⟨fun h => ⟨hnamed, htimestamp, hdatatype, h⟩, fun h => h.value⟩

/-- A call that raises leaves the metrics as they were exactly when nothing about it is refused: it does not raise. -/
theorem unchanged_iff :
    ((addMetric runtime now names metrics call).raised = true →
      (addMetric runtime now names metrics call).metrics = metrics) ↔ Accepted runtime now names call := by
  obtain ⟨metric, hmetrics⟩ := metrics_addMetric runtime now names metrics call
  have hchanged : (addMetric runtime now names metrics call).metrics ≠ metrics := by
    rw [hmetrics]
    intro h
    exact absurd (congrArg List.length h) (by rw [List.length_append]; exact Nat.succ_ne_self _)
  rw [raised_iff]
  exact ⟨fun h => by_contra fun hrefused => hchanged (h hrefused), fun h hrefused => absurd h hrefused⟩

end

/-- A text for an `Int8`. -/
def badValue : Call := ⟨some (lit "Temperature"), 1, some (.value (.str (lit "hot"))), none, some 1000⟩

/-- The metric that was refused stays in the payload. -/
theorem bad_value_stays : ¬ ((addMetric plainRuntime 0 .empty [] badValue).raised = true →
    (addMetric plainRuntime 0 .empty [] badValue).metrics = []) := by
  intro h
  cases h rfl

end Uns.Sparkplug.MessageGenerator
