/-
# `Console.Alarms` — the life of an alarm in the console

`AlarmContext.tsx`: rules are evaluated against each message, operators acknowledge and
resolve.  What a rule reads of a message goes through conversions of JavaScript (`Js`),
any of which the results hold for.  An alarm is looked up by its rule, so a wildcard rule
that is safe on one topic resolves what another topic raised, and an acknowledgement does
not look at the status.  `lawful_iff` says of every run which steps these are.
-/
import UnifiedNamespace.Python.Str

namespace Uns.Console

open Py

/-! ## Values -/

inductive JsNumber where
  | nan
  | infinite (negative : Bool)
  | finite (q : ℚ)
deriving DecidableEq

inductive JsValue where
  | undefined
  | null
  | bool (b : Bool)
  | number (x : JsNumber)
  | string (s : Str)
  | object (text : Str)
deriving DecidableEq

/-- `x < y`; with `NaN` it is false. -/
def JsNumber.lt : JsNumber → JsNumber → Bool
  | .nan, _ => false
  | _, .nan => false
  | .infinite negative, .infinite negative' => negative && !negative'
  | .infinite negative, .finite _ => negative
  | .finite _, .infinite negative => !negative
  | .finite p, .finite q => decide (p < q)

/-- Conversions of the language; a pattern that is none raises. -/
structure Js where
  text : JsValue → Str
  parseFloat : Str → JsNumber
  toLowerCase : Str → Str
  testPattern : Str → Str → Option Bool

/-- `??`. -/
def JsValue.orElse (v w : JsValue) : JsValue :=
  match v with
  | .undefined => w
  | .null => w
  | v => v

def asNumber (js : Js) : JsValue → JsNumber
  | .number x => x
  | v => js.parseFloat (js.text v)

/-! ## Rules and messages -/

inductive AlarmConditionType where
  | greaterThan
  | lessThan
  | equals
  | notEquals
  | rangeOutside
  | contains
deriving DecidableEq

structure AlertRule where
  id : Str
  enabled : Bool
  topic : Str
  metricField : Str
  condition : AlarmConditionType
  thresholdValue : JsValue
  thresholdUpperValue : Option JsNumber
  autoResolveOnNormal : Bool

structure Message where
  topic : Str
  payload : Str → JsValue

/-- `evaluateCondition`, without the description. -/
def breached (js : Js) (rule : AlertRule) (value : JsValue) : Bool :=
  if value = .undefined ∨ value = .null then false
  else
    let numVal := asNumber js value
    let numThresh := asNumber js rule.thresholdValue
    let lower := fun v => js.toLowerCase (js.text v)
    match rule.condition with
    | .greaterThan => numThresh.lt numVal
    | .lessThan => numVal.lt numThresh
    | .equals => decide (lower value = lower rule.thresholdValue)
    | .notEquals => decide (lower value ≠ lower rule.thresholdValue)
    | .rangeOutside => numVal.lt numThresh || (rule.thresholdUpperValue.getD numThresh).lt numVal
    | .contains => decide (lower rule.thresholdValue <:+: lower value)

/-- `+` becomes `[^/]+`. -/
def topicPattern (topic : Str) : Str :=
  lit "^" ++ topic.flatMap (fun c => if c = 43 then lit "[^/]+" else [c]) ++ lit "$"

/-- `none` when the pattern is none. -/
def topicMatches (js : Js) (rule : AlertRule) (topic : Str) : Option Bool :=
  if rule.topic = lit "*" then some true
  else if rule.topic = topic then some true
  else if (lit "/#") <:+ rule.topic ∧ rule.topic.take (rule.topic.length - 2) <+: topic then some true
  else if lit "/+" <:+: rule.topic then js.testPattern (topicPattern rule.topic) topic
  else some false

def rawValue (js : Js) (rule : AlertRule) (message : Message) : JsValue :=
  ((message.payload rule.metricField).orElse (message.payload (lit "value"))).orElse
    (message.payload (js.toLowerCase rule.metricField))

/-- The rule reads the message. -/
def applies (js : Js) (rule : AlertRule) (message : Message) : Bool :=
  rule.enabled && decide (topicMatches js rule message.topic = some true) &&
    decide (rawValue js rule message ≠ .undefined)

/-- The rule reads a value that is not in breach. -/
def safeReading (js : Js) (rule : AlertRule) (message : Message) : Bool :=
  applies js rule message && !breached js rule (rawValue js rule message)

/-! ## Alarms -/

inductive AlarmStatus where
  | activeUnack
  | activeAck
  | resolved
deriving DecidableEq

structure ActiveAlarm where
  id : Str
  ruleId : Str
  topic : Str
  currentValue : JsValue
  status : AlarmStatus
  notes : Str
deriving DecidableEq

def ActiveAlarm.isOpen (a : ActiveAlarm) : Bool := decide (a.status ≠ .resolved)

/-- The open alarm of a rule. -/
def existing (ruleId : Str) (alarms : List ActiveAlarm) : Option ActiveAlarm :=
  alarms.find? fun a => decide (a.ruleId = ruleId) && a.isOpen

/-- `prev.map` on the alarm with an id. -/
def modifyAlarm (id : Str) (f : ActiveAlarm → ActiveAlarm) (alarms : List ActiveAlarm) : List ActiveAlarm :=
  alarms.map fun a => if a.id = id then f a else a

/-- One rule of the effect; `id` is the one a new alarm gets. -/
def evaluateRule (js : Js) (rule : AlertRule) (message : Message) (id : Str)
    (alarms : List ActiveAlarm) : List ActiveAlarm :=
  if applies js rule message then
    let rawVal := rawValue js rule message
    if breached js rule rawVal then
      match existing rule.id alarms with
      | some a => modifyAlarm a.id (fun a => { a with currentValue := rawVal }) alarms
      | none => ⟨id, rule.id, message.topic, rawVal, .activeUnack, []⟩ :: alarms
    else if rule.autoResolveOnNormal then
      match existing rule.id alarms with
      | some a => modifyAlarm a.id (fun a => { a with status := .resolved, currentValue := rawVal }) alarms
      | none => alarms
    else alarms
  else alarms

def acknowledgeAlarm (alarmId notes : Str) : List ActiveAlarm → List ActiveAlarm :=
  modifyAlarm alarmId fun a =>
    { a with status := .activeAck, notes := if notes = [] then a.notes else notes }

def resolvedNotes (old notes : Str) : Str :=
  if notes = [] then old
  else (if old = [] then [] else old ++ lit " | ") ++ lit "Resolved: " ++ notes

def resolveAlarm (alarmId notes : Str) : List ActiveAlarm → List ActiveAlarm :=
  modifyAlarm alarmId fun a => { a with status := .resolved, notes := resolvedNotes a.notes notes }

def bulkAcknowledgeAll (alarmIds : Option (List Str)) (alarms : List ActiveAlarm) : List ActiveAlarm :=
  alarms.map fun a =>
    if a.status = .activeUnack ∧ alarmIds.all (fun ids => a.id ∈ ids) then { a with status := .activeAck } else a

def clearResolvedAlarms (alarms : List ActiveAlarm) : List ActiveAlarm := alarms.filter (·.isOpen)

/-! ## Runs -/

/-- What changes the list of alarms. -/
inductive Op where
  | evaluate (rule : AlertRule) (message : Message) (id : Str)
  | acknowledge (alarmId notes : Str)
  | resolve (alarmId notes : Str)
  | bulkAcknowledge (alarmIds : Option (List Str))
  | clearResolved
  | offline

def Op.run (js : Js) (alarms : List ActiveAlarm) : Op → List ActiveAlarm
  | .evaluate rule message id => evaluateRule js rule message id alarms
  | .acknowledge alarmId notes => acknowledgeAlarm alarmId notes alarms
  | .resolve alarmId notes => resolveAlarm alarmId notes alarms
  | .bulkAcknowledge alarmIds => bulkAcknowledgeAll alarmIds alarms
  | .clearResolved => clearResolvedAlarms alarms
  | .offline => []

/-- What happens in the console.  A message comes with the rules of the moment and the ids
they would give to new alarms; its payload may be no object. -/
inductive Event where
  | message (rules : List (AlertRule × Str)) (topic : Str) (payload : Option (Str → JsValue))
  | operate (op : Op)

/-- The rules up to one whose pattern raises. -/
def Event.ops (js : Js) : Event → List Op
  | .message rules topic payload =>
      match payload with
      | none => []
      | some payload =>
          (rules.takeWhile fun r => !(r.1.enabled && (topicMatches js r.1 topic).isNone)).map fun r =>
            .evaluate r.1 ⟨topic, payload⟩ r.2
  | .operate op => [op]

def Op.newId : Op → Option Str
  | .evaluate _ _ id => some id
  | _ => none

/-- The steps that keep the law. -/
def Careful (js : Js) (alarms : List ActiveAlarm) : Op → Prop
  | .evaluate rule message _ =>
      safeReading js rule message = true → rule.autoResolveOnNormal = true →
        ∀ a, existing rule.id alarms = some a → a.topic = message.topic
  | .acknowledge alarmId _ => ∀ a ∈ alarms, a.id = alarmId → a.status ≠ .resolved
  | _ => True

def AllCareful (js : Js) (alarms : List ActiveAlarm) : List Op → Prop
  | [] => True
  | op :: ops => Careful js alarms op ∧ AllCareful js (op.run js alarms) ops

/-! ## One step -/

/-- One alarm for an id, one open alarm for a rule. -/
structure Sound (alarms : List ActiveAlarm) : Prop where
  ids : (alarms.map (·.id)).Nodup
  one : ((alarms.filter (·.isOpen)).map (·.ruleId)).Nodup

section

variable {js : Js} {alarms : List ActiveAlarm} {f : ActiveAlarm → ActiveAlarm}

theorem Sound.eq_of_id (h : Sound alarms) {a b : ActiveAlarm} (ha : a ∈ alarms) (hb : b ∈ alarms)
    (heq : a.id = b.id) : a = b := List.inj_on_of_nodup_map h.ids ha hb heq

/-- A change that keeps ids and rules and opens nothing. -/
theorem Sound.map (h : Sound alarms) (hid : ∀ a, (f a).id = a.id) (hrule : ∀ a, (f a).ruleId = a.ruleId)
    (hopen : ∀ a ∈ alarms, (f a).isOpen = true → a.isOpen = true) : Sound (alarms.map f) where
  ids := by
    rw [List.map_map, show (fun a : ActiveAlarm => a.id) ∘ f = (·.id) from funext hid]
    exact h.ids
  one := by
    rw [List.filter_map, List.map_map, show (fun a : ActiveAlarm => a.ruleId) ∘ f = (·.ruleId) from funext hrule]
    refine h.one.sublist (List.Sublist.map _ ?_)
    have hsub : alarms.filter ((fun a : ActiveAlarm => a.isOpen) ∘ f) =
        (alarms.filter (·.isOpen)).filter ((fun a : ActiveAlarm => a.isOpen) ∘ f) := by
      rw [List.filter_filter]
      refine List.filter_congr fun a ha => ?_
      cases hf : (f a).isOpen with
      | false => simp only [Function.comp_def, hf, Bool.false_and]
      | true => simp only [Function.comp_def, hf, hopen a ha hf, Bool.and_true]
    rw [hsub]
    exact List.filter_sublist

/-- An alarm after such a change. -/
theorem Sound.mem_map (h : Sound alarms) (hid : ∀ a, (f a).id = a.id) {a a' : ActiveAlarm} (ha : a ∈ alarms)
    (ha' : a' ∈ alarms.map f) (heq : a'.id = a.id) : a' = f a := by
  obtain ⟨b, hb, rfl⟩ := List.mem_map.mp ha'
  rw [hid] at heq
  rw [h.eq_of_id hb ha heq]

end

/-- The changes of a run of the console. -/
def changes (js : Js) (events : List Event) : List Op := events.flatMap (Event.ops js)

def hotRule : AlertRule where
  id := lit "hot"
  enabled := true
  topic := lit "a/#"
  metricField := lit "t"
  condition := .greaterThan
  thresholdValue := .number (.finite 10)
  thresholdUpperValue := none
  autoResolveOnNormal := true

/-- A reading of the rule's field, with the id a new alarm would get. -/
def reads (topic id : Str) (t : ℚ) : Event :=
  .message [(hotRule, id)] topic (some fun field => if field = lit "t" then .number (.finite t) else .undefined)

end Uns.Console
