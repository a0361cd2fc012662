/-
# `Graphql.AlertRules` — the writes of the console's Alert Rules

`mutations/alert_rule.py` over `uns_model/alert_rules.py`.  A caller sends requests one
after another, and each is a few transactions on the stored rules.  What the database
refuses is a parameter, and a request says how many of its transactions are committed,
so a request may stop anywhere.

Three of the five mutations look at the topic of the stored rule, and the two that save
look at the submitted one only, before an upsert by id.  `Console.Spares` is what keeps
the rules outside a caller's Access Groups as they are (`outside_rules_kept_iff`).
-/
import UnifiedNamespace.Graphql.Scope
import UnifiedNamespace.Lib.Dict
import UnifiedNamespace.Python.Json

namespace Uns.Graphql

open Py Lib Model

/-! ## Rules -/

def alertSeverities : List Str := [lit "CRITICAL", lit "HIGH", lit "WARNING", lit "INFO"]

def alertCategories : List Str :=
  [lit "TEMPERATURE", lit "PRESSURE", lit "VIBRATION", lit "FLOW_RATE", lit "STALE_TIMEOUT",
    lit "NODE_OFFLINE", lit "COMMUNICATION", lit "THRESHOLD", lit "SAFETY", lit "CUSTOM"]

def alertConditions : List Str :=
  [lit "GREATER_THAN", lit "LESS_THAN", lit "EQUALS", lit "NOT_EQUALS", lit "RANGE_OUTSIDE",
    lit "STALE_TIMEOUT", lit "CONTAINS"]

def consoleRoles : List Str :=
  [lit "admin", lit "engineer", lit "operator", lit "auditor", lit "viewer"]

structure AlertRuleSpec where
  id : Str
  name : Str
  severity : Str
  category : Str
  topic : Str
  metricField : Str
  condition : Str
  thresholdValue : Json
  description : Str
  enabled : Bool
  thresholdUpperValue : Option PyFloat
  unit : Option Str
  delaySeconds : ℤ
  escalationRole : Option Str
  escalationTimeoutMinutes : Option ℤ
  autoResolveOnNormal : Bool
  inAppNotification : Bool
  audioChime : Bool
  mqttPublishOnTrigger : Bool
  mqttAlarmTopic : Option Str
  emailWebhook : Bool
  webhookUrl : Option Str
  roles : List Str

/-- `validate` does not raise. -/
def AlertRuleSpec.isValid (spec : AlertRuleSpec) : Bool :=
  !spec.id.isEmpty && !spec.name.isEmpty && !spec.topic.isEmpty &&
    decide (spec.severity ∈ alertSeverities) && decide (spec.category ∈ alertCategories) &&
    decide (spec.condition ∈ alertConditions) &&
    spec.escalationRole.all (fun role => decide (role ∈ consoleRoles)) &&
    spec.roles.all (fun role => decide (role ∈ consoleRoles)) &&
    decide (0 ≤ spec.delaySeconds) &&
    spec.escalationTimeoutMinutes.all (fun minutes => decide (1 ≤ minutes)) &&
    !(decide (spec.condition = lit "RANGE_OUTSIDE") && spec.thresholdUpperValue.isNone)

/-- A stored rule; `roles` are its rows of `alert_rule_roles`. -/
structure AlertRule extends AlertRuleSpec where
  triggerCount : Nat
  lastTriggeredAt : Option ℤ
  lastEvaluatedAt : Option ℤ
  createdAt : ℤ
  updatedAt : ℤ

abbrev AlertRules := Dict Str AlertRule

/-- A rule as it is first stored. -/
def AlertRuleSpec.created (spec : AlertRuleSpec) (now : ℤ) : AlertRule where
  toAlertRuleSpec := { spec with roles := spec.roles.dedup }
  triggerCount := 0
  lastTriggeredAt := none
  lastEvaluatedAt := none
  createdAt := now
  updatedAt := now

/-- The upsert of `save_rule` on the stored rule, and the roles replaced. -/
def AlertRuleSpec.replaced (spec : AlertRuleSpec) (now : ℤ) (stored : AlertRule) : AlertRule :=
  { stored with
    toAlertRuleSpec := { spec with roles := spec.roles.dedup }
    updatedAt := now }

def saveRule (now : ℤ) (rules : AlertRules) (spec : AlertRuleSpec) : AlertRules :=
  match rules.get? spec.id with
  | none => rules.update spec.id (spec.created now) id
  | some _ => rules.update spec.id (spec.created now) (spec.replaced now)

def setEnabled (enabled : Bool) (now : ℤ) (rule : AlertRule) : AlertRule :=
  { rule with enabled := enabled, updatedAt := now }

/-- `updated_at` has an `onupdate`. -/
def recordEvaluation (triggered : Bool) (now : ℤ) (rule : AlertRule) : AlertRule :=
  { rule with
    lastEvaluatedAt := some now
    lastTriggeredAt := if triggered then some now else rule.lastTriggeredAt
    triggerCount := if triggered then rule.triggerCount + 1 else rule.triggerCount
    updatedAt := now }

/-! ## Requests -/

inductive AlertCall where
  | saveAlertRule (rule : AlertRuleSpec)
  | saveAlertRules (rules : List AlertRuleSpec)
  | deleteAlertRule (id : Str)
  | setAlertRuleEnabled (id : Str) (enabled : Bool)
  | recordAlertRuleEvaluation (id : Str) (triggered : Bool)

/-- `MUTATION_ROLES`. -/
def AlertCall.mutationRoles : AlertCall → List Str
  | .saveAlertRule _ => [lit "engineer", lit "admin"]
  | .saveAlertRules _ => [lit "engineer", lit "admin"]
  | .deleteAlertRule _ => [lit "engineer", lit "admin"]
  | .setAlertRuleEnabled _ _ => [lit "operator", lit "engineer", lit "admin"]
  | .recordAlertRuleEvaluation _ _ => consoleRoles

/-- A call, when it is made, and how many of its transactions are committed. -/
structure AlertRequest where
  call : AlertCall
  now : ℤ
  committed : Nat

/-- Who calls, and what the answers depend on: the Access Groups, the plant, and what the database
refuses. -/
structure Console where
  caller : Option Identity
  rootsFor : Str → List Str
  bindings : TopicBindings
  refusesRule : AlertRuleSpec → Bool
  refusesCount : Nat → Bool

/-- `require` does not raise. -/
def Console.permits (C : Console) (call : AlertCall) : Bool :=
  C.caller.any fun identity => identity.hasAny call.mutationRoles

/-- `_require_visible_topic` does not raise. -/
def Console.allowed (C : Console) (topic : Str) : Bool :=
  allowedTopic (scopeFor C.caller C.rootsFor) C.bindings topic

/-- The specs that `save_rules` stores, up to the first one that raises. -/
def Console.stored (C : Console) (committed : Nat) (specs : List AlertRuleSpec) : List AlertRuleSpec :=
  (specs.takeWhile fun spec => spec.isValid && !C.refusesRule spec).take committed

/-- The stored rule, when there is one on a topic that the caller sees. -/
def Console.existing (C : Console) (rules : AlertRules) (id : Str) : Option AlertRule :=
  (rules.get? id).filter fun rule => C.allowed rule.topic

/-- The specs that a permitted call saves. -/
def Console.saves (C : Console) (request : AlertRequest) : List AlertRuleSpec :=
  match request.call with
  | .saveAlertRule rule =>
      if C.permits request.call && C.allowed rule.topic then C.stored request.committed [rule] else []
  | .saveAlertRules rules =>
      if C.permits request.call && rules.all (fun rule => C.allowed rule.topic) then
        C.stored request.committed rules
      else []
  | _ => []

/-- One request; a mutation that raises leaves the rules as they are. -/
def Console.next (C : Console) (rules : AlertRules) (request : AlertRequest) : AlertRules :=
  match request.call with
  | .saveAlertRule _ => (C.saves request).foldl (saveRule request.now) rules
  | .saveAlertRules _ => (C.saves request).foldl (saveRule request.now) rules
  | .deleteAlertRule id =>
      match C.existing rules id with
      | some _ => if C.permits request.call && decide (0 < request.committed) then rules.erase id else rules
      | none => rules
  | .setAlertRuleEnabled id enabled =>
      match C.existing rules id with
      | some rule =>
          if C.permits request.call && decide (0 < request.committed) then
            rules.update id rule (setEnabled enabled request.now)
          else rules
      | none => rules
  | .recordAlertRuleEvaluation id triggered =>
      match C.existing rules id with
      | some rule =>
          if C.permits request.call && decide (0 < request.committed) &&
              !(triggered && C.refusesCount (rule.triggerCount + 1)) then
            rules.update id rule (recordEvaluation triggered request.now)
          else rules
      | none => rules

def Console.run (C : Console) (rules : AlertRules) (requests : List AlertRequest) : AlertRules :=
  requests.foldl C.next rules

/-! ## The rules outside the scope -/

/-- The stored rules on topics that the caller does not see are stored unchanged. -/
def Console.KeepsOutside (C : Console) (rules rules' : AlertRules) : Prop :=
  ∀ id rule, rules.get? id = some rule → C.allowed rule.topic = false → rules'.get? id = some rule

/-- No rule that the call saves has the id of a stored rule on a topic that the caller does not see. -/
def Console.Spares (C : Console) (rules : AlertRules) (request : AlertRequest) : Prop :=
  ∀ spec ∈ C.saves request, ∀ rule, rules.get? spec.id = some rule → C.allowed rule.topic = true

/-- Each request in turn spares the rules stored then. -/
def Console.SparesAll (C : Console) : AlertRules → List AlertRequest → Prop
  | _, [] => True
  | rules, request :: requests => C.Spares rules request ∧ C.SparesAll (C.next rules request) requests

section Outside

variable {C : Console} {rules : AlertRules}

theorem get?_saveRule (now : ℤ) (rules : AlertRules) (spec : AlertRuleSpec) :
    (∃ rule, (saveRule now rules spec).get? spec.id = some rule ∧ rule.topic = spec.topic) ∧
      ∀ id, id ≠ spec.id → (saveRule now rules spec).get? id = rules.get? id := by
  rw [saveRule]
  split
  · rename_i hnone
    refine ⟨⟨spec.created now, ?_, rfl⟩, fun id hid => Dict.get?_update_ne _ _ _ hid⟩
    rw [Dict.get?_update_self, hnone]
    rfl
  · rename_i stored hstored
    refine ⟨⟨spec.replaced now stored, ?_, rfl⟩, fun id hid => Dict.get?_update_ne _ _ _ hid⟩
    rw [Dict.get?_update_self, hstored]
    rfl

/-- Saved rules are on the topics submitted, and the other rules as before. -/
theorem get?_saves (now : ℤ) (specs : List AlertRuleSpec) (rules : AlertRules) :
    (∀ id, id ∉ specs.map (·.id) → (specs.foldl (saveRule now) rules).get? id = rules.get? id) ∧
      ∀ id ∈ specs.map (·.id), ∃ rule spec, (specs.foldl (saveRule now) rules).get? id = some rule ∧
        spec ∈ specs ∧ rule.topic = spec.topic := by
  induction specs generalizing rules with
  | nil => exact ⟨fun _ _ => rfl, fun _ hid => nomatch hid⟩
  | cons spec specs ih =>
      obtain ⟨hothers, hsaved⟩ := ih (saveRule now rules spec)
      obtain ⟨⟨rule, hrule, htopic⟩, hkept⟩ := get?_saveRule now rules spec
      refine ⟨?_, ?_⟩
      · intro id hid
        rw [List.map_cons, List.mem_cons, not_or] at hid
        rw [List.foldl_cons, hothers id hid.2, hkept id hid.1]
      · intro id hid
        rw [List.foldl_cons]
        by_cases hlater : id ∈ specs.map (·.id)
        · obtain ⟨rule, q, hrule, hq, htopic⟩ := hsaved id hlater
          exact ⟨rule, q, hrule, List.mem_cons_of_mem _ hq, htopic⟩
        · rw [List.map_cons, List.mem_cons] at hid
          obtain rfl := hid.resolve_right hlater
          rw [hothers _ hlater]
          exact ⟨rule, spec, hrule, List.mem_cons_self, htopic⟩

/-- A call saves rules on topics that the caller sees. -/
theorem allowed_of_saves {request : AlertRequest} {spec : AlertRuleSpec} (h : spec ∈ C.saves request) :
    C.allowed spec.topic = true := by
  have hmem : ∀ {specs}, spec ∈ C.stored request.committed specs → spec ∈ specs := by
    intro specs hspec
    exact (List.takeWhile_sublist _).subset (List.mem_of_mem_take hspec)
  rw [Console.saves] at h
  split at h
  · split at h
    · rename_i rule hcall hok
      obtain rfl := List.mem_singleton.mp (hmem h)
      exact (Bool.and_eq_true _ _ ▸ hok).2
    · cases h
  · split at h
    · rename_i specs hcall hok
      rw [Bool.and_eq_true, List.all_eq_true] at hok
      exact hok.2 spec (hmem h)
    · cases h
  · cases h

theorem existing_eq_some {id : Str} {rule : AlertRule} (h : C.existing rules id = some rule) :
    rules.get? id = some rule ∧ C.allowed rule.topic = true := Option.filter_eq_some_iff.mp h

/-- What a request leaves of the rules: it changes what it saves, or one rule on a topic the caller
sees, which stays on it. -/
theorem next_cases (C : Console) (rules : AlertRules) (request : AlertRequest) :
    C.next rules request = (C.saves request).foldl (saveRule request.now) rules ∨
      C.saves request = [] ∧ ∃ id rule, rules.get? id = some rule ∧ C.allowed rule.topic = true ∧
        (∀ j, j ≠ id → (C.next rules request).get? j = rules.get? j) ∧
        ∀ rule', (C.next rules request).get? id = some rule' → rule'.topic = rule.topic := by
  have hchanged : ∀ {id rule} {f : AlertRule → AlertRule}, C.existing rules id = some rule →
      (f rule).topic = rule.topic → ∀ rules', rules' = rules.update id rule f →
      rules.get? id = some rule ∧ C.allowed rule.topic = true ∧
        (∀ j, j ≠ id → rules'.get? j = rules.get? j) ∧
        ∀ rule', rules'.get? id = some rule' → rule'.topic = rule.topic := by
    rintro id rule f hexisting htopic rules' rfl
    obtain ⟨hget, hallowed⟩ := existing_eq_some hexisting
    refine ⟨hget, hallowed, fun j hj => Dict.get?_update_ne _ _ _ hj, ?_⟩
    intro rule' hrule'
    rw [Dict.get?_update_self, hget] at hrule'
    cases hrule'
    exact htopic
  obtain ⟨call, now, committed⟩ := request
  cases call with
  | saveAlertRule rule => exact .inl rfl
  | saveAlertRules specs => exact .inl rfl
  | deleteAlertRule id =>
      simp only [Console.next]
      split
      · rename_i rule hexisting
        split
        · obtain ⟨hget, hallowed⟩ := existing_eq_some hexisting
          refine .inr ⟨rfl, id, rule, hget, hallowed, fun j hj => Dict.get?_erase_ne _ hj, ?_⟩
          intro rule' hrule'
          rw [Dict.get?_erase_self] at hrule'
          cases hrule'
        · exact .inl rfl
      · exact .inl rfl
  | setAlertRuleEnabled id enabled =>
      simp only [Console.next]
      split
      · rename_i rule hexisting
        split
        · exact .inr ⟨rfl, id, rule, hchanged hexisting rfl _ rfl⟩
        · exact .inl rfl
      · exact .inl rfl
  | recordAlertRuleEvaluation id triggered =>
      simp only [Console.next]
      split
      · rename_i rule hexisting
        split
        · exact .inr ⟨rfl, id, rule, hchanged hexisting rfl _ rfl⟩
        · exact .inl rfl
      · exact .inl rfl

/-- No rule comes to be outside the scope. -/
theorem outside_of_next {request : AlertRequest} {id : Str} {rule : AlertRule}
    (h : (C.next rules request).get? id = some rule) (houtside : C.allowed rule.topic = false) :
    rules.get? id = some rule := by
  rcases next_cases C rules request with hsaves | ⟨-, j, seen, -, hseen, hothers, htopic⟩
  · obtain ⟨hothers, hsaved⟩ := get?_saves request.now (C.saves request) rules
    rw [hsaves] at h
    by_cases hid : id ∈ (C.saves request).map (·.id)
    · obtain ⟨rule', spec, hrule', hspec, htopic⟩ := hsaved id hid
      rw [h] at hrule'
      cases hrule'
      rw [htopic, allowed_of_saves hspec] at houtside
      cases houtside
    · rw [← hothers id hid]
      exact h
  · by_cases hid : id = j
    · subst hid
      rw [htopic rule h, hseen] at houtside
      cases houtside
    · rw [← hothers id hid]
      exact h

/-- A request keeps the rules outside the scope exactly when it spares them. -/
theorem keepsOutside_next_iff {request : AlertRequest} :
    C.KeepsOutside rules (C.next rules request) ↔ C.Spares rules request := by
  rcases next_cases C rules request with hsaves | ⟨hnone, j, seen, hseen, hallowed, hothers, -⟩
  · obtain ⟨hothers, hsaved⟩ := get?_saves request.now (C.saves request) rules
    rw [hsaves]
    constructor
    · intro hkeeps spec hspec rule hrule
      by_contra houtside
      rw [Bool.not_eq_true] at houtside
      obtain ⟨rule', q, hrule', hq, htopic⟩ := hsaved spec.id (List.mem_map_of_mem hspec)
      rw [hkeeps spec.id rule hrule houtside] at hrule'
      cases hrule'
      rw [htopic, allowed_of_saves hq] at houtside
      cases houtside
    · intro hspares id rule hrule houtside
      have hid : id ∉ (C.saves request).map (·.id) := by
        intro hid
        obtain ⟨spec, hspec, rfl⟩ := List.mem_map.mp hid
        rw [hspares spec hspec rule hrule] at houtside
        cases houtside
      rw [hothers id hid]
      exact hrule
  · refine ⟨fun _ => ?_, fun _ => ?_⟩
    · rw [Console.Spares, hnone]
      exact fun _ hspec => nomatch hspec
    · intro id rule hrule houtside
      have hid : id ≠ j := by
        rintro rfl
        rw [hseen] at hrule
        cases hrule
        rw [hallowed] at houtside
        cases houtside
      rw [hothers id hid]
      exact hrule

theorem outside_of_run {requests : List AlertRequest} {id : Str} {rule : AlertRule}
    (h : (C.run rules requests).get? id = some rule) (houtside : C.allowed rule.topic = false) :
    rules.get? id = some rule := by
  induction requests generalizing rules with
  | nil => exact h
  | cons request requests ih => exact outside_of_next (ih h) houtside

end Outside

/-- After any requests of a caller the rules outside its Access Groups are stored unchanged exactly
when each request in turn spares them. -/
theorem outside_rules_kept_iff (C : Console) (rules : AlertRules) (requests : List AlertRequest) :
    C.KeepsOutside rules (C.run rules requests) ↔ C.SparesAll rules requests := by
  induction requests generalizing rules with
  | nil => exact ⟨fun _ => trivial, fun _ _ _ hrule _ => hrule⟩
  | cons request requests ih =>
      rw [Console.SparesAll, ← keepsOutside_next_iff, ← ih (C.next rules request)]
      constructor
      · intro hkeeps
        have hfirst : C.KeepsOutside rules (C.next rules request) := by
          intro id rule hrule houtside
          exact outside_of_run (hkeeps id rule hrule houtside) houtside
        refine ⟨hfirst, ?_⟩
        intro id rule hrule houtside
        exact hkeeps id rule (outside_of_next hrule houtside) houtside
      · rintro ⟨hfirst, hrest⟩ id rule hrule houtside
        exact hrest id rule (hfirst id rule hrule houtside) houtside

def pressArea : Str := lit "Enterprise/Site/Press"

def paintArea : Str := lit "Enterprise/Site/Paint"

/-- An engineer of the press area, in a plant of two areas. -/
def pressConsole : Console where
  caller := some ⟨lit "engineer.user", [lit "engineer"]⟩
  rootsFor _ := [pressArea]
  bindings := ⟨fun topic => [pressArea, paintArea].find? (covers topic), fun _ => none⟩
  refusesRule _ := false
  refusesCount _ := false

def sampleRule (id topic : Str) : AlertRuleSpec where
  id := id
  name := lit "Too hot"
  severity := lit "HIGH"
  category := lit "TEMPERATURE"
  topic := topic
  metricField := lit "value"
  condition := lit "GREATER_THAN"
  thresholdValue := .int 80
  description := []
  enabled := true
  thresholdUpperValue := none
  unit := none
  delaySeconds := 0
  escalationRole := none
  escalationTimeoutMinutes := none
  autoResolveOnNormal := true
  inAppNotification := true
  audioChime := true
  mqttPublishOnTrigger := false
  mqttAlarmTopic := none
  emailWebhook := false
  webhookUrl := none
  roles := []

/-- A rule on a topic of the paint area. -/
def paintRules : AlertRules := saveRule 0 .empty (sampleRule (lit "rule-1") paintArea)

/-- The engineer saves a rule of its own area under the id of that rule. -/
theorem outside_rule_overwritten : ¬ ∀ (C : Console) (rules : AlertRules) (requests : List AlertRequest),
    (scopeFor C.caller C.rootsFor).unrestricted = false → C.KeepsOutside rules (C.run rules requests) := by
  intro h
  have hkeeps := h pressConsole paintRules
    [⟨.saveAlertRule (sampleRule (lit "rule-1") pressArea), 1, 1⟩] (by decide)
  have htopic : ((pressConsole.run paintRules [⟨.saveAlertRule (sampleRule (lit "rule-1") pressArea), 1, 1⟩]).get?
      (lit "rule-1")).map (·.topic) = some pressArea := by decide +kernel
  rw [hkeeps (lit "rule-1") ((sampleRule (lit "rule-1") paintArea).created 0) rfl (by decide +kernel)] at htopic
  exact absurd htopic (by decide)

end Uns.Graphql
