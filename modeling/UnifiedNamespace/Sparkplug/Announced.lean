/-
# `Sparkplug.Announced` — what a birth announces is what is published

What the mapper is for: the metrics that can be named are published under their names, and
an alias stands for the name the latest birth of its device announced with it, until that
device dies (`publishedNames`).  The code keeps to this in a run whose messages can be named
throughout and announce their names (`published_as_announced`); in other runs a metric
without a slash in its name, or with an alias nobody announced, takes the rest of its
payload with it, and a name that is not announced is saved all the same, under alias 0 when
the metric has none.
-/
import UnifiedNamespace.Sparkplug.UnsMapper

namespace Uns.Sparkplug

open Py Lib Model

/-! ## Announcements -/

/-- The names of the aliases of one device. -/
abbrev Names := Nat → Option Str

def noNames : Names := fun _ => none

/-- The names by group, node and device. -/
abbrev Announced := Str × Str × Str → Names

def SpbTopic.device (t : SpbTopic) : Str × Str × Str := (t.groupId, t.edgeNodeId, t.deviceId)

def isBirth (messageType : Str) : Bool := decide (messageType ∈ [lit "NBIRTH", lit "DBIRTH"])

def isDeath (messageType : Str) : Bool := decide (messageType ∈ [lit "NDEATH", lit "DDEATH"])

/-- A metric of a birth announces its name for its alias. -/
def announceMetric (names : Names) (h : Header) : Names :=
  match h.metricAlias with
  | none => names
  | some metricAlias => if h.text = [] then names else Function.update names metricAlias.toNat (some h.text)

/-- The names after a metric, which announces one only in a birth. -/
def namesAfter (birth : Bool) (names : Names) (h : Header) : Names := if birth then announceMetric names h else names

/-- What is announced after a message. -/
def announce (announced : Announced) (msg : SpbMessage) : Announced :=
  match parseSpbTopic msg.topic with
  | none => announced
  | some t =>
      if isDeath t.messageType then Function.update announced t.device noNames
      else if isBirth t.messageType then
        Function.update announced t.device
          ((msg.payload.getD []).foldl (fun names metric => announceMetric names metric.header) noNames)
      else announced

/-- The name of a metric that can be published: its own, or that of the alias it has. -/
def resolvable? (names : Names) (h : Header) : Option Str :=
  (if h.text = [] then h.metricAlias.bind fun metricAlias => names metricAlias.toNat else some h.text).filter
    fun name => decide (separator ∈ name)

/-- The metrics that can be named, collated; the others are passed over. -/
def collate (birth : Bool) (spbContext : SpbContext) : Names → UnsMessages → List Metric → Option UnsMessages
  | _, messages, [] => some messages
  | names, messages, metric :: metrics =>
      match resolvable? (namesAfter birth names metric.header) metric.header with
      | none => collate birth spbContext (namesAfter birth names metric.header) messages metrics
      | some name => (addMetric spbContext messages name metric).bind fun messages =>
          collate birth spbContext (namesAfter birth names metric.header) messages metrics

/-- The names a message of a type starts with. -/
def startNames (announced : Announced) (t : SpbTopic) : Names :=
  if clearsFirst t.messageType then noNames else announced t.device

/-- What is to be published. -/
def publishedNames (announced : Announced) (msg : SpbMessage) : List (Str × UnsMessage) :=
  match parseSpbTopic msg.topic with
  | none => []
  | some t =>
      if clearsFirst t.messageType || isData t.messageType then
        match msg.payload with
        | none => []
        | some metrics => ((collate (isBirth t.messageType) t.spbContext (startNames announced t) .empty metrics).map
            (publishToUns msg.connected)).getD []
      else []

/-! ## Messages that announce their names -/

/-- Every metric can be named at its turn, and a name that comes with a metric is announced for
the alias the metric reads as having. -/
def Speaks (birth : Bool) : Names → List Metric → Prop
  | _, [] => True
  | names, metric :: metrics =>
      (resolvable? (namesAfter birth names metric.header) metric.header).isSome = true ∧
        (metric.header.text ≠ [] →
          namesAfter birth names metric.header metric.header.aliasOrZero = some metric.header.text) ∧
        Speaks birth (namesAfter birth names metric.header) metrics

/-- The message speaks, and a birth can be read to its end. -/
def MessageSpeaks (announced : Announced) (msg : SpbMessage) : Prop :=
  ∀ t metrics, parseSpbTopic msg.topic = some t → msg.payload = some metrics →
    clearsFirst t.messageType || isData t.messageType →
      Speaks (isBirth t.messageType) (startNames announced t) metrics ∧
        (isBirth t.messageType → (collate true t.spbContext noNames .empty metrics).isSome = true)

/-- The aliases of the mapper, with what has been announced. -/
def spbSystem : System (AliasMap × Announced) SpbMessage where
  init s := s = (.empty, fun _ => noNames)
  step s msg s' := s' = ((onMessage s.1 msg).1, announce s.2 msg)

/-! ## The cache -/

/-- The cache of a key is the names. -/
def AliasMap.Holds (cache : AliasMap) (key : Str) (names : Names) : Prop :=
  ∀ metricAlias, cache.name? key metricAlias = names metricAlias

theorem name?_save_self (cache : AliasMap) (key name : Str) (metricAlias : Nat) :
    (cache.save key name metricAlias).name? key metricAlias = some name := by
  rw [AliasMap.name?, AliasMap.save, Dict.get?_update_self, Option.bind_some, Dict.get?_update_self]

theorem name?_save_ne (cache : AliasMap) {key key' : Str} (name : Str) {metricAlias other : Nat}
    (h : key' ≠ key ∨ other ≠ metricAlias) :
    (cache.save key name metricAlias).name? key' other = cache.name? key' other := by
  rw [AliasMap.name?, AliasMap.name?, AliasMap.save]
  rcases eq_or_ne key' key with rfl | hkey
  · rw [Dict.get?_update_self, Option.bind_some, Dict.get?_update_ne _ _ _ (h.resolve_left fun hne => hne rfl)]
    cases cache.get? key' <;> rfl
  · rw [Dict.get?_update_ne _ _ _ hkey]

theorem name?_clear_self (cache : AliasMap) (key : Str) (metricAlias : Nat) :
    (cache.clear key).name? key metricAlias = none := by
  rw [AliasMap.name?, AliasMap.clear, Dict.get?_erase_self]
  rfl

theorem name?_clear_ne (cache : AliasMap) {key key' : Str} (h : key' ≠ key) (metricAlias : Nat) :
    (cache.clear key).name? key' metricAlias = cache.name? key' metricAlias := by
  rw [AliasMap.name?, AliasMap.name?, AliasMap.clear, Dict.get?_erase_ne _ h]

variable {cache : AliasMap} {key : Str} {names : Names} {birth : Bool} {spbContext : SpbContext}

theorem namesAfter_of_blank {header : Header} (hblank : header.text = []) : namesAfter birth names header = names := by
  cases birth with
  | false => rfl
  | true =>
      show announceMetric names header = names
      rw [announceMetric]
      cases header.metricAlias with
      | none => rfl
      | some metricAlias => exact if_pos hblank

/-- A metric announces a name for its own alias only. -/
theorem namesAfter_other {header : Header} {metricAlias : Nat} (h : metricAlias ≠ header.aliasOrZero) :
    namesAfter birth names header metricAlias = names metricAlias := by
  cases birth with
  | false => rfl
  | true =>
      show announceMetric names header metricAlias = names metricAlias
      rw [Header.aliasOrZero] at h
      rw [announceMetric]
      cases hgiven : header.metricAlias with
      | none => rfl
      | some given =>
          rw [hgiven] at h
          show (if header.text = [] then names else Function.update names given.toNat (some header.text)) metricAlias = _
          split
          · rfl
          · exact Function.update_of_ne h _ _

/-- A name that is met is saved as it is announced. -/
theorem holds_getMetricName (h : cache.Holds key names) {header : Header}
    (hnamed : header.text ≠ [] → namesAfter birth names header header.aliasOrZero = some header.text) :
    (getMetricName cache key header).1.Holds key (namesAfter birth names header) := by
  rw [getMetricName]
  split
  · next hblank =>
      rw [namesAfter_of_blank hblank]
      exact h
  · next hname =>
      intro metricAlias
      rcases eq_or_ne metricAlias header.aliasOrZero with rfl | hne
      · rw [name?_save_self, hnamed hname]
      · rw [name?_save_ne _ _ (.inr hne), h metricAlias, namesAfter_other hne]

/-- A metric that can be named has in the code the name it is to have. -/
theorem getMetricName_eq (h : cache.Holds key names) {header : Header} {name : Str}
    (hresolvable : resolvable? (namesAfter birth names header) header = some name) :
    (getMetricName cache key header).2 = some name := by
  rw [resolvable?] at hresolvable
  have hfound := (Option.filter_eq_some_iff.mp hresolvable).1
  rw [getMetricName]
  split
  · next hblank =>
      rw [if_pos hblank, namesAfter_of_blank hblank] at hfound
      obtain ⟨metricAlias, halias, hname⟩ := Option.bind_eq_some_iff.mp hfound
      have hat : header.aliasOrZero = metricAlias.toNat := by
        rw [Header.aliasOrZero, halias]
        rfl
      rw [h, hat]
      exact hname
  · next hname =>
      rw [if_neg hname] at hfound
      exact hfound

theorem getMetricName_other (header : Header) {key' : Str} (hkey : key' ≠ key) (metricAlias : Nat) :
    (getMetricName cache key header).1.name? key' metricAlias = cache.name? key' metricAlias := by
  rw [getMetricName]
  split
  · rfl
  · exact name?_save_ne _ _ (.inl hkey)

theorem collate_named {metric : Metric} {name : Str}
    (hname : resolvable? (namesAfter birth names metric.header) metric.header = some name) (messages : UnsMessages)
    (metrics : List Metric) :
    collate birth spbContext names messages (metric :: metrics) = (addMetric spbContext messages name metric).bind
      fun messages => collate birth spbContext (namesAfter birth names metric.header) messages metrics := by
  rw [collate, hname]

/-- The metrics of a message that speaks are collated as they are to be. -/
theorem handleMetrics_eq {metrics : List Metric} (h : cache.Holds key names) (hspeaks : Speaks birth names metrics)
    (messages : UnsMessages) :
    (handleMetrics key spbContext cache messages metrics).2 = collate birth spbContext names messages metrics := by
  induction metrics generalizing cache names messages with
  | nil => rfl
  | cons metric metrics ih =>
      obtain ⟨hresolvable, hnamed, hrest⟩ := hspeaks
      obtain ⟨name, hname⟩ := Option.isSome_iff_exists.mp hresolvable
      rw [handleMetrics, collate_named hname, getMetricName_eq h hname, Option.bind_some]
      cases hadd : addMetric spbContext messages name metric with
      | none => simp only [Option.bind_none]
      | some messages =>
          simp only [Option.bind_some]
          exact ih (holds_getMetricName h hnamed) hrest messages

theorem foldl_namesAfter_false (names : Names) (metrics : List Metric) :
    metrics.foldl (fun names metric => namesAfter false names metric.header) names = names := by
  induction metrics with
  | nil => rfl
  | cons metric metrics ih => exact ih

/-- The names after the metrics are saved, unless one of them raises in a birth. -/
theorem holds_handleMetrics {metrics : List Metric} (h : cache.Holds key names) (hspeaks : Speaks birth names metrics)
    {messages : UnsMessages} (hread : birth = true → (collate birth spbContext names messages metrics).isSome = true) :
    (handleMetrics key spbContext cache messages metrics).1.Holds key
      (metrics.foldl (fun names metric => namesAfter birth names metric.header) names) := by
  induction metrics generalizing cache names messages with
  | nil => exact h
  | cons metric metrics ih =>
      obtain ⟨hresolvable, hnamed, hrest⟩ := hspeaks
      obtain ⟨name, hname⟩ := Option.isSome_iff_exists.mp hresolvable
      rw [handleMetrics, getMetricName_eq h hname, Option.bind_some, List.foldl_cons]
      cases hadd : addMetric spbContext messages name metric with
      | none =>
          cases birth with
          | true =>
              have hnone := hread rfl
              rw [collate_named hname, hadd, Option.bind_none] at hnone
              cases hnone
          | false =>
              rw [foldl_namesAfter_false]
              dsimp only
              exact holds_getMetricName h hnamed
      | some messages =>
          dsimp only
          refine ih (holds_getMetricName h hnamed) hrest fun hbirth => ?_
          have hsome := hread hbirth
          rw [collate_named hname, hadd, Option.bind_some] at hsome
          exact hsome

theorem handleMetrics_other {metrics : List Metric} (messages : UnsMessages) {key' : Str} (hkey : key' ≠ key)
    (metricAlias : Nat) :
    (handleMetrics key spbContext cache messages metrics).1.name? key' metricAlias = cache.name? key' metricAlias := by
  induction metrics generalizing cache messages with
  | nil => rfl
  | cons metric metrics ih =>
      rw [handleMetrics]
      split
      · exact getMetricName_other _ hkey metricAlias
      · exact (ih _).trans (getMetricName_other _ hkey metricAlias)

/-! ## Keys -/

theorem splitSlash_cacheKey {topic : Str} {t : SpbTopic} (h : parseSpbTopic topic = some t) :
    splitSlash t.cacheKey = [t.groupId, t.edgeNodeId, t.deviceId] := by
  rw [parseSpbTopic] at h
  split at h
  · split at h
    · next hsplit =>
        cases h
        have hslash := fun segment (hmem : segment ∈ splitSlash topic) => not_mem_of_mem_splitSlash hmem
        rw [hsplit] at hslash
        rw [← @splitSlash_joinSlash [_, _, _] (List.cons_ne_nil _ _)]
        · rw [joinSlash_cons_cons, joinSlash_cons_cons, joinSlash_singleton, SpbTopic.cacheKey]
          simp only [List.append_assoc, List.cons_append, List.nil_append]
        · intro segment hmem
          refine hslash segment ?_
          simp only [List.mem_cons, List.not_mem_nil, or_false] at hmem ⊢
          rcases hmem with rfl | rfl | rfl
          · exact .inr (.inl rfl)
          · exact .inr (.inr (.inr (.inl rfl)))
          · exact .inr (.inr (.inr (.inr rfl)))
    · cases h
  · cases h

/-- Two devices have two keys. -/
theorem cacheKey_ne {topic topic' : Str} {t t' : SpbTopic} (h : parseSpbTopic topic = some t)
    (h' : parseSpbTopic topic' = some t') (hne : t'.device ≠ t.device) : t'.cacheKey ≠ t.cacheKey := by
  intro hkey
  have hsplit := splitSlash_cacheKey h'
  rw [hkey, splitSlash_cacheKey h] at hsplit
  injection hsplit with hgroup hsplit
  injection hsplit with hnode hsplit
  injection hsplit with hdevice hsplit
  exact hne (by rw [SpbTopic.device, SpbTopic.device, hgroup, hnode, hdevice])

theorem cacheKey_eq {t t' : SpbTopic} (h : t'.device = t.device) : t'.cacheKey = t.cacheKey := by
  injection h with hgroup h
  injection h with hnode hdevice
  rw [SpbTopic.cacheKey, SpbTopic.cacheKey, hgroup, hnode, hdevice]

/-! ## A message -/

theorem clearsFirst_of_isBirth {messageType : Str} (h : isBirth messageType = true) : clearsFirst messageType = true := by
  simp only [isBirth, clearsFirst, decide_eq_true_eq, List.mem_cons, List.not_mem_nil, or_false] at h ⊢
  rcases h with rfl | rfl
  · exact .inl rfl
  · exact .inr (.inr rfl)

theorem clearsFirst_cases {messageType : Str} (h : clearsFirst messageType = true) :
    (isDeath messageType = true ∧ isBirth messageType = false) ∨
      (isDeath messageType = false ∧ isBirth messageType = true) := by
  simp only [clearsFirst, decide_eq_true_eq, List.mem_cons, List.not_mem_nil, or_false] at h
  rcases h with rfl | rfl | rfl
  · exact .inr (by decide)
  · exact .inl (by decide)
  · exact .inr (by decide)

theorem isDeath_cases {messageType : Str} (h : isDeath messageType = true) :
    clearsFirst messageType = true ∨ isDeviceDeath messageType = true := by
  simp only [isDeath, isDeviceDeath, clearsFirst, decide_eq_true_eq, List.mem_cons, List.not_mem_nil, or_false] at h ⊢
  rcases h with rfl | rfl
  · exact .inl (.inr (.inl rfl))
  · exact .inr rfl

theorem isDeath_of_isDeviceDeath {messageType : Str} (h : isDeviceDeath messageType = true) :
    isDeath messageType = true ∧ (clearsFirst messageType || isData messageType) = false := by
  rw [isDeviceDeath, decide_eq_true_iff] at h
  subst h
  decide

/-- The cache a message starts with. -/
theorem holds_start {t : SpbTopic} {announced : Announced} (h : cache.Holds t.cacheKey (announced t.device)) :
    AliasMap.Holds (if clearsFirst t.messageType then cache.clear t.cacheKey else cache) t.cacheKey
      (startNames announced t) := by
  rw [startNames]
  split
  · exact name?_clear_self cache t.cacheKey
  · exact h

theorem start_other (t : SpbTopic) {key' : Str} (hkey : key' ≠ t.cacheKey) (metricAlias : Nat) :
    AliasMap.name? (if clearsFirst t.messageType then cache.clear t.cacheKey else cache) key' metricAlias =
      cache.name? key' metricAlias := by
  split
  · exact name?_clear_ne _ hkey _
  · rfl

/-- The cache holds what is announced, for every device. -/
def AliasMap.Follows (cache : AliasMap) (announced : Announced) : Prop :=
  ∀ topic t, parseSpbTopic topic = some t → cache.Holds t.cacheKey (announced t.device)

/-- What is published is what is to be published. -/
theorem onMessage_published {announced : Announced} (h : cache.Follows announced) {msg : SpbMessage}
    (hspeaks : MessageSpeaks announced msg) : (onMessage cache msg).2 = publishedNames announced msg := by
  rw [onMessage, publishedNames]
  cases htopic : parseSpbTopic msg.topic with
  | none => rfl
  | some t =>
      dsimp only
      rcases Bool.eq_false_or_eq_true (isDeviceDeath t.messageType) with hdeath | hdeath
      · rw [if_pos hdeath, (isDeath_of_isDeviceDeath hdeath).2]
        rfl
      · rw [hdeath, if_neg Bool.false_ne_true]
        split
        · next hhandled =>
            cases hpayload : msg.payload with
            | none => rfl
            | some metrics =>
                dsimp only
                rw [handleMetrics_eq (holds_start (h _ t htopic)) (hspeaks t metrics htopic hpayload hhandled).1]
        · rfl

/-- A message leaves the aliases of the other devices. -/
theorem onMessage_other {msg : SpbMessage} {t : SpbTopic} (htopic : parseSpbTopic msg.topic = some t) {key' : Str}
    (hkey : key' ≠ t.cacheKey) (metricAlias : Nat) :
    (onMessage cache msg).1.name? key' metricAlias = cache.name? key' metricAlias := by
  rw [onMessage, htopic]
  dsimp only
  split
  · exact name?_clear_ne _ hkey _
  · split
    · cases msg.payload with
      | none => exact start_other t hkey metricAlias
      | some metrics => exact (handleMetrics_other _ hkey metricAlias).trans (start_other t hkey metricAlias)
    · rfl

theorem announce_other {announced : Announced} {msg : SpbMessage} {t : SpbTopic}
    (htopic : parseSpbTopic msg.topic = some t) {device : Str × Str × Str} (hne : device ≠ t.device) :
    announce announced msg device = announced device := by
  rw [announce, htopic]
  dsimp only
  split
  · exact Function.update_of_ne hne _ _
  · split
    · exact Function.update_of_ne hne _ _
    · rfl

/-- The names of the device of a message. -/
theorem announce_self {announced : Announced} {msg : SpbMessage} {t : SpbTopic}
    (htopic : parseSpbTopic msg.topic = some t) :
    announce announced msg t.device =
      if isDeath t.messageType then noNames
      else if isBirth t.messageType then
        (msg.payload.getD []).foldl (fun names metric => announceMetric names metric.header) noNames
      else announced t.device := by
  rw [announce, htopic]
  dsimp only
  split
  · exact Function.update_self _ _ _
  · split
    · exact Function.update_self _ _ _
    · rfl

theorem announce_kept {announced : Announced} {msg : SpbMessage} {t : SpbTopic}
    (htopic : parseSpbTopic msg.topic = some t) (hclears : clearsFirst t.messageType = false)
    (hdeath : isDeviceDeath t.messageType = false) : announce announced msg t.device = announced t.device := by
  have hbirth : isBirth t.messageType = false := by
    refine Bool.eq_false_iff.mpr fun hbirth => ?_
    rw [clearsFirst_of_isBirth hbirth] at hclears
    cases hclears
  have hisDeath : isDeath t.messageType = false := by
    refine Bool.eq_false_iff.mpr fun hisDeath => ?_
    rcases isDeath_cases hisDeath with hat | hat
    · rw [hat] at hclears
      cases hclears
    · rw [hat] at hdeath
      cases hdeath
  rw [announce_self htopic, hbirth, hisDeath]
  rfl

/-- A message that cannot be read announces nothing. -/
theorem announce_unread {announced : Announced} {msg : SpbMessage} {t : SpbTopic}
    (htopic : parseSpbTopic msg.topic = some t) (hdeath : isDeviceDeath t.messageType = false)
    (hpayload : msg.payload = none) : announce announced msg t.device = startNames announced t := by
  rw [startNames]
  split
  · next hclears =>
      rw [announce_self htopic, hpayload]
      rcases clearsFirst_cases hclears with ⟨hisDeath, _⟩ | ⟨hisDeath, hbirth⟩
      · exact if_pos hisDeath
      · rw [hisDeath, if_neg Bool.false_ne_true, if_pos hbirth]
        rfl
  · next hclears => exact announce_kept htopic (Bool.eq_false_iff.mpr hclears) hdeath

/-- The metrics of a handled message leave the names that are announced after it. -/
theorem holds_handled {announced : Announced} {msg : SpbMessage} {t : SpbTopic}
    (htopic : parseSpbTopic msg.topic = some t) (hspeaks : MessageSpeaks announced msg)
    (hhandled : (clearsFirst t.messageType || isData t.messageType) = true)
    (hdeath : isDeviceDeath t.messageType = false) {metrics : List Metric} (hpayload : msg.payload = some metrics)
    (h : cache.Holds t.cacheKey (startNames announced t)) :
    (handleMetrics t.cacheKey t.spbContext cache .empty metrics).1.Holds t.cacheKey (announce announced msg t.device) := by
  obtain ⟨hmetrics, hread⟩ := hspeaks t metrics htopic hpayload hhandled
  rcases Bool.eq_false_or_eq_true (isBirth t.messageType) with hbirth | hbirth
  · have hclears := clearsFirst_of_isBirth hbirth
    have hisDeath : isDeath t.messageType = false := by
      rcases clearsFirst_cases hclears with ⟨_, hat⟩ | ⟨hat, _⟩
      · rw [hat] at hbirth
        cases hbirth
      · exact hat
    rw [announce_self htopic, hpayload, hisDeath, if_neg Bool.false_ne_true, if_pos hbirth]
    rw [startNames, if_pos hclears] at h hmetrics
    rw [hbirth] at hmetrics
    exact holds_handleMetrics h hmetrics fun _ => hread hbirth
  · -- other messages announce nothing, and what they name is announced already
    have hholds := @holds_handleMetrics _ _ _ _ t.spbContext _ h (hbirth ▸ hmetrics) .empty fun hfalse => by cases hfalse
    rw [foldl_namesAfter_false] at hholds
    have hsame : announce announced msg t.device = startNames announced t := by
      rw [startNames]
      split
      · next hclears =>
          rcases clearsFirst_cases hclears with ⟨hisDeath, _⟩ | ⟨_, hat⟩
          · rw [announce_self htopic, if_pos hisDeath]
          · rw [hat] at hbirth
            cases hbirth
      · next hclears => exact announce_kept htopic (Bool.eq_false_iff.mpr hclears) hdeath
    rw [hsame]
    exact hholds

/-- A device is known by what it announced. -/
theorem holds_onMessage {announced : Announced} {msg : SpbMessage} {t : SpbTopic}
    (htopic : parseSpbTopic msg.topic = some t) (hspeaks : MessageSpeaks announced msg)
    (h : cache.Holds t.cacheKey (announced t.device)) :
    (onMessage cache msg).1.Holds t.cacheKey (announce announced msg t.device) := by
  rw [onMessage, htopic]
  dsimp only
  rcases Bool.eq_false_or_eq_true (isDeviceDeath t.messageType) with hdeath | hdeath
  · rw [if_pos hdeath, announce_self htopic, if_pos (isDeath_of_isDeviceDeath hdeath).1]
    exact name?_clear_self cache t.cacheKey
  · rw [hdeath, if_neg Bool.false_ne_true]
    split
    · next hhandled =>
        cases hpayload : msg.payload with
        | some metrics => exact holds_handled htopic hspeaks hhandled hdeath hpayload (holds_start h)
        | none =>
            rw [announce_unread htopic hdeath hpayload]
            exact holds_start h
    · next hhandled =>
        have hclears := (Bool.or_eq_false_iff.mp (Bool.eq_false_iff.mpr hhandled)).1
        rw [announce_kept htopic hclears hdeath]
        exact h

/-- A message that speaks keeps every device known by what it announced. -/
theorem follows_onMessage {announced : Announced} (h : cache.Follows announced) {msg : SpbMessage}
    (hspeaks : MessageSpeaks announced msg) : (onMessage cache msg).1.Follows (announce announced msg) := by
  intro topic t' htopic'
  cases htopic : parseSpbTopic msg.topic with
  | none =>
      rw [onMessage, announce, htopic]
      exact h topic t' htopic'
  | some t =>
      rcases eq_or_ne t'.device t.device with hdevice | hdevice
      · rw [cacheKey_eq hdevice, hdevice]
        exact holds_onMessage htopic hspeaks (h _ t htopic)
      · intro metricAlias
        rw [onMessage_other htopic (cacheKey_ne htopic htopic' hdevice), announce_other htopic hdevice]
        exact h topic t' htopic' metricAlias

/-! ## Runs -/

/-- In a run whose messages speak the aliases are those that are announced, and every message
that speaks is published as it is to be. -/
theorem published_as_announced {s : AliasMap × Announced}
    (h : (spbSystem.restrict fun s msg => MessageSpeaks s.2 msg).Reachable s) :
    s.1.Follows s.2 ∧ ∀ msg, MessageSpeaks s.2 msg → (onMessage s.1 msg).2 = publishedNames s.2 msg := by
  have hfollows : s.1.Follows s.2 := by
    refine System.invariant (I := fun s => s.1.Follows s.2) ?_ ?_ h
    · rintro s rfl topic t _ metricAlias
      rfl
    · rintro s msg s' _ hs ⟨hspeaks, rfl⟩
      exact follows_onMessage hs hspeaks
  exact ⟨hfollows, fun msg hspeaks => onMessage_published hfollows hspeaks⟩

/-- A metric of type `UInt8` with a reading. -/
def metricOf (name : Option Str) (metricAlias : Option UInt64) : Metric :=
  .mk ⟨name, metricAlias, some 5, some 5, none, none, none, none⟩ none (.scalar (.int 7))

def birthTopic : Str := lit "spBv1.0/plant/DBIRTH/edge/press"

def pressBirth : SpbMessage := ⟨birthTopic, some [metricOf (some (lit "line/temp")) (some 1)], true⟩

def pressReading : SpbMessage := ⟨lit "spBv1.0/plant/DDATA/edge/press", some [metricOf none (some 1)], true⟩

theorem pressBirth_speaks : MessageSpeaks (fun _ => noNames) pressBirth := by
  intro t metrics ht hmetrics _
  have htopic : parseSpbTopic pressBirth.topic = some ⟨lit "plant", lit "DBIRTH", lit "edge", lit "press"⟩ := rfl
  obtain rfl := Option.some.inj (htopic.symm.trans ht)
  obtain rfl := Option.some.inj hmetrics
  exact ⟨⟨by decide, fun _ => by decide, trivial⟩, fun _ => by decide⟩

theorem pressReading_speaks : MessageSpeaks (announce (fun _ => noNames) pressBirth) pressReading := by
  intro t metrics ht hmetrics _
  have htopic : parseSpbTopic pressReading.topic = some ⟨lit "plant", lit "DDATA", lit "edge", lit "press"⟩ := rfl
  obtain rfl := Option.some.inj (htopic.symm.trans ht)
  obtain rfl := Option.some.inj hmetrics
  exact ⟨⟨by decide, fun hnamed => absurd rfl hnamed, trivial⟩, fun hbirth => by cases hbirth⟩

/-- A press announces the temperature, and a reading of its alias is published under its name. -/
theorem published_as_announced_press :
    (onMessage (onMessage .empty pressBirth).1 pressReading).2 =
      publishedNames (announce (fun _ => noNames) pressBirth) pressReading :=
  have hreached : (spbSystem.restrict fun s msg => MessageSpeaks s.2 msg).Reachable
      ((onMessage .empty pressBirth).1, announce (fun _ => noNames) pressBirth) :=
    .step (.init rfl) ⟨pressBirth_speaks, rfl⟩
  (published_as_announced hreached).2 pressReading pressReading_speaks

/-- The birth with a metric whose name has no slash. -/
def pressBirthBd : SpbMessage :=
  ⟨birthTopic, some [metricOf (some (lit "line/temp")) (some 1), metricOf (some (lit "bdSeq")) none], true⟩

/-- A metric whose name has no slash loses the temperature beside it, which is published in
its absence. -/
theorem slashless_name_loses_payload :
    ¬ ∀ s, spbSystem.Reachable s → ∀ msg, (onMessage s.1 msg).2 = publishedNames s.2 msg := by
  intro h
  have hlost : (onMessage .empty pressBirthBd).2.length = (publishedNames (fun _ => noNames) pressBirthBd).length :=
    congrArg List.length (h (.empty, fun _ => noNames) (.init rfl) pressBirthBd)
  have hnone : (onMessage .empty pressBirthBd).2.length = 0 := by decide +kernel
  have hone : (publishedNames (fun _ => noNames) pressBirthBd).length = 1 := by decide +kernel
  omega

end Uns.Sparkplug
