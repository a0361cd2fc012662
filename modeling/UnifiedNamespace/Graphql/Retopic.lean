/-
# `Graphql.Retopic` — a tag's new topic and the history under the old one

`update_tag` of the connectivity catalog and the two mutations that call it.  Only one of
them hands over the rewrite of the historian, and that rewrite is the one made for a node
of the hierarchy: it takes along what lies below the old topic.  `retopic_iff` says from
what is stored when just the rows of the tag move.
-/
import UnifiedNamespace.Graphql.Migrate
import UnifiedNamespace.Opcua.CatalogRuns

namespace Uns.Graphql

open Py Lib Model Opcua

/-! ## The mutations -/

/-- What `update_tag` reads and writes. -/
structure Signals where
  catalog : Catalog
  historian : Historian

/-- The keys that are passed to `update_tag`, as far as they are read here. -/
structure TagFields where
  displayName : Option Str
  mqttTopic : Option Str

inductive UpdateError where
  | xmlUnsafe (key : Str)
  | duplicateTopic (topic nodeId : Str)
  | rewrite (error : RewriteError)
  | refused

/-- `[\x00-\x08\x0B\x0C\x0E-\x1F]` is found. -/
def xmlUnsafe (value : Str) : Bool :=
  value.any fun c => decide (c ≤ 8 ∨ c = 11 ∨ c = 12 ∨ 14 ≤ c ∧ c ≤ 31)

/-- The history of a tag whose topic is written, when the rewrite is handed over. -/
def Historian.onTopicRewrite (historian : Historian) (handed : Bool) (oldTopic : Str)
    (newTopic : Option Str) : Except UpdateError Historian :=
  match newTopic with
  | none => .ok historian
  | some newTopic =>
      if newTopic ≠ oldTopic ∧ handed = true then
        (historian.rewriteTopicPrefix oldTopic newTopic).mapError .rewrite |>.map Prod.fst
      else .ok historian

/-- `update_tag`; `accepted` stands for the other columns, the database and the file of the
broker. -/
def Signals.updateTag (s : Signals) (key : Str × Str) (fields : TagFields) (handed accepted : Bool) :
    Except UpdateError (Signals × Option ConnectivityTag) :=
  if fields.displayName.any xmlUnsafe then .error (.xmlUnsafe (lit "display_name"))
  else if fields.mqttTopic.any xmlUnsafe then .error (.xmlUnsafe (lit "mqtt_topic"))
  else if fields.mqttTopic.any (s.catalog.topicTaken key) then
    .error (.duplicateTopic (fields.mqttTopic.getD []) key.2)
  else
    match s.catalog.tags.get? key with
    | none => .ok (s, none)
    | some stored => do
        let tag := stored.patched fields.displayName fields.mqttTopic
        let tags := s.catalog.tags.update key stored (·.patched fields.displayName fields.mqttTopic)
        let historian ← s.historian.onTopicRewrite handed stored.mqttTopic fields.mqttTopic
        if accepted then .ok (⟨{ s.catalog with tags := tags }, historian⟩, some tag) else .error .refused

/-- A key of a patch may be left out, and may be null. -/
structure TagPatch where
  displayName : Option (Option Str)
  mqttTopic : Option (Option Str)

def TagPatch.tagUpdateFields (patch : TagPatch) : TagFields := ⟨patch.displayName.join, patch.mqttTopic.join⟩

inductive TagMutation where
  | updateConnectivityTagTopic (mqttTopic : Str)
  | updateConnectivityTag (patch : TagPatch)

def TagMutation.run (s : Signals) (key : Str × Str) (accepted : Bool) :
    TagMutation → Except UpdateError (Signals × Option ConnectivityTag)
  | .updateConnectivityTagTopic mqttTopic => s.updateTag key ⟨none, some mqttTopic⟩ true accepted
  | .updateConnectivityTag patch => s.updateTag key patch.tagUpdateFields false accepted

/-- What is stored after a mutation; one that raises is rolled back. -/
def Signals.mutate (s : Signals) (key : Str × Str) (mutation : TagMutation) (accepted : Bool) : Signals :=
  match mutation.run s key accepted with
  | .ok (s', _) => s'
  | .error _ => s

/-! ## What is owed -/

/-- The tag's topic is `t` before and `t'` after. -/
structure Retopics (s s' : Signals) (key : Str × Str) (t t' : Str) : Prop where
  before : ∃ tag, s.catalog.tags.get? key = some tag ∧ tag.mqttTopic = t
  after : ∃ tag, s'.catalog.tags.get? key = some tag ∧ tag.mqttTopic = t'
  differ : t' ≠ t

def retopic (t t' topic : Str) : Str := if topic = t then t' else topic

/-- The rows of one topic under another, and every other row as it was. -/
def Historian.moved (historian : Historian) (t t' : Str) : Historian where
  raw := historian.raw.map (retopic t t')
  metrics := historian.metrics.map (List.map (retopic t t'))

/-- Nothing is stored below the old topic; or nothing under it, when the rewrite is not handed over. -/
def TagMutation.MovesOne (historian : Historian) (t : Str) : TagMutation → Prop
  | .updateConnectivityTagTopic _ => ∀ topic ∈ historian.topics, ¬ t ++ [separator] <+: topic
  | .updateConnectivityTag _ => t ∉ historian.topics

/-! ## Rows -/

/-- A change of the topics of all rows. -/
def Historian.mapTopics (historian : Historian) (f : Str → Str) : Historian where
  raw := historian.raw.map f
  metrics := historian.metrics.map (List.map f)

theorem Historian.mapTopics_eq_iff {historian : Historian} {f g : Str → Str} :
    historian.mapTopics f = historian.mapTopics g ↔ ∀ topic ∈ historian.topics, f topic = g topic := by
  obtain ⟨raw, metrics⟩ := historian
  rw [mapTopics, mapTopics, Historian.mk.injEq, List.map_inj_left, topics, List.forall_mem_append]
  refine and_congr_right fun _ => ?_
  cases metrics with
  | none => simp only [Option.map_none, Option.getD_none, List.not_mem_nil, false_imp_iff, implies_true]
  | some rows => rw [Option.map_some, Option.map_some, Option.some.injEq, List.map_inj_left, Option.getD_some]

theorem Historian.mapTopics_id (historian : Historian) : historian.mapTopics id = historian := by
  obtain ⟨raw, metrics⟩ := historian
  rw [mapTopics, List.map_id, List.map_id_fun, Option.map_id, id]

/-- The rewrite of a prefix moves one topic alone exactly when it leaves the topic alone or is
not below. -/
theorem rewriteTopic_eq_retopic {t t' topic : Str} (hne : t' ≠ t) :
    rewriteTopic t t' topic = retopic t t' topic ↔ ¬ t ++ [separator] <+: topic := by
  rw [rewriteTopic, retopic, covers]
  by_cases heq : topic = t
  · have hnot : ¬ t ++ [separator] <+: topic := by
      intro hpre
      have hlen := hpre.length_le
      rw [heq, List.length_append, List.length_singleton] at hlen
      omega
    rw [if_pos heq, decide_eq_true heq, Bool.true_or, if_pos rfl, heq, List.drop_length, List.append_nil]
    exact iff_of_true rfl (heq ▸ hnot)
  · rw [if_neg heq, decide_eq_false heq, Bool.false_or]
    by_cases hpre : t ++ [separator] <+: topic
    · rw [if_pos (List.isPrefixOf_iff_prefix.mpr hpre)]
      refine iff_of_false ?_ (not_not_intro hpre)
      obtain ⟨rest, rfl⟩ := hpre
      rw [List.append_assoc, List.drop_left]
      exact fun hsame => hne (List.append_cancel_right hsame)
    · rw [if_neg fun h => hpre (List.isPrefixOf_iff_prefix.mp h)]
      exact iff_of_true rfl hpre

/-- A topic is left alone exactly when it is not the one to be moved. -/
theorem id_eq_retopic {t t' topic : Str} (hne : t' ≠ t) : id topic = retopic t t' topic ↔ topic ≠ t := by
  rw [retopic, id]
  by_cases heq : topic = t
  · rw [if_pos heq, heq]
    exact iff_of_false hne.symm (not_not_intro rfl)
  · rw [if_neg heq]
    exact iff_of_true rfl heq

/-! ## One mutation -/

section

variable {s : Signals} {key : Str × Str} {fields : TagFields} {handed accepted : Bool}

/-- What `update_tag` can do. -/
theorem updateTag_cases {s' : Signals} {row : Option ConnectivityTag}
    (h : s.updateTag key fields handed accepted = .ok (s', row)) :
    s' = s ∨ ∃ stored, s.catalog.tags.get? key = some stored ∧
      s'.catalog = s.catalog.carryOut (.updateTag key.1 key.2 fields.displayName fields.mqttTopic) ∧
      s'.catalog.tags.get? key = some (stored.patched fields.displayName fields.mqttTopic) ∧
      s.historian.onTopicRewrite handed stored.mqttTopic fields.mqttTopic = .ok s'.historian := by
  rw [Signals.updateTag] at h
  split at h
  · cases h
  · split at h
    · cases h
    · split at h
      · cases h
      · next hfree =>
        cases hstored : s.catalog.tags.get? key with
        | none =>
            rw [hstored] at h
            cases h
            exact .inl rfl
        | some stored =>
            rw [hstored] at h
            cases hrewrite : s.historian.onTopicRewrite handed stored.mqttTopic fields.mqttTopic with
            | error e =>
                dsimp only at h
                rw [hrewrite] at h
                cases h
            | ok historian =>
                dsimp only at h
                rw [hrewrite] at h
                cases accepted with
                | false => cases h
                | true =>
                    cases h
                    refine .inr ⟨stored, rfl, ?_, ?_, hrewrite⟩
                    · simp only [Catalog.carryOut, Prod.mk.eta, hstored, if_neg hfree]
                    · dsimp only
                      rw [Dict.get?_update_self, hstored]
                      rfl

/-- The historian after the topic of a tag is changed. -/
theorem historian_updateTag {t t' : Str} {s' : Signals} {row : Option ConnectivityTag}
    (hrun : s.updateTag key fields handed accepted = .ok (s', row)) (h : Retopics s s' key t t') :
    s'.historian = s.historian.mapTopics (if handed then rewriteTopic t t' else id) := by
  obtain ⟨⟨tag, hbefore, rfl⟩, ⟨tag', hafter, rfl⟩, hdiffer⟩ := h
  rcases updateTag_cases hrun with rfl | ⟨stored, hstored, _, hwritten, hrewrite⟩
  · cases hbefore.symm.trans hafter
    exact absurd rfl hdiffer
  · obtain rfl : stored = tag := Option.some.inj (hstored.symm.trans hbefore)
    cases hwritten.symm.trans hafter
    cases htopic : fields.mqttTopic with
    | none =>
        rw [htopic] at hdiffer
        exact absurd rfl hdiffer
    | some topic =>
        rw [htopic] at hrewrite hdiffer
        change topic ≠ stored.mqttTopic at hdiffer
        cases handed with
        | false =>
            rw [Historian.onTopicRewrite, if_neg (fun hboth => nomatch hboth.2)] at hrewrite
            exact (Except.ok.inj hrewrite).symm.trans (Historian.mapTopics_id s.historian).symm
        | true =>
            rw [Historian.onTopicRewrite, if_pos ⟨hdiffer, rfl⟩, Historian.rewriteTopicPrefix,
              if_neg hdiffer.symm] at hrewrite
            exact (Except.ok.inj hrewrite).symm

end

theorem not_retopics_self {s : Signals} {key : Str × Str} {t t' : Str} : ¬ Retopics s s key t t' := by
  rintro ⟨⟨tag, hbefore, rfl⟩, ⟨tag', hafter, rfl⟩, hdiffer⟩
  cases hbefore.symm.trans hafter
  exact hdiffer rfl

/-- A mutation that changes the topic of a tag moves just the rows of that tag exactly when
nothing is stored below the old topic and the rewrite is handed over, or nothing is stored
under it and the rewrite is not. -/
theorem retopic_iff {s : Signals} {key : Str × Str} {mutation : TagMutation} {accepted : Bool}
    {t t' : Str} (h : Retopics s (s.mutate key mutation accepted) key t t') :
    (s.mutate key mutation accepted).historian = s.historian.moved t t' ↔
      mutation.MovesOne s.historian t := by
  have hmoved : s.historian.moved t t' = s.historian.mapTopics (retopic t t') := rfl
  rw [hmoved]
  cases hrun : mutation.run s key accepted with
  | error e =>
      rw [Signals.mutate, hrun] at h
      exact absurd h not_retopics_self
  | ok r =>
      obtain ⟨s', row⟩ := r
      rw [Signals.mutate, hrun] at h ⊢
      dsimp only at h ⊢
      cases mutation with
      | updateConnectivityTagTopic mqttTopic =>
          rw [historian_updateTag hrun h, if_pos rfl, Historian.mapTopics_eq_iff]
          exact forall₂_congr fun topic _ => rewriteTopic_eq_retopic h.differ
      | updateConnectivityTag patch =>
          rw [historian_updateTag hrun h, if_neg Bool.false_ne_true, Historian.mapTopics_eq_iff]
          refine (forall₂_congr fun topic _ => id_eq_retopic h.differ).trans ?_
          exact ⟨fun hall hmem => hall t hmem rfl, fun hnone topic hmem heq => hnone (heq ▸ hmem)⟩

/-! ### A nested topic -/

/-- One tag on `a`, and rows under it and below it. -/
def pumpSignals : Signals where
  catalog := ⟨.empty, Dict.empty.update (lit "plc", lit "1") ⟨lit "a", lit "a", lit "a", true⟩ id⟩
  historian := ⟨[lit "a", lit "a/b"], none⟩

theorem retopic_iff_pump :
    (pumpSignals.mutate (lit "plc", lit "1") (.updateConnectivityTagTopic (lit "c")) true).historian =
        pumpSignals.historian.moved (lit "a") (lit "c") ↔
      (TagMutation.updateConnectivityTagTopic (lit "c")).MovesOne pumpSignals.historian (lit "a") :=
  retopic_iff ⟨⟨_, rfl, rfl⟩, ⟨_, rfl, rfl⟩, by decide⟩

/-- The patch leaves the history under the old topic. -/
theorem patch_leaves_history :
    Retopics pumpSignals
        (pumpSignals.mutate (lit "plc", lit "1") (.updateConnectivityTag ⟨none, some (some (lit "c"))⟩) true)
        (lit "plc", lit "1") (lit "a") (lit "c") ∧
      (pumpSignals.mutate (lit "plc", lit "1")
          (.updateConnectivityTag ⟨none, some (some (lit "c"))⟩) true).historian ≠
        pumpSignals.historian.moved (lit "a") (lit "c") :=
  ⟨⟨⟨_, rfl, rfl⟩, ⟨_, rfl, rfl⟩, by decide⟩, by decide⟩

end Uns.Graphql
