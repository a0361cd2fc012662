/-
# `Opcua.TopicExclusive` — one topic, one subscribed tag

No index keeps the topics of subscribed tags apart; each writer of `ConnectivityRepository`
has to.  `save_tag` and `update_tag` look the topic up before they write.
`replace_subscribed_tags` does not: it inserts new nodes with the topics they come with,
and subscribes a node again under the topic it kept.

`Catalog.TopicsFree` says of one discovery that the topics it subscribes are free and
apart.  It is what a run needs, and no more (`exclusive_topics`).
-/
import UnifiedNamespace.Opcua.CatalogRuns

namespace Uns.Opcua

open Py Lib

/-! ## The repository -/

/-- `merge_discovered`: a node that is there keeps its topic, and is subscribed. -/
def mergeSpecs (existing discovered : List (Str × ConnectivityTag)) : Dict Str ConnectivityTag :=
  discovered.foldl
    (fun d tag => d.update tag.1 tag.2 fun kept => ⟨tag.2.browsePath, tag.2.displayName, kept.mqttTopic, true⟩)
    (existing.foldl (fun d e => d.update e.1 e.2 fun _ => e.2) .empty)

/-- `replace_subscribed_tags`; the database has no tag without a server. -/
def Catalog.replaceSubscribedTags (c : Catalog) (serverId : Str) (tags : List (Str × ConnectivityTag)) : Catalog :=
  if (c.servers.get? serverId).isNone then c
  else { c with tags := (mergeSpecs (c.tagsOf serverId) tags).entries.foldl (putMerged serverId) c.tags }

/-- The specification a discovered variable is made. -/
def DiscoveredTag.spec (tag : DiscoveredTag) : Str × ConnectivityTag :=
  (tag.nodeId, ⟨tag.browsePath, tag.displayName, tag.browsePath, true⟩)

theorem mergeDiscovered_eq (existing : List (Str × ConnectivityTag)) (discovered : List DiscoveredTag) :
    mergeDiscovered existing discovered = mergeSpecs existing (discovered.map DiscoveredTag.spec) := by
  rw [mergeDiscovered, mergeSpecs, List.foldl_map]
  rfl

inductive RepositoryCall where
  | request (call : CatalogCall)
  | replaceSubscribedTags (serverId : Str) (tags : List (Str × ConnectivityTag))

/-- A call, and whether the rules that are not modelled here let it through. -/
structure RepositoryRequest where
  call : RepositoryCall
  accepted : Bool

def Catalog.perform (c : Catalog) : RepositoryCall → Catalog
  | .request call => c.carryOut call
  | .replaceSubscribedTags serverId tags => c.replaceSubscribedTags serverId tags

def Catalog.performed (c : Catalog) (request : RepositoryRequest) : Catalog :=
  if request.accepted then c.perform request.call else c

def repositorySystem : System Catalog RepositoryRequest where
  init c := c = ⟨.empty, .empty⟩
  step c request c' := c' = c.performed request

/-! ## Topics of subscribed tags -/

/-- The tag is subscribed on the topic. -/
def Catalog.On (c : Catalog) (key : Str × Str) (topic : Str) : Prop :=
  ∃ tag, c.tags.get? key = some tag ∧ tag.subscribed = true ∧ tag.mqttTopic = topic

/-- No two subscribed tags have the same topic, blank ones apart. -/
def Catalog.Exclusive (c : Catalog) : Prop :=
  ∀ key key' topic, topic ≠ [] → c.On key topic → c.On key' topic → key = key'

/-- A discovery subscribes the node, under the topic: its own when the node is new, the one it
kept when it is not subscribed. -/
def Catalog.Arrives (c : Catalog) (serverId : Str) (tags : List (Str × ConnectivityTag)) (node topic : Str) : Prop :=
  (c.tags.get? (serverId, node) = none ∧ ∃ tag, tags.find? (fun t => t.1 = node) = some tag ∧ tag.2.mqttTopic = topic) ∨
    ∃ stored, c.tags.get? (serverId, node) = some stored ∧ stored.subscribed = false ∧ stored.mqttTopic = topic ∧
      node ∈ tags.map Prod.fst

/-- The topics a discovery subscribes are apart, and on no tag that is subscribed. -/
structure Catalog.TopicsFree (c : Catalog) (serverId : Str) (tags : List (Str × ConnectivityTag)) : Prop where
  apart : ∀ node node' topic, topic ≠ [] → c.Arrives serverId tags node topic → c.Arrives serverId tags node' topic →
    node = node'
  free : ∀ node topic, topic ≠ [] → c.Arrives serverId tags node topic → ∀ key, ¬ c.On key topic

/-- The request is no discovery, or its topics are free. -/
def Catalog.Free (c : Catalog) (request : RepositoryRequest) : Prop :=
  request.accepted = true → match request.call with
  | .request (.subscribeVariables serverId discovered) => ∀ server, c.servers.get? serverId = some server →
      server.protocol = opcUa → c.TopicsFree serverId (discovered.map DiscoveredTag.spec)
  | .replaceSubscribedTags serverId tags => ∀ server, c.servers.get? serverId = some server →
      c.TopicsFree serverId tags
  | _ => True

variable {c d : Catalog}

/-! ## What a discovery leaves -/

theorem get?_foldl_update_of_notMem {es : List (Str × ConnectivityTag)} {node : Str} (h : node ∉ es.map Prod.fst)
    (byNode : Dict Str ConnectivityTag) :
    (es.foldl (fun d e => d.update e.1 e.2 fun _ => e.2) byNode).get? node = byNode.get? node := by
  induction es generalizing byNode with
  | nil => rfl
  | cons e es ih =>
      rw [List.map_cons, List.mem_cons, not_or] at h
      rw [List.foldl_cons, ih h.2, Dict.get?_update_ne _ _ _ h.1]

/-- The merge of a node that is there. -/
theorem get?_merge_some {discovered : List (Str × ConnectivityTag)} {byNode : Dict Str ConnectivityTag} {node : Str}
    {kept : ConnectivityTag} (hkept : byNode.get? node = some kept) :
    ∃ merged, (discovered.foldl (fun d tag => d.update tag.1 tag.2 fun kept =>
        ⟨tag.2.browsePath, tag.2.displayName, kept.mqttTopic, true⟩) byNode).get? node = some merged ∧
      merged.mqttTopic = kept.mqttTopic ∧
      merged.subscribed = (kept.subscribed || decide (node ∈ discovered.map Prod.fst)) := by
  induction discovered generalizing byNode kept with
  | nil => exact ⟨kept, hkept, rfl, (Bool.or_false _).symm⟩
  | cons tag discovered ih =>
      rw [List.foldl_cons]
      rcases eq_or_ne node tag.1 with rfl | hne
      · obtain ⟨merged, hmerged, htopic, hsub⟩ :=
          @ih (byNode.update tag.1 tag.2 fun kept => ⟨tag.2.browsePath, tag.2.displayName, kept.mqttTopic, true⟩)
            ⟨tag.2.browsePath, tag.2.displayName, kept.mqttTopic, true⟩
            (by rw [Dict.get?_update_self, hkept]; rfl)
        refine ⟨merged, hmerged, htopic, ?_⟩
        have hmem : tag.1 ∈ (tag :: discovered).map Prod.fst := List.mem_cons_self
        rw [hsub, Bool.true_or, decide_eq_true hmem, Bool.or_true]
      · obtain ⟨merged, hmerged, htopic, hsub⟩ :=
          @ih (byNode.update tag.1 tag.2 fun kept => ⟨tag.2.browsePath, tag.2.displayName, kept.mqttTopic, true⟩) kept
            (by rw [Dict.get?_update_ne _ _ _ hne, hkept])
        refine ⟨merged, hmerged, htopic, ?_⟩
        rw [hsub, List.map_cons]
        simp only [List.mem_cons, hne, false_or]

/-- The merge of a node that is new takes the topic it is first found with. -/
theorem get?_merge_none {discovered : List (Str × ConnectivityTag)} {byNode : Dict Str ConnectivityTag} {node : Str}
    (hnone : byNode.get? node = none) :
    ((discovered.foldl (fun d tag => d.update tag.1 tag.2 fun kept =>
        ⟨tag.2.browsePath, tag.2.displayName, kept.mqttTopic, true⟩) byNode).get? node).map
        (fun merged => (merged.mqttTopic, merged.subscribed)) =
      (discovered.find? fun t => t.1 = node).map fun t => (t.2.mqttTopic, true) := by
  induction discovered generalizing byNode with
  | nil =>
      rw [List.foldl_nil, hnone]
      rfl
  | cons tag discovered ih =>
      rw [List.foldl_cons, List.find?_cons]
      rcases eq_or_ne node tag.1 with rfl | hne
      · obtain ⟨merged, hmerged, htopic, hsub⟩ := @get?_merge_some discovered
          (byNode.update tag.1 tag.2 fun kept => ⟨tag.2.browsePath, tag.2.displayName, kept.mqttTopic, true⟩) tag.1
          ⟨tag.2.browsePath, tag.2.displayName, tag.2.mqttTopic, true⟩
          (by rw [Dict.get?_update_self, hnone]; rfl)
        rw [hmerged, decide_eq_true rfl, Option.map_some, Option.map_some, htopic, hsub, Bool.true_or]
      · rw [decide_eq_false (Ne.symm hne)]
        exact ih (by rw [Dict.get?_update_ne _ _ _ hne, hnone])

/-- The tags of the server after a discovery that are subscribed. -/
theorem on_replace (serverId : Str) (tags : List (Str × ConnectivityTag)) {server : ConnectivityServer}
    (hserver : c.servers.get? serverId = some server) (node topic : Str) :
    (c.replaceSubscribedTags serverId tags).On (serverId, node) topic ↔
      c.On (serverId, node) topic ∨ c.Arrives serverId tags node topic := by
  have hsome : (c.servers.get? serverId).isNone = false := by
    rw [hserver]
    rfl
  rw [Catalog.replaceSubscribedTags, hsome, if_neg Bool.false_ne_true]
  obtain ⟨hkeep, hput⟩ := get?_putMerged serverId (mergeSpecs (c.tagsOf serverId) tags).nodup c.tags (serverId, node)
  have hentry : ∀ e, (mergeSpecs (c.tagsOf serverId) tags).get? node = some e →
      ∃ tag, ((mergeSpecs (c.tagsOf serverId) tags).entries.foldl (putMerged serverId) c.tags).get? (serverId, node) =
        some tag ∧ tag.subscribed = e.subscribed ∧
          tag.mqttTopic = ((c.tags.get? (serverId, node)).map (·.mqttTopic)).getD e.mqttTopic :=
    fun e he => hput e (Dict.mem_of_get? he) rfl
  cases hstored : c.tags.get? (serverId, node) with
  | none =>
      have hnew : node ∉ (c.tagsOf serverId).map Prod.fst := by
        intro hmem
        obtain ⟨t, ht, rfl⟩ := List.mem_map.mp hmem
        rw [mem_tagsOf.mp ht] at hstored
        cases hstored
      have hempty : ((c.tagsOf serverId).foldl (fun d e => d.update e.1 e.2 fun _ => e.2) Dict.empty).get? node = none :=
        (get?_foldl_update_of_notMem hnew _).trans rfl
      have hmerge := @get?_merge_none tags _ node hempty
      have hold : ¬ c.On (serverId, node) topic := by
        rintro ⟨tag, htag, _⟩
        rw [hstored] at htag
        cases htag
      rw [or_iff_right hold]
      cases hfind : tags.find? fun t => t.1 = node with
      | none =>
          rw [hfind] at hmerge
          have hgone : (mergeSpecs (c.tagsOf serverId) tags).get? node = none := Option.map_eq_none_iff.mp hmerge
          have hkept := hkeep (.inr fun hmem => Dict.get?_eq_none.mp hgone hmem)
          constructor
          · rintro ⟨tag, htag, _⟩
            cases htag.symm.trans (hkept.trans hstored)
          · rintro (⟨_, tag, htag, _⟩ | ⟨stored, htag, _⟩)
            · cases hfind.symm.trans htag
            · cases hstored.symm.trans htag
      | some first =>
          rw [hfind] at hmerge
          obtain ⟨merged, hmerged, hpair⟩ := Option.map_eq_some_iff.mp hmerge
          obtain ⟨tag, htag, hsub, htopic⟩ := hentry merged hmerged
          rw [hstored] at htopic
          have htopic : tag.mqttTopic = first.2.mqttTopic := htopic.trans (congrArg Prod.fst hpair)
          have hsub : tag.subscribed = true := hsub.trans (congrArg Prod.snd hpair)
          constructor
          · rintro ⟨found, hfound, _, rfl⟩
            cases htag.symm.trans hfound
            exact .inl ⟨hstored, first, hfind, htopic.symm⟩
          · rintro (⟨_, found, hfound, rfl⟩ | ⟨stored, hfound, _⟩)
            · cases hfind.symm.trans hfound
              exact ⟨tag, htag, hsub, htopic⟩
            · cases hstored.symm.trans hfound
  | some stored =>
      have hmem : (node, stored) ∈ c.tagsOf serverId := mem_tagsOf.mpr hstored
      have hstart := get?_foldl_update (nodup_tagsOf c serverId) hmem Dict.empty
      obtain ⟨merged, hmerged, _, hsubMerged⟩ := @get?_merge_some tags _ node stored hstart
      obtain ⟨tag, htag, hsub, htopic⟩ := hentry merged hmerged
      rw [hstored] at htopic
      have htopic : tag.mqttTopic = stored.mqttTopic := htopic
      rw [hsubMerged] at hsub
      constructor
      · rintro ⟨found, hfound, hfoundSub, rfl⟩
        cases htag.symm.trans hfound
        cases hwas : stored.subscribed with
        | true => exact .inl ⟨stored, hstored, hwas, htopic.symm⟩
        | false =>
            rw [hfoundSub, hwas, Bool.false_or] at hsub
            exact .inr (.inr ⟨stored, hstored, hwas, htopic.symm, of_decide_eq_true hsub.symm⟩)
      · rintro (⟨found, hfound, hfoundSub, rfl⟩ | ⟨hnone, _⟩ | ⟨found, hfound, _, rfl, hnode⟩)
        · cases hstored.symm.trans hfound
          rw [hfoundSub, Bool.true_or] at hsub
          exact ⟨tag, htag, hsub, htopic⟩
        · cases hstored.symm.trans hnone
        · cases hstored.symm.trans hfound
          rw [decide_eq_true hnode, Bool.or_true] at hsub
          exact ⟨tag, htag, hsub, htopic⟩

/-- The tags of other servers are left alone. -/
theorem on_replace_other (serverId : Str) (tags : List (Str × ConnectivityTag)) {key : Str × Str}
    (hkey : key.1 ≠ serverId) (topic : Str) :
    (c.replaceSubscribedTags serverId tags).On key topic ↔ c.On key topic := by
  rw [Catalog.replaceSubscribedTags]
  split
  · exact Iff.rfl
  · rw [Catalog.On, Catalog.On,
      (get?_putMerged serverId (mergeSpecs (c.tagsOf serverId) tags).nodup c.tags key).1 (.inl hkey)]

/-- A discovery keeps topics exclusive exactly when those it subscribes are free. -/
theorem exclusive_replace (h : c.Exclusive) (serverId : Str) (tags : List (Str × ConnectivityTag)) :
    (c.replaceSubscribedTags serverId tags).Exclusive ↔
      ∀ server, c.servers.get? serverId = some server → c.TopicsFree serverId tags := by
  cases hserver : c.servers.get? serverId with
  | none =>
      rw [Catalog.replaceSubscribedTags, hserver]
      exact ⟨fun _ _ hfound => (by cases hfound), fun _ => h⟩
  | some server =>
      have hon := fun node topic => on_replace serverId tags hserver node topic
      have hother := fun (key : Str × Str) (hkey : key.1 ≠ serverId) topic => on_replace_other (c := c) serverId tags hkey topic
      have hkept : ∀ key topic, c.On key topic → (c.replaceSubscribedTags serverId tags).On key topic := by
        rintro ⟨id, node⟩ topic hkey
        rcases eq_or_ne id serverId with rfl | hid
        · exact (hon node topic).mpr (.inl hkey)
        · exact (hother (id, node) hid topic).mpr hkey
      constructor
      · intro hexclusive _ _
        refine ⟨?_, ?_⟩
        · intro node node' topic hblank hnode hnode'
          exact congrArg Prod.snd (hexclusive _ _ topic hblank ((hon node topic).mpr (.inr hnode))
            ((hon node' topic).mpr (.inr hnode')))
        · intro node topic hblank hnode key hkey
          obtain rfl := hexclusive _ _ topic hblank (hkept key topic hkey) ((hon node topic).mpr (.inr hnode))
          obtain ⟨tag, htag, hsub, _⟩ := hkey
          rcases hnode with ⟨hnone, _⟩ | ⟨stored, hstored, hnot, _⟩
          · cases htag.symm.trans hnone
          · cases htag.symm.trans hstored
            cases hsub.symm.trans hnot
      · intro hfree
        obtain ⟨hapart, hfree⟩ := hfree server rfl
        -- where a tag is subscribed now: there before, or brought in
        have hfrom : ∀ key topic, (c.replaceSubscribedTags serverId tags).On key topic →
            c.On key topic ∨ key.1 = serverId ∧ c.Arrives serverId tags key.2 topic := by
          rintro ⟨id, node⟩ topic hkey
          rcases eq_or_ne id serverId with rfl | hid
          · exact ((hon node topic).mp hkey).imp_right fun harrives => ⟨rfl, harrives⟩
          · exact .inl ((hother (id, node) hid topic).mp hkey)
        intro key key' topic hblank hkey hkey'
        rcases hfrom key topic hkey with hold | ⟨hid, harrives⟩
        · rcases hfrom key' topic hkey' with hold' | ⟨_, harrives'⟩
          · exact h key key' topic hblank hold hold'
          · exact absurd hold (hfree key'.2 topic hblank harrives' key)
        · rcases hfrom key' topic hkey' with hold' | ⟨hid', harrives'⟩
          · exact absurd hold' (hfree key.2 topic hblank harrives key')
          · exact Prod.ext (hid.trans hid'.symm) (hapart key.2 key'.2 topic hblank harrives harrives')

/-! ## The other requests -/

theorem Catalog.Exclusive.shrink (h : c.Exclusive) (hon : ∀ key topic, d.On key topic → c.On key topic) :
    d.Exclusive :=
  fun key key' topic hblank hkey hkey' => h key key' topic hblank (hon key topic hkey) (hon key' topic hkey')

/-- A topic that is not taken is on no other tag. -/
theorem not_on_of_free {key : Str × Str} {topic : Str} (hfree : c.topicTaken key topic = false) (hblank : topic ≠ [])
    {key' : Str × Str} (hne : key' ≠ key) : ¬ c.On key' topic := by
  rintro ⟨tag, htag, hsub, rfl⟩
  rw [Catalog.topicTaken, decide_eq_true hblank, Bool.true_and, decide_eq_false_iff_not] at hfree
  refine hfree (List.mem_map.mpr ⟨(key', tag), List.mem_filter.mpr ⟨Dict.mem_of_get? htag, ?_⟩, rfl⟩)
  rw [hsub, decide_eq_true hblank, decide_eq_true hne]
  rfl

/-- One tag written. -/
theorem Catalog.Exclusive.put (h : c.Exclusive) {key : Str × Str} {start : ConnectivityTag}
    {f : ConnectivityTag → ConnectivityTag} (tag : ConnectivityTag) (hf : f ((c.tags.get? key).getD start) = tag)
    (hfree : tag.subscribed = true → tag.mqttTopic ≠ [] → ∀ key', key' ≠ key → ¬ c.On key' tag.mqttTopic) :
    ({ c with tags := c.tags.update key start f } : Catalog).Exclusive := by
  have hself : (c.tags.update key start f).get? key = some tag := by
    rw [Dict.get?_update_self, ← hf]
  have hon : ∀ key' topic, ({ c with tags := c.tags.update key start f } : Catalog).On key' topic →
      key' ≠ key ∧ c.On key' topic ∨ key' = key ∧ tag.subscribed = true ∧ tag.mqttTopic = topic := by
    rintro key' topic ⟨found, hfound, hsub, htopic⟩
    rcases eq_or_ne key' key with rfl | hne
    · cases hself.symm.trans hfound
      exact .inr ⟨rfl, hsub, htopic⟩
    · exact .inl ⟨hne, found, (Dict.get?_update_ne _ _ _ hne).symm.trans hfound, hsub, htopic⟩
  intro key₁ key₂ topic hblank h₁ h₂
  rcases hon key₁ topic h₁ with ⟨hne₁, hold₁⟩ | ⟨rfl, hsub₁, rfl⟩
  · rcases hon key₂ topic h₂ with ⟨_, hold₂⟩ | ⟨rfl, hsub₂, rfl⟩
    · exact h key₁ key₂ topic hblank hold₁ hold₂
    · exact absurd hold₁ (hfree hsub₂ hblank key₁ hne₁)
  · rcases hon key₂ _ h₂ with ⟨hne₂, hold₂⟩ | ⟨rfl, _⟩
    · exact absurd hold₂ (hfree hsub₁ hblank key₂ hne₂)
    · rfl

/-- A request keeps topics exclusive exactly when it is free. -/
theorem exclusive_carryOut (h : c.Exclusive) (call : CatalogCall) :
    (c.carryOut call).Exclusive ↔ c.Free ⟨.request call, true⟩ := by
  cases call with
  | saveServer id server => exact iff_of_true h fun _ => trivial
  | deleteServer id =>
      refine iff_of_true (h.shrink ?_) fun _ => trivial
      rintro key topic ⟨tag, htag, hrest⟩
      rw [Catalog.carryOut, Dict.get?_filter] at htag
      exact ⟨tag, (Option.filter_eq_some_iff.mp htag).1, hrest⟩
  | saveTag serverId nodeId tag =>
      refine iff_of_true ?_ fun _ => trivial
      rw [Catalog.carryOut]
      split
      · exact h
      · next hfree =>
          rw [Bool.not_eq_true, Bool.or_eq_false_iff] at hfree
          exact h.put tag rfl fun _ hblank key' hne => not_on_of_free hfree.2 hblank hne
  | subscribeVariables serverId discovered =>
      have hreplaced := exclusive_replace h serverId (discovered.map DiscoveredTag.spec)
      rw [Catalog.carryOut, mergeDiscovered_eq, Catalog.Free]
      cases hserver : c.servers.get? serverId with
      | none =>
          refine iff_of_true h fun _ server hfound => ?_
          cases hserver.symm.trans hfound
      | some server =>
          rw [Catalog.replaceSubscribedTags, hserver] at hreplaced
          by_cases hopc : server.protocol = opcUa
          · rw [Option.any_some, decide_eq_true hopc, if_pos rfl]
            refine hreplaced.trans ⟨fun hfree _ found hfound _ => ?_, fun hfree found hfound => ?_⟩
            · exact hfree found (hserver.symm.trans hfound)
            · exact hfree rfl server hserver hopc
          · rw [Option.any_some, decide_eq_false hopc, if_neg Bool.false_ne_true]
            refine iff_of_true h fun _ found hfound hprotocol => absurd ?_ hopc
            cases hserver.symm.trans hfound
            exact hprotocol
  | updateTag serverId nodeId displayName mqttTopic =>
      refine iff_of_true ?_ fun _ => trivial
      simp only [Catalog.carryOut]
      split
      · exact h
      · next stored hstored =>
          split
          · exact h
          · next hfree =>
              refine h.put (stored.patched displayName mqttTopic) (by rw [hstored]; rfl) ?_
              intro hsub hblank key' hne hkey'
              cases hpatch : mqttTopic with
              | none =>
                  rw [hpatch] at hblank hkey'
                  exact hne (h key' (serverId, nodeId) stored.mqttTopic hblank hkey' ⟨stored, hstored, hsub, rfl⟩)
              | some topic =>
                  rw [hpatch] at hfree hblank hkey'
                  exact not_on_of_free ((Bool.not_eq_true _).mp hfree) hblank hne hkey'
  | unsubscribeTag serverId nodeId =>
      refine iff_of_true ?_ fun _ => trivial
      simp only [Catalog.carryOut]
      split
      · exact h
      · next stored hstored =>
          exact h.put { stored with subscribed := false } (by rw [hstored]; rfl) fun hsub => by cases hsub

/-- After requests that are free no two subscribed tags have the same topic, and then the requests
that keep it so are the free ones. -/
theorem exclusive_topics {c : Catalog}
    (h : (repositorySystem.restrict fun c request => c.Free request).Reachable c) :
    c.Exclusive ∧ ∀ request, (c.performed request).Exclusive ↔ c.Free request := by
  have hstep : ∀ {c : Catalog}, c.Exclusive → ∀ request, (c.performed request).Exclusive ↔ c.Free request := by
    rintro c hc ⟨call, accepted⟩
    cases accepted with
    | false => exact iff_of_true hc fun hno => by cases hno
    | true =>
        cases call with
        | request call => exact exclusive_carryOut hc call
        | replaceSubscribedTags serverId tags =>
            exact (exclusive_replace hc serverId tags).trans ⟨fun hfree _ => hfree, fun hfree => hfree rfl⟩
  have hexclusive : c.Exclusive := by
    refine System.invariant ?_ ?_ h
    · rintro c rfl key key' topic _ ⟨tag, htag, _⟩
      cases htag
    · rintro c request c' - hc ⟨hfree, rfl⟩
      exact (hstep hc request).mpr hfree
  exact ⟨hexclusive, hstep hexclusive⟩

/-- A discovery of one node on a topic. -/
def discovers (serverId topic : Str) : RepositoryRequest :=
  ⟨.replaceSubscribedTags serverId [(lit "ns=2;s=Pressure", ⟨lit "Press/Pressure", lit "Pressure", topic, true⟩)], true⟩

/-- Two servers of the same make. -/
def twoPlcs : Catalog :=
  (plcCatalog.performed ⟨.request (.saveServer (lit "plc-2") plcServer), true⟩)

/-- A topic discovered on both is on two subscribed tags. -/
theorem discovered_twice_not_exclusive :
    repositorySystem.Reachable
        ((twoPlcs.performed (discovers (lit "plc-1") (lit "Press/Pressure"))).performed
          (discovers (lit "plc-2") (lit "Press/Pressure"))) ∧
      ¬ ((twoPlcs.performed (discovers (lit "plc-1") (lit "Press/Pressure"))).performed
          (discovers (lit "plc-2") (lit "Press/Pressure"))).Exclusive := by
  refine ⟨.step (.step (.step (i := ⟨.request (.saveServer (lit "plc-2") plcServer), true⟩)
    (.step (i := ⟨.request (.saveServer (lit "plc-1") plcServer), true⟩) (.init rfl) rfl) rfl) rfl) rfl, fun h => ?_⟩
  have hsame := h (lit "plc-1", lit "ns=2;s=Pressure") (lit "plc-2", lit "ns=2;s=Pressure") (lit "Press/Pressure")
    (by decide) ⟨_, rfl, rfl, rfl⟩ ⟨_, rfl, rfl, rfl⟩
  exact absurd hsame (by decide)

/-- Of one discovery the topics are its own. -/
theorem discovered_once_exclusive : (plcCatalog.performed (discovers (lit "plc-1") (lit "Press/Pressure"))).Exclusive := by
  have hreach : (repositorySystem.restrict fun c request => c.Free request).Reachable plcCatalog :=
    .step (i := ⟨.request (.saveServer (lit "plc-1") plcServer), true⟩) (.init rfl) ⟨fun _ => trivial, rfl⟩
  have hnone : ∀ key topic, ¬ plcCatalog.On key topic := by
    rintro key topic ⟨tag, htag, _⟩
    cases htag
  refine ((exclusive_topics hreach).2 _).mpr fun _ server _ => ⟨?_, fun _ _ _ _ key => hnone key _⟩
  have hnode : ∀ node topic, plcCatalog.Arrives (lit "plc-1")
      [(lit "ns=2;s=Pressure", ⟨lit "Press/Pressure", lit "Pressure", lit "Press/Pressure", true⟩)] node topic →
      node = lit "ns=2;s=Pressure" := by
    rintro node topic (⟨_, tag, hfind, _⟩ | ⟨stored, hstored, _⟩)
    · have hname : tag.1 = node := by simpa using List.find?_some hfind
      rw [← hname, List.mem_singleton.mp (List.mem_of_find?_eq_some hfind)]
    · cases hstored
  intro node node' topic _ hfirst hsecond
  exact (hnode node topic hfirst).trans (hnode node' topic hsecond).symm

end Uns.Opcua
