/-
# `Opcua.CatalogRuns` — catalogs that their writes leave collectable

The writes of the connectivity catalog one after another: `mutations/connectivity.py` over
`ConnectivityRepository`.  A request that something outside the rules modelled here
refuses (another field, the database, the file of the broker) changes nothing.

`Catalog.Careful` says of a request, in the catalog it is made in, that it brings no blank
topic, no topic with a slash at its ends, no topic that the request itself or a tag it
subscribes again shares with another, and no second server of a name.  After requests
that are careful the collectors are given what they are owed
(`reachable_catalog_collected`).
-/
import UnifiedNamespace.Opcua.Catalog

namespace Uns.Opcua

open Py Lib

/-! ## Requests -/

/-- A variable that the browser finds; its topic is its browse path. -/
structure DiscoveredTag where
  nodeId : Str
  browsePath : Str
  displayName : Str

inductive CatalogCall where
  | saveServer (id : Str) (server : ConnectivityServer)
  | deleteServer (id : Str)
  | saveTag (serverId nodeId : Str) (tag : ConnectivityTag)
  | subscribeVariables (serverId : Str) (discovered : List DiscoveredTag)
  | updateTag (serverId nodeId : Str) (displayName mqttTopic : Option Str)
  | unsubscribeTag (serverId nodeId : Str)

/-- A call, and whether it is carried out when the rules below allow it. -/
structure CatalogRequest where
  call : CatalogCall
  accepted : Bool

/-- The topics of the subscribed tags other than one. -/
def Catalog.subscribedTopics (c : Catalog) (exclude : Str × Str) : List Str :=
  (c.tags.entries.filter fun e => e.2.subscribed && decide (e.2.mqttTopic ≠ []) && decide (e.1 ≠ exclude)).map
    (·.2.mqttTopic)

/-- `assert_unique_mqtt_topic` raises. -/
def Catalog.topicTaken (c : Catalog) (key : Str × Str) (topic : Str) : Bool :=
  decide (topic ≠ []) && decide (topic ∈ c.subscribedTopics key)

/-- `merge_discovered`: a node that is there keeps its topic. -/
def mergeDiscovered (existing : List (Str × ConnectivityTag)) (discovered : List DiscoveredTag) :
    Dict Str ConnectivityTag :=
  let byNode := existing.foldl (fun d e => d.update e.1 e.2 fun _ => e.2) Dict.empty
  discovered.foldl
    (fun d tag => d.update tag.nodeId ⟨tag.browsePath, tag.displayName, tag.browsePath, true⟩ fun kept =>
      ⟨tag.browsePath, tag.displayName, kept.mqttTopic, true⟩) byNode

/-- The insert of `replace_subscribed_tags`; a tag that is there keeps its topic and its name. -/
def putMerged (serverId : Str) (tags : Dict (Str × Str) ConnectivityTag) (e : Str × ConnectivityTag) :
    Dict (Str × Str) ConnectivityTag :=
  tags.update (serverId, e.1) e.2 fun stored =>
    { stored with browsePath := e.2.browsePath, subscribed := e.2.subscribed }

/-- What an update writes over a tag. -/
def ConnectivityTag.patched (displayName mqttTopic : Option Str) (tag : ConnectivityTag) : ConnectivityTag :=
  { tag with
    displayName := displayName.getD tag.displayName
    mqttTopic := mqttTopic.getD tag.mqttTopic }

/-- The catalog after a call; one that raises leaves it as it is. -/
def Catalog.carryOut (c : Catalog) : CatalogCall → Catalog
  | .saveServer id server => { c with servers := c.servers.update id server fun _ => server }
  | .deleteServer id =>
      { servers := c.servers.erase id
        tags := c.tags.filter fun key _ => decide (key.1 ≠ id) }
  | .saveTag serverId nodeId tag =>
      if (c.servers.get? serverId).isNone || c.topicTaken (serverId, nodeId) tag.mqttTopic then c
      else { c with tags := c.tags.update (serverId, nodeId) tag fun _ => tag }
  | .subscribeVariables serverId discovered =>
      if (c.servers.get? serverId).any fun server => server.protocol = opcUa then
        { c with tags := (mergeDiscovered (c.tagsOf serverId) discovered).entries.foldl (putMerged serverId) c.tags }
      else c
  | .updateTag serverId nodeId displayName mqttTopic =>
      match c.tags.get? (serverId, nodeId) with
      | none => c
      | some stored =>
          if mqttTopic.any fun topic => c.topicTaken (serverId, nodeId) topic then c
          else { c with tags := c.tags.update (serverId, nodeId) stored (·.patched displayName mqttTopic) }
  | .unsubscribeTag serverId nodeId =>
      match c.tags.get? (serverId, nodeId) with
      | none => c
      | some stored =>
          { c with tags := c.tags.update (serverId, nodeId) stored fun tag => { tag with subscribed := false } }

def Catalog.next (c : Catalog) (request : CatalogRequest) : Catalog :=
  if request.accepted then c.carryOut request.call else c

def catalogSystem : System Catalog CatalogRequest where
  init c := c = ⟨.empty, .empty⟩
  step c request c' := c' = c.next request

/-! ## Careful requests -/

/-- Nodes and topics that can be the subscribed ones of a server of some name. -/
structure Catalog.Fits (c : Catalog) (id name : Str) (tags : List (Str × Str)) : Prop where
  plain : ∀ t ∈ tags, PlainTopic t.2
  own : ∀ t ∈ tags, ∀ t' ∈ tags, t.2 = t'.2 → t.1 = t'.1
  others : ∀ t ∈ tags, ∀ key tag, c.Collects key tag → key.1 ≠ id → tag.mqttTopic ≠ t.2
  name : tags ≠ [] → ∀ key tag server, c.Collects key tag → key.1 ≠ id →
    c.servers.get? key.1 = some server → server.name ≠ name

/-- The nodes and topics of the tags that are subscribed. -/
def topicsOf (tags : List (Str × ConnectivityTag)) : List (Str × Str) :=
  (tags.filter fun t => t.2.subscribed).map fun t => (t.1, t.2.mqttTopic)

/-- What a request brings into the catalog can be collected with what is there. -/
def Catalog.Careful (c : Catalog) (request : CatalogRequest) : Prop :=
  request.accepted = true → match request.call with
  | .saveServer id server => server.protocol = opcUa → c.Fits id server.name (topicsOf (c.tagsOf id))
  | .saveTag serverId _ tag => tag.subscribed = true → ∀ server, c.servers.get? serverId = some server →
      server.protocol = opcUa → PlainTopic tag.mqttTopic ∧ ∀ key tag other, c.Collects key tag →
        key.1 ≠ serverId → c.servers.get? key.1 = some other → other.name ≠ server.name
  | .subscribeVariables serverId discovered => ∀ server, c.servers.get? serverId = some server →
      c.Fits serverId server.name (topicsOf (mergeDiscovered (c.tagsOf serverId) discovered).entries)
  | .updateTag serverId nodeId _ mqttTopic => ∀ topic, mqttTopic = some topic → ∀ tag,
      c.Collects (serverId, nodeId) tag → PlainTopic topic
  | _ => True

section Steps

variable {c d : Catalog}

/-- Fewer tags to collect. -/
theorem Catalog.Collectable.shrink (h : c.Collectable)
    (hcollects : ∀ key tag, d.Collects key tag → c.Collects key tag)
    (hservers : ∀ key tag, d.Collects key tag → d.servers.get? key.1 = c.servers.get? key.1) : d.Collectable := by
  refine ⟨fun key tag hd => h.plain key tag (hcollects key tag hd), ?_, ?_⟩
  · intro key key' tag tag' hd hd'
    exact h.topics key key' tag tag' (hcollects _ _ hd) (hcollects _ _ hd')
  · intro key key' tag tag' server server' hd hd' hserver hserver'
    rw [hservers _ _ hd] at hserver
    rw [hservers _ _ hd'] at hserver'
    exact h.names key key' tag tag' server server' (hcollects _ _ hd) (hcollects _ _ hd') hserver hserver'

/-- Other tags of one server. -/
theorem Catalog.Collectable.replaced (h : c.Collectable) {id name : Str} {tags : List (Str × Str)}
    (hfits : c.Fits id name tags)
    (hothers : ∀ key tag, key.1 ≠ id → d.Collects key tag →
      c.Collects key tag ∧ d.servers.get? key.1 = c.servers.get? key.1)
    (hown : ∀ key tag, key.1 = id → d.Collects key tag → (key.2, tag.mqttTopic) ∈ tags ∧
      ∀ server, d.servers.get? id = some server → server.name = name) : d.Collectable := by
  refine ⟨?_, ?_, ?_⟩
  · intro key tag hd
    by_cases hid : key.1 = id
    · exact hfits.plain _ (hown key tag hid hd).1
    · exact h.plain key tag (hothers key tag hid hd).1
  · intro key key' tag tag' hd hd' heq
    by_cases hid : key.1 = id
    · have hmem := (hown key tag hid hd).1
      by_cases hid' : key'.1 = id
      · have hnode := hfits.own _ hmem _ (hown key' tag' hid' hd').1 heq
        exact Prod.ext (hid.trans hid'.symm) hnode
      · exact absurd heq.symm (hfits.others _ hmem key' tag' (hothers key' tag' hid' hd').1 hid')
    · by_cases hid' : key'.1 = id
      · exact absurd heq (hfits.others _ (hown key' tag' hid' hd').1 key tag (hothers key tag hid hd).1 hid)
      · exact h.topics key key' tag tag' (hothers _ _ hid hd).1 (hothers _ _ hid' hd').1 heq
  · intro key key' tag tag' server server' hd hd' hserver hserver' hname
    by_cases hid : key.1 = id
    · obtain ⟨hmem, hnamed⟩ := hown key tag hid hd
      by_cases hid' : key'.1 = id
      · exact hid.trans hid'.symm
      · obtain ⟨hc', hsame⟩ := hothers key' tag' hid' hd'
        rw [hsame] at hserver'
        rw [hid] at hserver
        rw [hnamed server hserver] at hname
        exact absurd hname.symm (hfits.name (List.ne_nil_of_mem hmem) key' tag' server' hc' hid' hserver')
    · obtain ⟨hc, hsame⟩ := hothers key tag hid hd
      rw [hsame] at hserver
      by_cases hid' : key'.1 = id
      · obtain ⟨hmem, hnamed⟩ := hown key' tag' hid' hd'
        rw [hid'] at hserver'
        rw [hnamed server' hserver'] at hname
        exact absurd hname (hfits.name (List.ne_nil_of_mem hmem) key tag server hc hid hserver)
      · obtain ⟨hc', hsame'⟩ := hothers key' tag' hid' hd'
        rw [hsame'] at hserver'
        exact h.names key key' tag tag' server server' hc hc' hserver hserver' hname

/-- One tag written. -/
theorem Catalog.Collectable.with_tag (h : c.Collectable) (place : Str × Str)
    (hservers : d.servers = c.servers)
    (hothers : ∀ key tag, key ≠ place → d.Collects key tag → c.Collects key tag)
    (hnew : ∀ tag, d.Collects place tag → PlainTopic tag.mqttTopic ∧
      (∀ key tag', key ≠ place → c.Collects key tag' → tag'.mqttTopic ≠ tag.mqttTopic) ∧
      ∀ key tag' server server', c.Collects key tag' → key.1 ≠ place.1 → c.servers.get? key.1 = some server →
        c.servers.get? place.1 = some server' → server.name ≠ server'.name) : d.Collectable := by
  refine ⟨?_, ?_, ?_⟩
  · intro key tag hd
    by_cases hat : key = place
    · rw [hat] at hd
      exact (hnew tag hd).1
    · exact h.plain key tag (hothers key tag hat hd)
  · intro key key' tag tag' hd hd' heq
    by_cases hat : key = place
    · by_cases hat' : key' = place
      · rw [hat, hat']
      · rw [hat] at hd
        exact absurd heq.symm ((hnew tag hd).2.1 key' tag' hat' (hothers _ _ hat' hd'))
    · by_cases hat' : key' = place
      · rw [hat'] at hd'
        exact absurd heq ((hnew tag' hd').2.1 key tag hat (hothers _ _ hat hd))
      · exact h.topics key key' tag tag' (hothers _ _ hat hd) (hothers _ _ hat' hd') heq
  · intro key key' tag tag' server server' hd hd' hserver hserver' hname
    rw [hservers] at hserver hserver'
    by_cases hat : key = place
    · subst hat
      by_cases hat' : key' = key
      · rw [hat']
      · by_contra hne
        exact (hnew tag hd).2.2 key' tag' server' server (hothers _ _ hat' hd') (Ne.symm hne) hserver' hserver
          hname.symm
    · by_cases hat' : key' = place
      · subst hat'
        by_contra hne
        exact (hnew tag' hd').2.2 key tag server server' (hothers _ _ hat hd) hne hserver hserver' hname
      · exact h.names key key' tag tag' server server' (hothers _ _ hat hd) (hothers _ _ hat' hd') hserver
          hserver' hname

theorem mem_topicsOf {tags : List (Str × ConnectivityTag)} {t : Str × Str} :
    t ∈ topicsOf tags ↔ ∃ tag, (t.1, tag) ∈ tags ∧ tag.subscribed = true ∧ tag.mqttTopic = t.2 := by
  rw [topicsOf, List.mem_map]
  constructor
  · rintro ⟨e, he, rfl⟩
    obtain ⟨hmem, hsub⟩ := List.mem_filter.mp he
    exact ⟨e.2, hmem, hsub, rfl⟩
  · rintro ⟨tag, hmem, hsub, htopic⟩
    exact ⟨(t.1, tag), List.mem_filter.mpr ⟨hmem, hsub⟩, Prod.ext rfl htopic⟩

theorem mem_tagsOf {id : Str} {t : Str × ConnectivityTag} :
    t ∈ c.tagsOf id ↔ c.tags.get? (id, t.1) = some t.2 := by
  rw [Catalog.tagsOf, List.mem_map, Dict.get?_eq_some]
  constructor
  · rintro ⟨⟨⟨i, n⟩, tag⟩, he, rfl⟩
    obtain ⟨hmem, hid⟩ := List.mem_filter.mp he
    obtain rfl : i = id := of_decide_eq_true hid
    exact hmem
  · intro hmem
    exact ⟨((id, t.1), t.2), List.mem_filter.mpr ⟨hmem, decide_eq_true rfl⟩, rfl⟩

theorem nodup_tagsOf (c : Catalog) (id : Str) : ((c.tagsOf id).map Prod.fst).Nodup := by
  have hentries : c.tags.entries.Nodup := c.tags.nodup.of_map _
  rw [Catalog.tagsOf, List.map_map]
  refine (hentries.filter _).map_on ?_
  rintro ⟨⟨i, n⟩, t⟩ hx ⟨⟨j, m⟩, u⟩ hy heq
  obtain ⟨htx, hi⟩ := List.mem_filter.mp hx
  obtain ⟨hty, hj⟩ := List.mem_filter.mp hy
  have hi : i = id := of_decide_eq_true hi
  have hj : j = id := of_decide_eq_true hj
  have hn : n = m := heq
  subst hi hj hn
  rw [Option.some.inj ((Dict.get?_eq_some.mpr htx).symm.trans (Dict.get?_eq_some.mpr hty))]

/-- A topic that is free is on no other tag to be collected. -/
theorem not_collected_of_free {key : Str × Str} {topic : Str} (hfree : c.topicTaken key topic = false)
    (hblank : topic ≠ []) {key' : Str × Str} {tag : ConnectivityTag} (hne : key' ≠ key)
    (hcollects : c.Collects key' tag) : tag.mqttTopic ≠ topic := by
  rintro rfl
  rw [Catalog.topicTaken, decide_eq_true hblank, Bool.true_and, decide_eq_false_iff_not] at hfree
  refine hfree (List.mem_map.mpr ⟨(key', tag), List.mem_filter.mpr ⟨Dict.mem_of_get? hcollects.1, ?_⟩, rfl⟩)
  rw [hcollects.2.1, decide_eq_true hblank, decide_eq_true hne]
  rfl

/-! ## Discoveries -/

theorem get?_foldl_update {es : List (Str × ConnectivityTag)} (hes : (es.map Prod.fst).Nodup)
    {e : Str × ConnectivityTag} (he : e ∈ es) (d : Dict Str ConnectivityTag) :
    (es.foldl (fun d e => d.update e.1 e.2 fun _ => e.2) d).get? e.1 = some e.2 := by
  induction es generalizing d with
  | nil => cases he
  | cons x es ih =>
      rw [List.map_cons, List.nodup_cons] at hes
      rw [List.foldl_cons]
      by_cases hlater : e ∈ es
      · exact ih hes.2 hlater _
      · obtain rfl := (List.mem_cons.mp he).resolve_right hlater
        have hkeep : ∀ (es : List (Str × ConnectivityTag)) (d : Dict Str ConnectivityTag), e.1 ∉ es.map Prod.fst →
            (es.foldl (fun d e => d.update e.1 e.2 fun _ => e.2) d).get? e.1 = d.get? e.1 := by
          intro es
          induction es with
          | nil => exact fun _ _ => rfl
          | cons y es ih =>
              intro d hnot
              rw [List.map_cons, List.mem_cons, not_or] at hnot
              rw [List.foldl_cons, ih _ hnot.2, Dict.get?_update_ne _ _ _ hnot.1]
        rw [hkeep es _ hes.1, Dict.get?_update_self]

/-- A tag that is there keeps its topic in the merge. -/
theorem topic_mergeDiscovered {existing : List (Str × ConnectivityTag)} (hnodup : (existing.map Prod.fst).Nodup)
    {e : Str × ConnectivityTag} (he : e ∈ existing) (discovered : List DiscoveredTag) :
    ∃ merged, (mergeDiscovered existing discovered).get? e.1 = some merged ∧
      merged.mqttTopic = e.2.mqttTopic := by
  rw [mergeDiscovered]
  have hstart : ∃ merged, (existing.foldl (fun d e => d.update e.1 e.2 fun _ => e.2) Dict.empty).get? e.1 =
      some merged ∧ merged.mqttTopic = e.2.mqttTopic := ⟨e.2, get?_foldl_update hnodup he _, rfl⟩
  generalize existing.foldl (fun d e => d.update e.1 e.2 fun _ => e.2) Dict.empty = byNode at hstart
  induction discovered generalizing byNode with
  | nil => exact hstart
  | cons tag discovered ih =>
      rw [List.foldl_cons]
      refine ih _ ?_
      obtain ⟨merged, hget, htopic⟩ := hstart
      by_cases hnode : e.1 = tag.nodeId
      · rw [← hnode, Dict.get?_update_self, hget]
        exact ⟨_, rfl, htopic⟩
      · rw [Dict.get?_update_ne _ _ _ hnode]
        exact ⟨merged, hget, htopic⟩

/-- What the inserts leave of a tag. -/
theorem get?_putMerged (serverId : Str) {es : List (Str × ConnectivityTag)} (hes : (es.map Prod.fst).Nodup)
    (tags : Dict (Str × Str) ConnectivityTag) (key : Str × Str) :
    ((key.1 ≠ serverId ∨ key.2 ∉ es.map Prod.fst) →
      (es.foldl (putMerged serverId) tags).get? key = tags.get? key) ∧
    ∀ e, (key.2, e) ∈ es → key.1 = serverId → ∃ tag, (es.foldl (putMerged serverId) tags).get? key = some tag ∧
      tag.subscribed = e.subscribed ∧ tag.mqttTopic = ((tags.get? key).map (·.mqttTopic)).getD e.mqttTopic := by
  induction es generalizing tags with
  | nil => exact ⟨fun _ => rfl, fun _ h => nomatch h⟩
  | cons x es ih =>
      rw [List.map_cons, List.nodup_cons] at hes
      obtain ⟨hkeep, hput⟩ := ih hes.2 (putMerged serverId tags x)
      have hother : key ≠ (serverId, x.1) → (putMerged serverId tags x).get? key = tags.get? key :=
        fun hne => Dict.get?_update_ne _ _ _ hne
      refine ⟨?_, ?_⟩
      · intro hnot
        rw [List.map_cons, List.mem_cons, not_or] at hnot
        rw [List.foldl_cons, hkeep (hnot.imp_right And.right), hother]
        rintro rfl
        rcases hnot with hid | ⟨hnode, -⟩
        · exact hid rfl
        · exact hnode rfl
      · intro e he hid
        rw [List.foldl_cons]
        rcases List.mem_cons.mp he with rfl | he
        · have hkey : key = (serverId, key.2) := Prod.ext hid rfl
          rw [hkeep (.inr hes.1), putMerged, ← hkey, Dict.get?_update_self]
          cases htag : tags.get? key with
          | none => exact ⟨_, rfl, rfl, rfl⟩
          | some stored => exact ⟨_, rfl, rfl, rfl⟩
        · obtain ⟨tag, hget, hsub, htopic⟩ := hput e he hid
          refine ⟨tag, hget, hsub, ?_⟩
          rw [htopic, hother]
          rintro rfl
          exact hes.1 (List.mem_map.mpr ⟨_, he, rfl⟩)

/-- The tags that a discovery leaves subscribed are those of the merge. -/
theorem topics_of_discovery {id : Str} {discovered : List DiscoveredTag} {key : Str × Str}
    {tag : ConnectivityTag} (hid : key.1 = id)
    (hget : ((mergeDiscovered (c.tagsOf id) discovered).entries.foldl (putMerged id) c.tags).get? key = some tag)
    (hsub : tag.subscribed = true) :
    (key.2, tag.mqttTopic) ∈ topicsOf (mergeDiscovered (c.tagsOf id) discovered).entries := by
  obtain ⟨hkeep, hput⟩ := get?_putMerged id (mergeDiscovered (c.tagsOf id) discovered).nodup c.tags key
  have hkept : ∀ stored, c.tags.get? key = some stored → ∃ merged,
      (mergeDiscovered (c.tagsOf id) discovered).get? key.2 = some merged ∧
        merged.mqttTopic = stored.mqttTopic := by
    intro stored hstored
    have hkey : key = (id, key.2) := Prod.ext hid rfl
    rw [hkey] at hstored
    exact topic_mergeDiscovered (nodup_tagsOf c id) (e := (key.2, stored)) (mem_tagsOf.mpr hstored) discovered
  by_cases hmem : key.2 ∈ (mergeDiscovered (c.tagsOf id) discovered).entries.map Prod.fst
  · obtain ⟨⟨node, e⟩, he, hnode⟩ := List.mem_map.mp hmem
    obtain rfl : node = key.2 := hnode
    obtain ⟨tag', hget', hsub', htopic'⟩ := hput e he hid
    rw [hget] at hget'
    cases hget'
    refine mem_topicsOf.mpr ⟨e, he, hsub'.symm.trans hsub, ?_⟩
    rw [htopic']
    cases hstored : c.tags.get? key with
    | none => rfl
    | some stored =>
        obtain ⟨merged, hmerged, htopic⟩ := hkept stored hstored
        rw [Dict.get?_eq_some.mpr he] at hmerged
        cases hmerged
        exact htopic
  · rw [hkeep (.inr hmem)] at hget
    obtain ⟨merged, hmerged, -⟩ := hkept tag hget
    exact absurd (List.mem_map_of_mem (f := Prod.fst) (Dict.mem_of_get? hmerged)) hmem

/-! ## A careful request -/

theorem collectable_saveServer (h : c.Collectable) {id : Str} {server : ConnectivityServer}
    (hcareful : server.protocol = opcUa → c.Fits id server.name (topicsOf (c.tagsOf id))) :
    (c.carryOut (.saveServer id server)).Collectable := by
  have hself : (c.carryOut (.saveServer id server)).servers.get? id = some server := by
    rw [Catalog.carryOut, Dict.get?_update_self]
  have hother : ∀ {j}, j ≠ id → (c.carryOut (.saveServer id server)).servers.get? j = c.servers.get? j :=
    fun hj => Dict.get?_update_ne _ _ _ hj
  have hcollects : ∀ key tag, key.1 ≠ id → (c.carryOut (.saveServer id server)).Collects key tag →
      c.Collects key tag ∧ (c.carryOut (.saveServer id server)).servers.get? key.1 = c.servers.get? key.1 := by
    rintro key tag hid ⟨hget, hsub, found, hfound, hopc⟩
    rw [hother hid] at hfound
    exact ⟨⟨hget, hsub, found, hfound, hopc⟩, hother hid⟩
  by_cases hopc : server.protocol = opcUa
  · refine h.replaced (hcareful hopc) hcollects ?_
    intro key tag hid hd
    refine ⟨mem_topicsOf.mpr ⟨tag, mem_tagsOf.mpr ?_, hd.2.1, rfl⟩, ?_⟩
    · rw [← hid]
      exact hd.1
    · intro found hfound
      rw [hself] at hfound
      cases hfound
      rfl
  · have hnone : ∀ key tag, (c.carryOut (.saveServer id server)).Collects key tag → key.1 ≠ id := by
      rintro key tag ⟨-, -, found, hfound, hfoundOpc⟩ hid
      rw [hid, hself] at hfound
      cases hfound
      exact hopc hfoundOpc
    exact h.shrink (fun key tag hd => (hcollects key tag (hnone key tag hd) hd).1)
      fun key tag hd => (hcollects key tag (hnone key tag hd) hd).2

theorem collectable_deleteServer (h : c.Collectable) {id : Str} :
    (c.carryOut (.deleteServer id)).Collectable := by
  have hfields : ∀ key tag, (c.carryOut (.deleteServer id)).Collects key tag →
      c.Collects key tag ∧ (c.carryOut (.deleteServer id)).servers.get? key.1 = c.servers.get? key.1 := by
    rintro key tag ⟨hget, hsub, found, hfound, hopc⟩
    have hid : key.1 ≠ id := by
      intro hid
      rw [hid] at hfound
      rw [Catalog.carryOut, Dict.get?_erase_self] at hfound
      cases hfound
    have hservers : (c.carryOut (.deleteServer id)).servers.get? key.1 = c.servers.get? key.1 :=
      Dict.get?_erase_ne _ hid
    rw [hservers] at hfound
    rw [Catalog.carryOut, Dict.get?_filter] at hget
    exact ⟨⟨(Option.filter_eq_some_iff.mp hget).1, hsub, found, hfound, hopc⟩, hservers⟩
  exact h.shrink (fun key tag hd => (hfields key tag hd).1) fun key tag hd => (hfields key tag hd).2

/-- A tag written under a topic that is free. -/
theorem collectable_put (h : c.Collectable) {key : Str × Str} {start : ConnectivityTag}
    {f : ConnectivityTag → ConnectivityTag} (tag : ConnectivityTag)
    (hf : f ((c.tags.get? key).getD start) = tag)
    (hnew : tag.subscribed = true → ∀ server, c.servers.get? key.1 = some server → server.protocol = opcUa →
      PlainTopic tag.mqttTopic ∧ (∀ key' tag', key' ≠ key → c.Collects key' tag' →
        tag'.mqttTopic ≠ tag.mqttTopic) ∧
        ∀ key' tag' other, c.Collects key' tag' → key'.1 ≠ key.1 → c.servers.get? key'.1 = some other →
          other.name ≠ server.name) :
    ({ c with tags := c.tags.update key start f } : Catalog).Collectable := by
  refine h.with_tag key rfl ?_ ?_
  · rintro key' tag' hne ⟨hget, hsub, hserver⟩
    rw [Dict.get?_update_ne _ _ _ hne] at hget
    exact ⟨hget, hsub, hserver⟩
  · rintro tag' ⟨hget, hsub, server, hserver, hopc⟩
    have hwritten : (c.tags.update key start f).get? key = some tag := by
      rw [Dict.get?_update_self, ← hf]
    have hsame : tag = tag' := Option.some.inj (hwritten.symm.trans hget)
    subst hsame
    obtain ⟨hplain, htopics, hnames⟩ := hnew hsub server hserver hopc
    refine ⟨hplain, htopics, ?_⟩
    intro key' tag' other server' hcollects hne hother hserver'
    have hsame : server = server' := Option.some.inj (hserver.symm.trans hserver')
    subst hsame
    exact hnames key' tag' other hcollects hne hother

theorem collectable_carryOut (h : c.Collectable) {call : CatalogCall} (hcareful : c.Careful ⟨call, true⟩) :
    (c.carryOut call).Collectable := by
  have hcareful := hcareful rfl
  cases call with
  | saveServer id server => exact collectable_saveServer h hcareful
  | deleteServer id => exact collectable_deleteServer h
  | saveTag serverId nodeId tag =>
      rw [Catalog.carryOut]
      split
      · exact h
      · rename_i hfree
        rw [Bool.not_eq_true, Bool.or_eq_false_iff] at hfree
        refine collectable_put h _ rfl ?_
        intro hsub server hserver hopc
        obtain ⟨hplain, hnames⟩ := hcareful hsub server hserver hopc
        refine ⟨hplain, ?_, hnames⟩
        exact fun key' tag' hne hcollects => not_collected_of_free hfree.2 hplain.1 hne hcollects
  | subscribeVariables serverId discovered =>
      rw [Catalog.carryOut]
      split
      · rename_i hopc
        obtain ⟨server, hserver, hprotocol⟩ := (Option.any_eq_true _ _).mp hopc
        refine h.replaced (hcareful server hserver) ?_ ?_
        · rintro key tag hid ⟨hget, hsub, hfound⟩
          rw [(get?_putMerged _ (mergeDiscovered _ _).nodup c.tags key).1 (.inl hid)] at hget
          exact ⟨⟨hget, hsub, hfound⟩, rfl⟩
        · rintro key tag hid ⟨hget, hsub, -⟩
          refine ⟨topics_of_discovery hid hget hsub, ?_⟩
          intro found hfound
          rw [Option.some.inj (hfound.symm.trans hserver)]
      · exact h
  | updateTag serverId nodeId displayName mqttTopic =>
      simp only [Catalog.carryOut]
      split
      · exact h
      · rename_i stored hstored
        split
        · exact h
        · rename_i hfree
          refine collectable_put h (stored.patched displayName mqttTopic) ?_ ?_
          · rw [hstored]
            rfl
          · intro hsub server hserver hopc
            have hcollects : c.Collects (serverId, nodeId) stored := ⟨hstored, hsub, server, hserver, hopc⟩
            refine ⟨?_, ?_, ?_⟩
            · cases hpatch : mqttTopic with
              | none =>
                  show PlainTopic stored.mqttTopic
                  exact h.plain _ _ hcollects
              | some topic => exact hcareful topic hpatch stored hcollects
            · intro key' tag' hne hcollects' heq
              cases hpatch : mqttTopic with
              | none =>
                  rw [hpatch] at heq
                  exact hne (h.topics _ _ _ _ hcollects' hcollects heq)
              | some topic =>
                  rw [hpatch] at heq hfree
                  exact not_collected_of_free ((Bool.not_eq_true _).mp hfree)
                    (hcareful topic hpatch stored hcollects).1 hne hcollects' heq
            · intro key' tag' other hcollects' hne hother hname
              exact hne (h.names _ _ _ _ _ _ hcollects' hcollects hother hserver hname)
  | unsubscribeTag serverId nodeId =>
      simp only [Catalog.carryOut]
      split
      · exact h
      · rename_i stored hstored
        refine collectable_put h { stored with subscribed := false } ?_ ?_
        · rw [hstored]
          rfl
        · intro hsub
          cases hsub

end Steps

/-- A reachable catalog is collected exactly when it is collectable, and after careful requests it
always is. -/
theorem reachable_catalog_collected (c : Catalog) :
    (catalogSystem.Reachable c → (c.Collected ↔ c.Collectable)) ∧
      ((catalogSystem.restrict fun c request => c.Careful request).Reachable c → c.Collected) := by
  refine ⟨fun _ => collected_iff, fun h => collected_iff.mpr ?_⟩
  refine System.invariant (I := Catalog.Collectable) ?_ ?_ h
  · rintro c rfl
    have hnone : ∀ key tag, ¬ Catalog.Collects ⟨.empty, .empty⟩ key tag := by
      rintro key tag ⟨hget, -⟩
      cases hget
    refine ⟨?_, ?_, ?_⟩
    · exact fun key tag hd => absurd hd (hnone key tag)
    · exact fun key _ tag _ hd => absurd hd (hnone key tag)
    · exact fun key _ tag _ _ _ hd => absurd hd (hnone key tag)
  · rintro c ⟨call, accepted⟩ c' - hc ⟨hcareful, rfl⟩
    cases accepted with
    | false => exact hc
    | true => exact collectable_carryOut hc hcareful

def plcServer : ConnectivityServer := ⟨lit "Press PLC", opcUa, lit "opc.tcp://press:4840"⟩

/-- One server. -/
def plcCatalog : Catalog := Catalog.next ⟨.empty, .empty⟩ ⟨.saveServer (lit "plc-1") plcServer, true⟩

theorem reachable_plcCatalog : catalogSystem.Reachable plcCatalog := .step (.init rfl) rfl

/-- A subscribed tag of it, on a topic. -/
def plcTag (topic : Str) : CatalogRequest :=
  ⟨.saveTag (lit "plc-1") (lit "ns=2;s=Pressure") ⟨lit "Press/Pressure", lit "Pressure", topic, true⟩, true⟩

theorem plcCatalog_collects_nothing (key : Str × Str) (tag : ConnectivityTag) : ¬ plcCatalog.Collects key tag := by
  rintro ⟨hget, -⟩
  cases hget

/-- A tag on a plain topic is collected. -/
theorem plain_tag_collected : (plcCatalog.next (plcTag (lit "Enterprise/Site/Press"))).Collected := by
  refine (reachable_catalog_collected _).2 (.step (i := plcTag (lit "Enterprise/Site/Press"))
    (.step (i := ⟨.saveServer (lit "plc-1") plcServer, true⟩) (.init rfl) ⟨?_, rfl⟩) ⟨?_, rfl⟩)
  · intro _ _
    refine ⟨fun _ h => (nomatch h), fun _ h => (nomatch h), fun _ h => (nomatch h), fun h => absurd rfl h⟩
  · intro _ _ server _ _
    refine ⟨⟨by decide, by decide⟩, ?_⟩
    intro key tag _ hcollects
    exact absurd hcollects (plcCatalog_collects_nothing key tag)

/-- A tag on a blank topic stops the collection. -/
theorem blank_tag_not_collected : ¬ ∀ c, catalogSystem.Reachable c → c.Collected := by
  intro h
  have hcollected := h (plcCatalog.next (plcTag [])) (.step reachable_plcCatalog rfl)
  have hcollects : (plcCatalog.next (plcTag [])).Collects (lit "plc-1", lit "ns=2;s=Pressure")
      ⟨lit "Press/Pressure", lit "Pressure", [], true⟩ :=
    ⟨rfl, rfl, plcServer, rfl, rfl⟩
  exact ((collected_iff.mp hcollected).plain _ _ hcollects).1 rfl

end Uns.Opcua
