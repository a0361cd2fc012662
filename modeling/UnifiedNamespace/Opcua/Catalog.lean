/-
# `Opcua.Catalog` — the connectivity catalog and what is collected from it

The catalog of `uns_model/connectivity.py`, its writes, and the way from it to the
collectors of the OPC UA connector: `catalog.py`, `tag_map.py` and `main.py`.  The
writers keep the topics of subscribed tags apart as they are spelled; the connector
strips slashes, wants a topic for every tag, and gives a collector the bindings that
carry the name of its server.

`Collected` is what the connector owes the catalog, and `Collectable` says of which
catalogs it holds (`collected_iff`).  The order in which the database returns the tags of
a server is the order in which they were first stored.
-/
import UnifiedNamespace.Lib.Dict
import UnifiedNamespace.Lib.Effect
import UnifiedNamespace.Lib.Transition
import UnifiedNamespace.Python.Str

namespace Uns.Opcua

open Py Lib

/-! ## The catalog -/

structure ConnectivityServer where
  name : Str
  protocol : Str
  endpoint : Str

structure ConnectivityTag where
  browsePath : Str
  displayName : Str
  mqttTopic : Str
  subscribed : Bool

/-- The servers by id, and the tags by server and node. -/
structure Catalog where
  servers : Dict Str ConnectivityServer
  tags : Dict (Str × Str) ConnectivityTag

def opcUa : Str := lit "opc_ua"

/-- `list_subscribed_tags`, which returns every tag of the server, with its node. -/
def Catalog.tagsOf (c : Catalog) (serverId : Str) : List (Str × ConnectivityTag) :=
  (c.tags.entries.filter fun e => e.1.1 = serverId).map fun e => (e.1.2, e.2)

/-! ## The connector -/

/-- `value.strip("/")`. -/
def stripSlashes (s : Str) : Str := ((s.dropWhile (· = 47)).reverse.dropWhile (· = 47)).reverse

structure TagConfig where
  nodeId : Str
  asset : Str
  metricPath : Str
  mqttTopic : Str

structure ServerConfig where
  name : Str
  url : Str
  publishingIntervalMs : Nat
  tags : List TagConfig

def defaultPublishingIntervalMs : Nat := 200

/-- The subscribed tags of a server. -/
def Catalog.subscribedTags (c : Catalog) (serverId : Str) : List (Str × ConnectivityTag) :=
  (c.tagsOf serverId).filter fun tag => tag.2.subscribed

/-- What `servers_from_catalog` makes of one server. -/
def Catalog.config (c : Catalog) (serverId : Str) (server : ConnectivityServer) : Option ServerConfig :=
  if server.protocol ≠ opcUa then none
  else if (c.subscribedTags serverId).isEmpty then none
  else
    some {
      name := server.name
      url := server.endpoint
      publishingIntervalMs := defaultPublishingIntervalMs
      tags := (c.subscribedTags serverId).map fun tag => ⟨tag.1, tag.2.mqttTopic, [], tag.2.mqttTopic⟩ }

def Catalog.serversFromCatalog (c : Catalog) : List ServerConfig :=
  c.servers.entries.filterMap fun e => c.config e.1 e.2

structure TagBinding where
  nodeId : Str
  topic : Str
  asset : Str
  metricPath : Str
  equipment : Str
  serverName : Str

/-- A mapping that cannot be right. -/
inductive Conflict where
  | duplicateNode (serverName nodeId : Str) (count : Nat)
  | duplicateTopic (topic : Str) (count : Nat)

inductive BindRaised where
  | emptyAsset
  | conflicts (found : List Conflict)

/-- `derive_topic`. -/
def deriveTopic (asset metricPath : Str) : Except BindRaised Str :=
  if stripSlashes asset = [] then .error .emptyAsset
  else if stripSlashes metricPath = [] then .ok (stripSlashes asset)
  else .ok (stripSlashes asset ++ [47] ++ stripSlashes metricPath)

/-- The text after the last slash. -/
def lastSegment (s : Str) : Str := (s.reverse.takeWhile (· ≠ 47)).reverse

def TagConfig.binding (serverName : Str) (tag : TagConfig) : Except BindRaised TagBinding :=
  (if tag.mqttTopic = [] then deriveTopic tag.asset tag.metricPath
    else .ok (stripSlashes tag.mqttTopic)).map fun topic =>
      { nodeId := tag.nodeId
        topic := topic
        asset := tag.asset
        metricPath := tag.metricPath
        equipment := lastSegment (stripSlashes tag.asset)
        serverName := serverName }

/-- `build_bindings`. -/
def ServerConfig.buildBindings (server : ServerConfig) : Except BindRaised (List TagBinding) :=
  server.tags.mapM (TagConfig.binding server.name)

/-- The values that occur more than once. -/
def repeated {α : Type} [DecidableEq α] (values : List α) : List (α × Nat) :=
  (values.dedup.map fun v => (v, values.count v)).filter fun e => decide (1 < e.2)

def findConflicts (bindings : List TagBinding) : List Conflict :=
  (repeated (bindings.map fun b => (b.serverName, b.nodeId))).map (fun e => .duplicateNode e.1.1 e.1.2 e.2) ++
    (repeated (bindings.map (·.topic))).map fun e => .duplicateTopic e.1 e.2

/-- `build_bindings_for_all`. -/
def buildBindingsForAll (servers : List ServerConfig) : Except BindRaised (List TagBinding) := do
  let bindings := (← servers.mapM ServerConfig.buildBindings).flatten
  if (findConflicts bindings).isEmpty then .ok bindings
  else .error (.conflicts (findConflicts bindings))

/-- The bindings that `run_connector` gives the collector of a server. -/
def collectorBindings (bindings : List TagBinding) (server : ServerConfig) : List TagBinding :=
  bindings.filter fun b => b.serverName = server.name

/-! ## What is owed -/

/-- The binding is of the tag, and on its topic. -/
def TagBinding.Of (b : TagBinding) (tag : Str × ConnectivityTag) : Prop :=
  b.nodeId = tag.1 ∧ (tag.2.mqttTopic ≠ [] → b.topic = tag.2.mqttTopic)

/-- The bindings are built, and each collector is given the subscribed tags of its own server. -/
def Catalog.Collected (c : Catalog) : Prop :=
  ∃ bindings, buildBindingsForAll c.serversFromCatalog = .ok bindings ∧
    ∀ id server config, c.servers.get? id = some server → c.config id server = some config →
      List.Forall₂ TagBinding.Of (collectorBindings bindings config) (c.subscribedTags id)

/-- The tag is subscribed, and of an OPC UA server. -/
def Catalog.Collects (c : Catalog) (key : Str × Str) (tag : ConnectivityTag) : Prop :=
  c.tags.get? key = some tag ∧ tag.subscribed = true ∧
    ∃ server, c.servers.get? key.1 = some server ∧ server.protocol = opcUa

/-- A topic that is not blank and has no slash at its ends. -/
def PlainTopic (topic : Str) : Prop := topic ≠ [] ∧ stripSlashes topic = topic

/-- The tags to be collected have plain topics, each its own, and their servers have names of
their own. -/
structure Catalog.Collectable (c : Catalog) : Prop where
  plain : ∀ key tag, c.Collects key tag → PlainTopic tag.mqttTopic
  topics : ∀ key key' tag tag', c.Collects key tag → c.Collects key' tag' →
    tag.mqttTopic = tag'.mqttTopic → key = key'
  names : ∀ key key' tag tag' server server', c.Collects key tag → c.Collects key' tag' →
    c.servers.get? key.1 = some server → c.servers.get? key'.1 = some server' →
    server.name = server'.name → key.1 = key'.1

section Bindings

variable {c : Catalog}

/-! ## The bindings of a catalog -/

/-- The tags to be collected of one server. -/
def Catalog.itemsOf (c : Catalog) (e : Str × ConnectivityServer) :
    List ((Str × Str) × ConnectivityTag × ConnectivityServer) :=
  if e.2.protocol = opcUa then
    (c.tags.entries.filter fun t => t.1.1 = e.1 ∧ t.2.subscribed = true).map fun t => (t.1, t.2, e.2)
  else []

/-- The tags to be collected, with their servers. -/
def Catalog.items (c : Catalog) : List ((Str × Str) × ConnectivityTag × ConnectivityServer) :=
  c.servers.entries.flatMap c.itemsOf

theorem mem_itemsOf {e : Str × ConnectivityServer} {x : (Str × Str) × ConnectivityTag × ConnectivityServer} :
    x ∈ c.itemsOf e ↔
      (c.tags.get? x.1 = some x.2.1 ∧ x.2.1.subscribed = true) ∧ x.1.1 = e.1 ∧ x.2.2 = e.2 ∧
        e.2.protocol = opcUa := by
  rw [Catalog.itemsOf]
  split
  · rename_i hopc
    rw [List.mem_map]
    constructor
    · rintro ⟨t, ht, rfl⟩
      obtain ⟨hmem, hok⟩ := List.mem_filter.mp ht
      obtain ⟨hid, hsub⟩ := of_decide_eq_true hok
      exact ⟨⟨Dict.get?_eq_some.mpr hmem, hsub⟩, hid, rfl, hopc⟩
    · rintro ⟨⟨hget, hsub⟩, hid, hserver, -⟩
      refine ⟨(x.1, x.2.1), List.mem_filter.mpr ⟨Dict.get?_eq_some.mp hget, decide_eq_true ⟨hid, hsub⟩⟩, ?_⟩
      rw [← hserver]
  · rename_i hopc
    refine ⟨fun h => (by cases h), fun h => absurd h.2.2.2 hopc⟩

theorem mem_items {x : (Str × Str) × ConnectivityTag × ConnectivityServer} :
    x ∈ c.items ↔ c.Collects x.1 x.2.1 ∧ c.servers.get? x.1.1 = some x.2.2 := by
  rw [Catalog.items, List.mem_flatMap, Catalog.Collects]
  constructor
  · rintro ⟨e, he, hx⟩
    obtain ⟨⟨hget, hsub⟩, hid, hserver, hopc⟩ := mem_itemsOf.mp hx
    have hfound : c.servers.get? x.1.1 = some x.2.2 := by
      rw [hid, hserver]
      exact Dict.get?_eq_some.mpr he
    exact ⟨⟨hget, hsub, x.2.2, hfound, by rw [hserver]; exact hopc⟩, hfound⟩
  · rintro ⟨⟨hget, hsub, server, hserver, hopc⟩, hfound⟩
    refine ⟨(x.1.1, x.2.2), Dict.get?_eq_some.mp hfound, mem_itemsOf.mpr ⟨⟨hget, hsub⟩, rfl, rfl, ?_⟩⟩
    rw [hserver] at hfound
    cases hfound
    exact hopc

/-- Each tag is there once. -/
theorem nodup_items (c : Catalog) : c.items.Nodup := by
  rw [Catalog.items, List.nodup_flatMap]
  refine ⟨?_, ?_⟩
  · intro e _
    rw [Catalog.itemsOf]
    split
    · have hentries : c.tags.entries.Nodup := c.tags.nodup.of_map _
      refine (hentries.filter _).map ?_
      rintro ⟨k, t⟩ ⟨k', t'⟩ h
      cases h
      rfl
    · exact List.nodup_nil
  · have hkeys : c.servers.entries.Pairwise fun a b => a.1 ≠ b.1 := List.pairwise_map.mp c.servers.nodup
    refine hkeys.imp ?_
    intro a b hne x hxa hxb
    exact hne ((mem_itemsOf.mp hxa).2.1.symm.trans (mem_itemsOf.mp hxb).2.1)

/-- The binding of a tag whose topic is not blank. -/
def bound (x : (Str × Str) × ConnectivityTag × ConnectivityServer) : TagBinding where
  nodeId := x.1.2
  topic := stripSlashes x.2.1.mqttTopic
  asset := x.2.1.mqttTopic
  metricPath := []
  equipment := lastSegment (stripSlashes x.2.1.mqttTopic)
  serverName := x.2.2.name

theorem binding_eq_ok {x : (Str × Str) × ConnectivityTag × ConnectivityServer} {b : TagBinding} :
    TagConfig.binding x.2.2.name ⟨x.1.2, x.2.1.mqttTopic, [], x.2.1.mqttTopic⟩ = .ok b ↔
      x.2.1.mqttTopic ≠ [] ∧ b = bound x := by
  rw [TagConfig.binding]
  by_cases hblank : x.2.1.mqttTopic = []
  · simp [hblank, deriveTopic, stripSlashes, Except.map]
  · simp only [hblank, if_false, Except.map, Except.ok.injEq, ne_eq, not_false_eq_true, true_and]
    exact eq_comm

theorem forall₂_and_eq {α β : Type} {P : α → Prop} {g : α → β} {as : List α} {bs : List β} :
    List.Forall₂ (fun a b => P a ∧ b = g a) as bs ↔ (∀ a ∈ as, P a) ∧ bs = as.map g := by
  induction as generalizing bs with
  | nil => simp
  | cons a as ih =>
      rw [List.forall₂_cons_left_iff, List.forall_mem_cons, List.map_cons]
      constructor
      · rintro ⟨b, bs', ⟨ha, rfl⟩, hbs, rfl⟩
        obtain ⟨has, rfl⟩ := ih.mp hbs
        exact ⟨⟨ha, has⟩, rfl⟩
      · rintro ⟨⟨ha, has⟩, rfl⟩
        exact ⟨_, _, ⟨ha, rfl⟩, ih.mpr ⟨has, rfl⟩, rfl⟩

theorem itemsOf_eq {e : Str × ConnectivityServer} (hopc : e.2.protocol = opcUa) :
    c.itemsOf e = (c.subscribedTags e.1).map fun t => ((e.1, t.1), t.2, e.2) := by
  rw [Catalog.itemsOf, if_pos hopc, Catalog.subscribedTags, Catalog.tagsOf, List.filter_map,
    List.filter_filter, List.map_map]
  have hfilter : c.tags.entries.filter (fun t => decide (t.1.1 = e.1 ∧ t.2.subscribed = true)) =
      c.tags.entries.filter fun t => ((fun tag : Str × ConnectivityTag => tag.2.subscribed) ∘
        fun e => (e.1.2, e.2)) t && decide (t.1.1 = e.1) := by
    refine List.filter_congr ?_
    intro t _
    rw [Bool.eq_iff_iff]
    simp [and_comm]
  rw [hfilter]
  refine List.map_congr_left ?_
  intro t ht
  have hid : t.1.1 = e.1 := by
    have hok := (List.mem_filter.mp ht).2
    rw [Bool.and_eq_true] at hok
    exact of_decide_eq_true hok.2
  show (t.1, t.2, e.2) = ((e.1, t.1.2), t.2, e.2)
  rw [← hid]

theorem exists_of_forall₂_left {α β : Type} {R : α → β → Prop} {as : List α} {bs : List β}
    (h : List.Forall₂ R as bs) {a : α} (ha : a ∈ as) : ∃ b ∈ bs, R a b := by
  induction h with
  | nil => cases ha
  | cons hab _ ih =>
      rcases List.mem_cons.mp ha with rfl | ha
      · exact ⟨_, List.mem_cons_self, hab⟩
      · obtain ⟨b, hb, hr⟩ := ih ha
        exact ⟨b, List.mem_cons_of_mem _ hb, hr⟩

theorem exists_of_forall₂_right {α β : Type} {R : α → β → Prop} {as : List α} {bs : List β}
    (h : List.Forall₂ R as bs) {b : β} (hb : b ∈ bs) : ∃ a ∈ as, R a b :=
  exists_of_forall₂_left h.flip hb

/-- The bindings of a server are built when no subscribed tag has a blank topic. -/
theorem buildBindings_eq_ok {e : Str × ConnectivityServer} {config : ServerConfig}
    (h : c.config e.1 e.2 = some config) {bs : List TagBinding} :
    config.buildBindings = .ok bs ↔
      (∀ x ∈ c.itemsOf e, x.2.1.mqttTopic ≠ []) ∧ bs = (c.itemsOf e).map bound := by
  rw [Catalog.config] at h
  split at h
  · cases h
  · rename_i hopc
    rw [not_not] at hopc
    split at h
    · cases h
    · cases h
      rw [ServerConfig.buildBindings, mapM_eq_ok, List.forall₂_map_left_iff, itemsOf_eq hopc,
        List.forall_mem_map, List.map_map]
      rw [← forall₂_and_eq (P := fun t : Str × ConnectivityTag => t.2.mqttTopic ≠ [])]
      have hstep : ∀ (t : Str × ConnectivityTag) b,
          TagConfig.binding e.2.name ⟨t.1, t.2.mqttTopic, [], t.2.mqttTopic⟩ = .ok b ↔
            t.2.mqttTopic ≠ [] ∧ b = bound ((e.1, t.1), t.2, e.2) :=
        fun t b => binding_eq_ok (x := ((e.1, t.1), t.2, e.2))
      simp only [hstep]
      rfl

/-- A server without a config has nothing to collect. -/
theorem itemsOf_of_none {e : Str × ConnectivityServer} (h : c.config e.1 e.2 = none) : c.itemsOf e = [] := by
  by_cases hopc : e.2.protocol = opcUa
  · rw [Catalog.config, if_neg (not_not.mpr hopc)] at h
    split at h
    · rename_i hempty
      rw [itemsOf_eq hopc, List.isEmpty_iff.mp hempty]
      rfl
    · cases h
  · rw [Catalog.itemsOf, if_neg hopc]

theorem mapM_buildBindings (es : List (Str × ConnectivityServer)) (bs : List TagBinding) :
    (∃ bss, (es.filterMap fun e => c.config e.1 e.2).mapM ServerConfig.buildBindings = .ok bss ∧
        bss.flatten = bs) ↔
      (∀ x ∈ es.flatMap c.itemsOf, x.2.1.mqttTopic ≠ []) ∧ bs = (es.flatMap c.itemsOf).map bound := by
  simp only [mapM_eq_ok]
  induction es generalizing bs with
  | nil => simp [eq_comm]
  | cons e es ih =>
      rw [List.flatMap_cons, List.map_append, List.filterMap_cons]
      cases hconfig : c.config e.1 e.2 with
      | none =>
          rw [itemsOf_of_none hconfig]
          exact ih bs
      | some config =>
          simp only [List.forall₂_cons_left_iff]
          constructor
          · rintro ⟨_, ⟨b, bss, hb, hbss, rfl⟩, rfl⟩
            obtain ⟨hhead, rfl⟩ := (buildBindings_eq_ok hconfig).mp hb
            obtain ⟨hrest, hflat⟩ := (ih _).mp ⟨bss, hbss, rfl⟩
            refine ⟨?_, by rw [List.flatten_cons, hflat]⟩
            intro x hx
            rcases List.mem_append.mp hx with hx | hx
            · exact hhead x hx
            · exact hrest x hx
          · rintro ⟨hall, rfl⟩
            obtain ⟨bss, hbss, hflat⟩ := (ih ((es.flatMap c.itemsOf).map bound)).mpr
              ⟨fun x hx => hall x (List.mem_append_right _ hx), rfl⟩
            refine ⟨_, ⟨_, bss, (buildBindings_eq_ok hconfig).mpr
              ⟨fun x hx => hall x (List.mem_append_left _ hx), rfl⟩, hbss, rfl⟩, ?_⟩
            rw [List.flatten_cons, hflat]

theorem repeated_eq_nil {α : Type} [DecidableEq α] {values : List α} : repeated values = [] ↔ values.Nodup := by
  rw [repeated, List.filter_eq_nil_iff, List.nodup_iff_count_le_one]
  constructor
  · intro h v
    by_cases hv : v ∈ values
    · have hcount := h (v, values.count v) (List.mem_map_of_mem (List.mem_dedup.mpr hv))
      simpa using hcount
    · rw [List.count_eq_zero_of_not_mem hv]
      exact Nat.zero_le 1
  · intro h e he
    obtain ⟨v, -, rfl⟩ := List.mem_map.mp he
    simpa using h v

theorem findConflicts_eq_nil {bs : List TagBinding} :
    findConflicts bs = [] ↔ (bs.map fun b => (b.serverName, b.nodeId)).Nodup ∧ (bs.map (·.topic)).Nodup := by
  rw [findConflicts, List.append_eq_nil_iff, List.map_eq_nil_iff, List.map_eq_nil_iff, repeated_eq_nil,
    repeated_eq_nil]

/-- When the bindings are built, they are those of the tags to be collected. -/
theorem buildBindingsForAll_eq_ok {bs : List TagBinding} :
    buildBindingsForAll c.serversFromCatalog = .ok bs ↔
      (∀ x ∈ c.items, x.2.1.mqttTopic ≠ []) ∧ bs = c.items.map bound ∧
        (bs.map fun b => (b.serverName, b.nodeId)).Nodup ∧ (bs.map (·.topic)).Nodup := by
  rw [← and_assoc, ← findConflicts_eq_nil, Catalog.items, ← mapM_buildBindings, buildBindingsForAll,
    Catalog.serversFromCatalog]
  cases hbuilt : (c.servers.entries.filterMap fun e => c.config e.1 e.2).mapM ServerConfig.buildBindings with
  | error raised =>
      constructor
      · intro h
        cases h
      · rintro ⟨⟨bss, h, -⟩, -⟩
        cases h
  | ok bss =>
      show (if (findConflicts bss.flatten).isEmpty then Except.ok bss.flatten
        else Except.error (BindRaised.conflicts (findConflicts bss.flatten))) = .ok bs ↔ _
      constructor
      · intro h
        split at h
        · rename_i hnone
          cases h
          exact ⟨⟨bss, rfl, rfl⟩, List.isEmpty_iff.mp hnone⟩
        · cases h
      · rintro ⟨⟨bss', h, rfl⟩, hnone⟩
        cases h
        rw [hnone]
        rfl

/-! ## What the collectors are given -/

theorem mem_subscribedTags {id : Str} {tag : Str × ConnectivityTag} :
    tag ∈ c.subscribedTags id ↔ c.tags.get? (id, tag.1) = some tag.2 ∧ tag.2.subscribed = true := by
  rw [Catalog.subscribedTags, List.mem_filter, Catalog.tagsOf, List.mem_map, Dict.get?_eq_some]
  refine and_congr_left fun _ => ?_
  constructor
  · rintro ⟨⟨⟨i, n⟩, t⟩, he, rfl⟩
    obtain ⟨hmem, hid⟩ := List.mem_filter.mp he
    obtain rfl : i = id := of_decide_eq_true hid
    exact hmem
  · intro hmem
    exact ⟨((id, tag.1), tag.2), List.mem_filter.mpr ⟨hmem, decide_eq_true rfl⟩, rfl⟩

theorem config_of_collects {key : Str × Str} {tag : ConnectivityTag} (h : c.Collects key tag)
    {server : ConnectivityServer} (hserver : c.servers.get? key.1 = some server) :
    ∃ config, c.config key.1 server = some config ∧ config.name = server.name := by
  obtain ⟨hget, hsub, found, hfound, hopc⟩ := h
  rw [hserver] at hfound
  cases hfound
  have hmem : (key.2, tag) ∈ c.subscribedTags key.1 := mem_subscribedTags.mpr ⟨hget, hsub⟩
  have hsome : (c.subscribedTags key.1).isEmpty = false := by
    rw [List.isEmpty_eq_false_iff]
    exact List.ne_nil_of_mem hmem
  rw [Catalog.config, if_neg (not_not.mpr hopc), hsome, if_neg Bool.false_ne_true]
  exact ⟨_, rfl, rfl⟩

theorem name_of_config {id : Str} {server : ConnectivityServer} {config : ServerConfig}
    (h : c.config id server = some config) : config.name = server.name ∧ server.protocol = opcUa := by
  rw [Catalog.config] at h
  split at h
  · cases h
  · rename_i hopc
    split at h
    · cases h
    · cases h
      exact ⟨rfl, not_not.mp hopc⟩

/-- The tags to be collected of a server are those with its id. -/
theorem items_of_server {id : Str} {server : ConnectivityServer} (h : c.servers.get? id = some server) :
    c.items.filter (fun x => x.1.1 = id) = c.itemsOf (id, server) := by
  have hother : ∀ e : Str × ConnectivityServer, e.1 ≠ id →
      (c.itemsOf e).filter (fun x => x.1.1 = id) = [] := by
    intro e hne
    refine List.filter_eq_nil_iff.mpr ?_
    intro x hx hid
    exact hne ((mem_itemsOf.mp hx).2.1.symm.trans (of_decide_eq_true hid))
  have hown : (c.itemsOf (id, server)).filter (fun x => x.1.1 = id) = c.itemsOf (id, server) := by
    refine List.filter_eq_self.mpr ?_
    intro x hx
    exact decide_eq_true (mem_itemsOf.mp hx).2.1
  have hall : ∀ es : List (Str × ConnectivityServer), (es.map Prod.fst).Nodup → (id, server) ∈ es →
      es.flatMap (fun e => (c.itemsOf e).filter fun x => x.1.1 = id) = c.itemsOf (id, server) := by
    intro es hnodup hmem
    induction es with
    | nil => cases hmem
    | cons e es ih =>
        rw [List.map_cons, List.nodup_cons] at hnodup
        rw [List.flatMap_cons]
        by_cases hid : e.1 = id
        · have he : (id, server) = e := by
            rcases List.mem_cons.mp hmem with he | he
            · exact he
            · exact absurd (List.mem_map_of_mem (f := Prod.fst) he) (by rw [← hid]; exact hnodup.1)
          have hrest : es.flatMap (fun e => (c.itemsOf e).filter fun x => x.1.1 = id) = [] := by
            refine List.flatMap_eq_nil_iff.mpr ?_
            intro e' he'
            refine hother e' ?_
            rintro hid'
            exact hnodup.1 (by rw [hid, ← hid']; exact List.mem_map_of_mem he')
          rw [hrest, List.append_nil, ← he, hown]
        · rw [hother e hid, List.nil_append]
          refine ih hnodup.2 ((List.mem_cons.mp hmem).resolve_left ?_)
          rintro rfl
          exact hid rfl
  rw [Catalog.items, List.filter_flatMap]
  exact hall _ c.servers.nodup (Dict.get?_eq_some.mp h)

/-- A catalog that is collected is collectable. -/
theorem Catalog.Collected.collectable (h : c.Collected) : c.Collectable := by
  obtain ⟨bs, hbuild, hown⟩ := h
  obtain ⟨hblank, rfl, hnodes, htopics⟩ := buildBindingsForAll_eq_ok.mp hbuild
  rw [List.map_map] at hnodes htopics
  have hnode := List.inj_on_of_nodup_map hnodes
  have htopic := List.inj_on_of_nodup_map htopics
  have hitem : ∀ {key tag}, c.Collects key tag → ∃ server, c.servers.get? key.1 = some server ∧
      (key, tag, server) ∈ c.items := by
    intro key tag hcollects
    obtain ⟨-, -, server, hserver, -⟩ := id hcollects
    exact ⟨server, hserver, mem_items.mpr ⟨hcollects, hserver⟩⟩
  have hplain : ∀ key tag, c.Collects key tag → PlainTopic tag.mqttTopic := by
    intro key tag hcollects
    obtain ⟨server, hserver, hx⟩ := hitem hcollects
    obtain ⟨config, hconfig, hname⟩ := config_of_collects hcollects hserver
    have hmem : (key.2, tag) ∈ c.subscribedTags key.1 :=
      mem_subscribedTags.mpr ⟨hcollects.1, hcollects.2.1⟩
    obtain ⟨b, hb, hnodeId, hbtopic⟩ := exists_of_forall₂_right (hown _ _ _ hserver hconfig) hmem
    obtain ⟨hbmem, hbname⟩ := List.mem_filter.mp hb
    obtain ⟨y, hy, rfl⟩ := List.mem_map.mp hbmem
    have hsame : y = (key, tag, server) := by
      refine hnode hy hx ?_
      exact Prod.ext ((of_decide_eq_true hbname).trans hname) hnodeId
    rw [hsame] at hbtopic
    exact ⟨hblank _ hx, hbtopic (hblank _ hx)⟩
  have hkeys : ∀ key key' tag tag', c.Collects key tag → c.Collects key' tag' →
      tag.mqttTopic = tag'.mqttTopic → key = key' := by
    intro key key' tag tag' hcollects hcollects' heq
    obtain ⟨server, -, hx⟩ := hitem hcollects
    obtain ⟨server', -, hx'⟩ := hitem hcollects'
    exact congrArg Prod.fst (htopic hx hx' (congrArg stripSlashes heq))
  refine ⟨hplain, hkeys, ?_⟩
  intro key key' tag tag' server server' hcollects hcollects' hserver hserver' hname
  obtain ⟨config, hconfig, hconfigName⟩ := config_of_collects hcollects hserver
  have hx' : (key', tag', server') ∈ c.items := mem_items.mpr ⟨hcollects', hserver'⟩
  have hb : bound (key', tag', server') ∈ collectorBindings (c.items.map bound) config :=
    List.mem_filter.mpr ⟨List.mem_map_of_mem hx', decide_eq_true (hname.symm.trans hconfigName.symm)⟩
  obtain ⟨t, ht, hnodeId, hbtopic⟩ := exists_of_forall₂_left (hown _ _ _ hserver hconfig) hb
  obtain ⟨hget, hsub⟩ := mem_subscribedTags.mp ht
  have hcollectsT : c.Collects (key.1, t.1) t.2 := ⟨hget, hsub, hcollects.2.2⟩
  have htopicT := hbtopic (hplain _ _ hcollectsT).1
  have heq : tag'.mqttTopic = t.2.mqttTopic := (hplain _ _ hcollects').2.symm.trans htopicT
  rw [hkeys _ _ _ _ hcollects' hcollectsT heq]

theorem Catalog.Collectable.collected (h : c.Collectable) : c.Collected := by
  obtain ⟨hplain, hkeys, hnames⟩ := h
  have hsame : ∀ {x y : (Str × Str) × ConnectivityTag × ConnectivityServer}, x ∈ c.items → y ∈ c.items →
      x.1 = y.1 → x = y := by
    intro x y hx hy hkey
    obtain ⟨⟨htag, -⟩, hserver⟩ := mem_items.mp hx
    obtain ⟨⟨htag', -⟩, hserver'⟩ := mem_items.mp hy
    rw [hkey] at htag hserver
    exact Prod.ext hkey (Prod.ext (Option.some.inj (htag.symm.trans htag'))
      (Option.some.inj (hserver.symm.trans hserver')))
  refine ⟨c.items.map bound, buildBindingsForAll_eq_ok.mpr ⟨?_, rfl, ?_, ?_⟩, ?_⟩
  · intro x hx
    exact (hplain _ _ (mem_items.mp hx).1).1
  · rw [List.map_map, List.nodup_map_iff_inj_on (nodup_items c)]
    intro x hx y hy heq
    obtain ⟨hcollects, hserver⟩ := mem_items.mp hx
    obtain ⟨hcollects', hserver'⟩ := mem_items.mp hy
    obtain ⟨hname, hnode⟩ : x.2.2.name = y.2.2.name ∧ x.1.2 = y.1.2 := Prod.mk.inj heq
    have hid := hnames _ _ _ _ _ _ hcollects hcollects' hserver hserver' hname
    exact hsame hx hy (Prod.ext hid hnode)
  · rw [List.map_map, List.nodup_map_iff_inj_on (nodup_items c)]
    intro x hx y hy heq
    have hcollects := (mem_items.mp hx).1
    have hcollects' := (mem_items.mp hy).1
    refine hsame hx hy (hkeys _ _ _ _ hcollects hcollects' ?_)
    rw [← (hplain _ _ hcollects).2, ← (hplain _ _ hcollects').2]
    exact heq
  · intro id server config hserver hconfig
    obtain ⟨hname, hopc⟩ := name_of_config hconfig
    have hfilter : c.items.filter ((fun b => decide (b.serverName = config.name)) ∘ bound) =
        c.items.filter fun x => x.1.1 = id := by
      refine List.filter_congr ?_
      intro x hx
      obtain ⟨hcollects, hfound⟩ := mem_items.mp hx
      rw [Bool.eq_iff_iff, Function.comp_apply, decide_eq_true_iff, decide_eq_true_iff]
      show x.2.2.name = config.name ↔ _
      rw [hname]
      constructor
      · intro hsameName
        have hsome : (c.subscribedTags id).isEmpty = false := by
          rw [Catalog.config, if_neg (not_not.mpr hopc)] at hconfig
          cases hempty : (c.subscribedTags id).isEmpty with
          | true =>
              rw [hempty, if_pos rfl] at hconfig
              cases hconfig
          | false => rfl
        obtain ⟨t, ht⟩ := List.exists_mem_of_ne_nil _ (List.isEmpty_eq_false_iff.mp hsome)
        obtain ⟨hget, hsub⟩ := mem_subscribedTags.mp ht
        exact hnames _ (id, t.1) _ _ _ _ hcollects ⟨hget, hsub, server, hserver, hopc⟩ hfound hserver hsameName
      · rintro rfl
        rw [hserver] at hfound
        cases hfound
        rfl
    rw [collectorBindings, List.filter_map, hfilter, items_of_server hserver, itemsOf_eq hopc, List.map_map,
      List.forall₂_map_left_iff, List.forall₂_same]
    intro t ht
    obtain ⟨hget, hsub⟩ := mem_subscribedTags.mp ht
    refine ⟨rfl, fun _ => ?_⟩
    exact (hplain _ _ ⟨hget, hsub, server, hserver, hopc⟩).2

/-- A catalog is collected exactly when it is collectable. -/
theorem collected_iff : c.Collected ↔ c.Collectable := ⟨fun h => h.collectable, fun h => h.collected⟩

end Bindings

end Uns.Opcua
