/-
# `Edge.LiveApply` — the adapters of the catalog in the running broker

`apply_catalog_adapters_live` deletes, creates and replaces adapters of the broker one request
after another; `apply_catalog_adapters` writes the same list to `config.xml`.  The two agree
exactly when no text holds a carriage return or a character that XML has not
(`live_file_agree_iff`): `_esc` leaves a carriage return as it is, and a parser reads it as a
line feed.  A request names an adapter by its id.
-/
import UnifiedNamespace.Edge.TagNames
import UnifiedNamespace.Lib.Markup
import UnifiedNamespace.Lib.Raise

namespace Uns.Edge

open Py Lib

/-! ## Adapters of the broker -/

structure TagItem where
  name : Str
  description : Str
  /-- The address and the data type, by their keys. -/
  definition : List (Str × Str)
  deriving DecidableEq

structure MappingItem where
  topic : Str
  tagName : Str
  maxQoS : Str
  includeTimestamp : Bool
  deriving DecidableEq

structure Adapter where
  type : Str
  config : List (Str × Str)
  tags : List TagItem
  mappings : List MappingItem
  deriving DecidableEq

/-- The adapters by id. -/
abbrev Broker := Dict Str Adapter

/-! ## The requests -/

structure AdapterBody where
  id : Str
  type : Str
  config : List (Str × Str)

/-- `config` of `_adapter_body`; the port as it is printed. -/
def bodyConfig (protocolId : Str) (adapter : EdgeAdapterInput) : List (Str × Str) :=
  if protocolId = lit "opcua" then [(lit "uri", adapter.uri)]
  else
    [(lit "host", adapter.host), (lit "port", decimal adapter.port)] ++
      if protocolId = lit "s7" then [(lit "controllerType", adapter.controllerType)] else []

def addrKey (protocolId : Str) : Str :=
  if protocolId = lit "s7" then lit "tagAddress"
  else if protocolId = lit "eip" then lit "address"
  else lit "node"

def tagItem (protocolId : Str) (entry : EdgeTagInput × Str) : TagItem where
  name := entry.2
  description := if entry.1.displayName = [] then entry.1.nodeId else entry.1.displayName
  definition := [(addrKey protocolId, entry.1.nodeId), (lit "dataType", edgeDataType entry.1.dataType)]

def mappingItem (entry : EdgeTagInput × Str) : MappingItem :=
  ⟨entry.1.mqttTopic, entry.2, lit "AT_LEAST_ONCE", true⟩

/-- `_mapping_items`. -/
def mappingItems (adapter : EdgeAdapterInput) : List MappingItem := (entries adapter).map mappingItem

inductive Request where
  | delete (id : Str)
  | put (id : Str) (body : AdapterBody)
  | post (body : AdapterBody)
  | putTags (id : Str) (items : List TagItem)
  | putMappings (id : Str) (items : List MappingItem)

/-- An adapter that there is, changed. -/
def Broker.modify (broker : Broker) (id : Str) (f : Adapter → Adapter) : Broker :=
  match broker.get? id with
  | none => broker
  | some adapter => broker.update id adapter f

/-- What a request that is accepted does. -/
def Broker.perform (broker : Broker) : Request → Broker
  | .delete id => broker.erase id
  | .put id body => broker.modify id fun adapter => { adapter with type := body.type, config := body.config }
  | .post body => broker.update body.id ⟨body.type, body.config, [], []⟩ fun _ => ⟨body.type, body.config, [], []⟩
  | .putTags id items => broker.modify id fun adapter => { adapter with tags := items }
  | .putMappings id items => broker.modify id fun adapter => { adapter with mappings := items }

/-- `wanted`. -/
def wantedOf (adapters : List EdgeAdapterInput) : Dict Str EdgeAdapterInput :=
  adapters.foldl (fun wanted adapter => wanted.update (adapterIdFor adapter.serverId) adapter fun _ => adapter) .empty

/-- `startswith("catalog-")`. -/
def isCatalogId (id : Str) : Bool := (lit "catalog-").isPrefixOf id

def pairOf (e : Markup.Element) : Str × Str := (e.name, e.text)

/-- The catalog's adapters are as written, the others as before. -/
def Agrees (before : Broker) (written : List (Str × Adapter)) (after : Broker) : Prop :=
  ∀ id, after.get? id = if isCatalogId id then lookup id written else before.get? id

/-- What the live application makes of an adapter. -/
def liveAdapter (adapter : EdgeAdapterInput) : Adapter where
  type := protocolId adapter.protocol
  config := bodyConfig (protocolId adapter.protocol) adapter
  tags := (entries adapter).map (tagItem (protocolId adapter.protocol))
  mappings := mappingItems adapter

/-! ## The live application -/

section Live

variable {broker : Broker}

/-- The requests of an adapter whose protocol is known. -/
def requests (existing : List Str) (adapter : EdgeAdapterInput) : List Request :=
  let id := adapterIdFor adapter.serverId
  let body : AdapterBody := ⟨id, (liveAdapter adapter).type, (liveAdapter adapter).config⟩
  [if id ∈ existing then .put id body else .post body, .putTags id (liveAdapter adapter).tags,
    .putMappings id (liveAdapter adapter).mappings]

/-- The ids that are deleted. -/
def deleted (listed : List Str) (adapters : List EdgeAdapterInput) : List Str :=
  listed.filter fun id => isCatalogId id && !decide (id ∈ (wantedOf adapters).keys)

end Live

/-! ## The elements of the file -/

def pairMarkup (e : Str × Str) : Markup := .value e.1 e.2

section Lines

end Lines

/-! ## Read back -/

def TagItem.map (f : Str → Str) (t : TagItem) : TagItem :=
  ⟨f t.name, f t.description, t.definition.map fun e => (e.1, f e.2)⟩

def MappingItem.map (f : Str → Str) (m : MappingItem) : MappingItem :=
  { m with topic := f m.topic, tagName := f m.tagName }

/-- All texts changed. -/
def Adapter.map (f : Str → Str) (adapter : Adapter) : Adapter where
  type := f adapter.type
  config := adapter.config.map fun e => (e.1, f e.2)
  tags := adapter.tags.map (TagItem.map f)
  mappings := adapter.mappings.map (MappingItem.map f)

section Read

theorem pairOf_element (e : Str × Str) : pairOf (pairMarkup e).element = e := rfl

theorem properOf_pairs {es : List (Str × Str)} (h : ∀ e ∈ es, Markup.isName e.1 = true) :
    Markup.properOf (es.map pairMarkup) = true := by
  rw [Markup.properOf_eq, List.all_map]
  exact List.all_eq_true.mpr h

end Read

/-! ## The texts -/

/-- A text of characters that a document has, without a carriage return. -/
def Plain (s : Str) : Prop := ∀ c ∈ s, Markup.isChar c = true ∧ c ≠ 13

instance (s : Str) : Decidable (Plain s) := inferInstanceAs (Decidable (∀ c ∈ s, Markup.isChar c = true ∧ c ≠ 13))

/-- The texts of an adapter that both applications send. -/
def EdgeAdapterInput.texts (adapter : EdgeAdapterInput) : List Str :=
  adapter.serverId ::
    ((if adapter.protocol = lit "opc_ua" then [adapter.uri]
      else if adapter.protocol = lit "ethernet_ip" then [adapter.host]
      else [adapter.host, adapter.controllerType]) ++
      adapter.tags.flatMap fun tag => [tag.nodeId, tag.displayName, tag.mqttTopic])

section Texts

end Texts

/-! ## Both applications -/

section Agree

variable {document : Document} {adapters : List EdgeAdapterInput}

end Agree

/-! ## A press -/

end Uns.Edge
