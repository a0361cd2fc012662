/-
# `Edge.Config` — the adapters of the catalog in the broker's `config.xml`

`edge_adapters_from_rows` and the splice of `hivemq_edge_xml.py`.  The document is the text
before, the tokens between and the text after the tags of `protocol-adapters`; the adapters
whose id begins with `catalog-` are the catalog's, and are rendered anew each time.
-/
import UnifiedNamespace.Lib.Dict
import UnifiedNamespace.Model.Assets

namespace Uns.Edge

open Py Lib Model

/-! ## Rendering -/

structure EdgeTagInput where
  nodeId : Str
  displayName : Str
  mqttTopic : Str
  dataType : Option Str

structure EdgeAdapterInput where
  serverId : Str
  protocol : Str
  host : Str
  port : Nat
  uri : Str
  controllerType : Str
  tags : List EdgeTagInput

def adapterIdFor (serverId : Str) : Str := lit "catalog-" ++ serverId

def edgeDataType (catalogType : Option Str) : Str :=
  if catalogType = some (lit "Integer") then lit "DINT"
  else if catalogType = some (lit "Double") then lit "REAL"
  else if catalogType = some (lit "Boolean") then lit "BOOL"
  else if catalogType = some (lit "String") then lit "STRING"
  else lit "DINT"

/-- `[A-Za-z0-9_]`. -/
def isSafe (c : Nat) : Bool :=
  decide (65 ≤ c ∧ c ≤ 90 ∨ 97 ≤ c ∧ c ≤ 122 ∨ 48 ≤ c ∧ c ≤ 57 ∨ c = 95)

/-- A run of other characters becomes one `_`; `inRun` is inside of one. -/
def subUnsafe (inRun : Bool) : Str → Str
  | [] => []
  | c :: s =>
      if isSafe c then c :: subUnsafe false s
      else if inRun then subUnsafe true s
      else 95 :: subUnsafe true s

def tagXmlName (nodeId : Str) : Str :=
  let cleaned := (((subUnsafe false nodeId).dropWhile (· = 95)).reverse.dropWhile (· = 95)).reverse
  if cleaned = [] then lit "tag" else cleaned

/-- `_unique_tag_names` after the tags with the names `seen`. -/
def uniqueTagNames (seen : List Str) : List EdgeTagInput → List Str
  | [] => []
  | tag :: tags =>
      let base := tagXmlName tag.nodeId
      let name := if seen.count base = 0 then base else base ++ lit "_" ++ decimal (seen.count base + 1)
      name :: uniqueTagNames (base :: seen) tags

def escChar (c : Nat) : Str :=
  if c = 38 then lit "&amp;"
  else if c = 60 then lit "&lt;"
  else if c = 62 then lit "&gt;"
  else if c = 34 then lit "&quot;"
  else [c]

/-- `_esc`. -/
def esc (value : Str) : Str := value.flatMap escChar

/-- `"\n".join`. -/
def joinLines : List Str → Str
  | [] => []
  | [line] => line
  | line :: lines => line ++ [10] ++ joinLines lines

def protocolId (protocol : Str) : Str :=
  if protocol = lit "ethernet_ip" then lit "eip"
  else if protocol = lit "opc_ua" then lit "opcua"
  else lit "s7"

def configLines (adapter : EdgeAdapterInput) : List Str :=
  if protocolId adapter.protocol = lit "opcua" then [lit "                <uri>" ++ esc adapter.uri ++ lit "</uri>"]
  else
    [lit "                <host>" ++ esc adapter.host ++ lit "</host>",
      lit "                <port>" ++ decimal adapter.port ++ lit "</port>"] ++
    if protocolId adapter.protocol = lit "s7" then
      [lit "                <controllerType>" ++ esc adapter.controllerType ++ lit "</controllerType>"]
    else []

def mappingLines (entry : EdgeTagInput × Str) : List Str :=
  [lit "                <northboundMapping>",
    lit "                    <topic>" ++ esc entry.1.mqttTopic ++ lit "</topic>",
    lit "                    <tagName>" ++ esc entry.2 ++ lit "</tagName>",
    lit "                    <maxQos>1</maxQos>",
    lit "                    <includeTimestamp>true</includeTimestamp>",
    lit "                </northboundMapping>"]

/-- The element of an address. -/
def addrEl (protocol : Str) : Str :=
  if protocolId protocol = lit "s7" then lit "tagAddress"
  else if protocolId protocol = lit "eip" then lit "address"
  else lit "node"

def tagLines (protocol : Str) (entry : EdgeTagInput × Str) : List Str :=
  let desc := if entry.1.displayName = [] then entry.1.nodeId else entry.1.displayName
  [lit "                <tag>",
    lit "                    <name>" ++ esc entry.2 ++ lit "</name>",
    lit "                    <description>" ++ esc desc ++ lit "</description>",
    lit "                    <definition>",
    lit "                        <" ++ addrEl protocol ++ lit ">" ++ esc entry.1.nodeId ++ lit "</" ++
      addrEl protocol ++ lit ">",
    lit "                        <dataType>" ++ edgeDataType entry.1.dataType ++ lit "</dataType>",
    lit "                    </definition>",
    lit "                </tag>"]

def tagsLines (adapter : EdgeAdapterInput) : List Str :=
  if adapter.tags = [] then [lit "            <northboundMappings/>", lit "            <tags/>"]
  else
    let entries := adapter.tags.zip (uniqueTagNames [] adapter.tags)
    [lit "            <northboundMappings>"] ++ entries.flatMap mappingLines ++
      [lit "            </northboundMappings>", lit "            <tags>"] ++
      entries.flatMap (tagLines adapter.protocol) ++ [lit "            </tags>"]

def renderCatalogAdapter (adapter : EdgeAdapterInput) : Str :=
  joinLines (lit "        <protocol-adapter>" ::
    (lit "            <adapterId>" ++ esc (adapterIdFor adapter.serverId) ++ lit "</adapterId>") ::
    ([lit "            <protocolId>" ++ protocolId adapter.protocol ++ lit "</protocolId>",
        lit "            <config>"] ++ configLines adapter ++ [lit "            </config>"] ++
      tagsLines adapter ++ [lit "        </protocol-adapter>"]))

/-! ## The document -/

/-- `config.xml`, taken apart at the tags of `protocol-adapters`. -/
structure Document where
  before : Str
  tokens : List Str
  after : Str

/-- `_is_catalog_adapter_block`. -/
def isCatalogAdapterBlock (token : Str) : Bool :=
  (lit "<protocol-adapter>").isPrefixOf (token.dropWhile whitespace) &&
    decide (lit "<adapterId>catalog-" <:+: token)

/-- `<` of strings. -/
def strLt : Str → Str → Bool
  | _, [] => false
  | [], _ :: _ => true
  | a :: s, b :: t => decide (a < b) || decide (a = b) && strLt s t

/-- `sorted(adapters, key=lambda a: a.server_id)`. -/
def sortedAdapters (adapters : List EdgeAdapterInput) : List EdgeAdapterInput :=
  adapters.insertionSort fun a b => strLt b.serverId a.serverId = false

/-- `apply_catalog_adapters` of a document it accepts. -/
def applyCatalogAdapters (document : Document) (adapters : List EdgeAdapterInput) : Document :=
  { document with
    tokens := document.tokens.filter (fun token => !isCatalogAdapterBlock token) ++
      (sortedAdapters adapters).map renderCatalogAdapter }

def Document.catalogAdapters (document : Document) : List Str := document.tokens.filter isCatalogAdapterBlock

/-! ## The rows -/

structure EdgeServer where
  protocol : Str
  endpoint : Str
  /-- `controllerType` of the protocol's configuration. -/
  controllerType : Option Str

structure EdgeTag where
  displayName : Str
  mqttTopic : Str
  dataType : Option Str
  subscribed : Bool

/-- The servers by id, and the tags by server and node. -/
structure Rows where
  servers : Dict Str EdgeServer
  tags : Dict (Str × Str) EdgeTag

def edgeProtocols : List Str := [lit "s7", lit "ethernet_ip", lit "opc_ua"]

/-- `[A-Za-z0-9.-]`. -/
def isHostChar (c : Nat) : Bool :=
  decide (65 ≤ c ∧ c ≤ 90 ∨ 97 ≤ c ∧ c ≤ 122 ∨ 48 ≤ c ∧ c ≤ 57 ∨ c = 46 ∨ c = 45)

/-- `parse_host_port`; `none` is the `ValueError`. -/
def parseHostPort (endpoint : Str) : Option (Str × Nat) :=
  let stripped := strip endpoint
  let host := stripped.takeWhile isHostChar
  match stripped.drop host.length with
  | [] => none
  | colon :: digits =>
      if host ≠ [] ∧ colon = 58 ∧ digits ≠ [] ∧ digits.length ≤ 5 ∧ digits.all isDigit = true ∧
          1 ≤ ofDecimal digits ∧ ofDecimal digits ≤ 65535 then some (host, ofDecimal digits)
      else none

def defaultControllerType : Str := lit "S7_1500"

/-- The adapter of a server; `none` when its endpoint is refused. -/
def edgeAdapter (serverId : Str) (server : EdgeServer) (tags : List EdgeTagInput) : Option EdgeAdapterInput :=
  if server.protocol = lit "opc_ua" then
    some ⟨serverId, server.protocol, [], 0, server.endpoint, defaultControllerType, tags⟩
  else
    (parseHostPort server.endpoint).map fun address =>
      ⟨serverId, server.protocol, address.1, address.2, [], server.controllerType.getD defaultControllerType, tags⟩

/-- The tags that are republished, of the rows of one server. -/
def subscribedInputs (tags : Dict (Str × Str) EdgeTag) (serverId : Str) : List EdgeTagInput :=
  (tags.entries.filter fun e => decide (e.1.1 = serverId) && e.2.subscribed).map fun e =>
    ⟨e.1.2, e.2.displayName, e.2.mqttTopic, e.2.dataType⟩

/-- `edge_adapters_from_rows`. -/
def edgeAdaptersFromRows (servers : List (Str × EdgeServer)) (tags : Dict (Str × Str) EdgeTag) :
    Option (List EdgeAdapterInput) :=
  (servers.filter fun e => decide (e.2.protocol ∈ edgeProtocols)).mapM fun e =>
    edgeAdapter e.1 e.2 (subscribedInputs tags e.1)

/-! ## What the splice leaves -/

theorem esc_append (s t : Str) : esc (s ++ t) = esc s ++ esc t := List.flatMap_append

theorem infix_joinLines {line : Str} {lines : List Str} (h : line ∈ lines) : line <:+: joinLines lines := by
  induction lines with
  | nil => cases h
  | cons first lines ih =>
      cases lines with
      | nil =>
          rw [List.mem_singleton.mp h]
          exact List.infix_refl _
      | cons second lines =>
          have hjoin : joinLines (first :: second :: lines) = first ++ [10] ++ joinLines (second :: lines) := rfl
          rw [hjoin]
          rcases List.mem_cons.mp h with rfl | h
          · rw [List.append_assoc]
            exact (List.prefix_append _ _).isInfix
          · exact (ih h).trans (List.suffix_append _ _).isInfix

/-- What is rendered is the catalog's. -/
theorem isCatalogAdapterBlock_render (adapter : EdgeAdapterInput) :
    isCatalogAdapterBlock (renderCatalogAdapter adapter) = true := by
  rw [isCatalogAdapterBlock, Bool.and_eq_true, decide_eq_true_iff]
  have hesc : esc (adapterIdFor adapter.serverId) = lit "catalog-" ++ esc adapter.serverId := by
    rw [adapterIdFor, esc_append]
    rfl
  have hline : lit "<adapterId>catalog-" <:+:
      lit "            <adapterId>" ++ esc (adapterIdFor adapter.serverId) ++ lit "</adapterId>" :=
    ⟨lit "            ", esc adapter.serverId ++ lit "</adapterId>", by rw [hesc]; rfl⟩
  exact ⟨rfl, hline.trans (infix_joinLines (List.mem_cons_of_mem _ List.mem_cons_self))⟩

theorem catalogAdapters_apply (document : Document) (adapters : List EdgeAdapterInput) :
    (applyCatalogAdapters document adapters).catalogAdapters =
      (sortedAdapters adapters).map renderCatalogAdapter := by
  rw [Document.catalogAdapters, applyCatalogAdapters, List.filter_append, List.filter_filter]
  have hkept : document.tokens.filter
      (fun token => isCatalogAdapterBlock token && !isCatalogAdapterBlock token) = [] :=
    List.filter_eq_nil_iff.mpr fun token _ => by rw [Bool.and_not_self]; exact Bool.false_ne_true
  rw [hkept, List.nil_append, List.filter_eq_self]
  intro token htoken
  obtain ⟨adapter, _, rfl⟩ := List.mem_map.mp htoken
  exact isCatalogAdapterBlock_render adapter

end Uns.Edge
