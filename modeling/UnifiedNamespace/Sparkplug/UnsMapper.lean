/-
# `Sparkplug.UnsMapper` — Sparkplug messages published again on the UNS

`on_message` of the listener and `transform_spb_and_publish_to_uns`.  The metrics of a
payload are collated by the part of their name before the last slash; a metric without a
name gets the one that was saved for its alias, of the same group, node and device.  The
alias of a metric that has none reads as 0, and every name that is met is saved.

Nothing is published when a metric raises.  A payload the protobuf library cannot parse is
`none`.
-/
import UnifiedNamespace.Lib.Dict
import UnifiedNamespace.Lib.Transition
import UnifiedNamespace.Model.TopicPath
import UnifiedNamespace.Sparkplug.Decoders

namespace Uns.Sparkplug

open Py Lib Model

/-! ## Messages for the UNS -/

/-- A value in the dict that is published. -/
inductive UnsValue where
  | null
  | reading (value : Value) (timestamp : Nat) (isHistorical : Bool)
  | timestamp (t : Nat)
  | text (s : Str)
  | list (xs : List UnsValue)

abbrev UnsMessage := Dict Str UnsValue

/-- The messages by their topic. -/
abbrev UnsMessages := Dict Str UnsMessage

/-- `float(n)`: 53 bits, a tie to the even one. -/
def roundDouble (n : Nat) : Nat :=
  let unit := 2 ^ (n.log2 + 1 - 53)
  let up := decide (unit < 2 * (n % unit)) || decide (2 * (n % unit) = unit) && decide (n / unit % 2 = 1)
  (if up then n / unit + 1 else n / unit) * unit

/-- What every metric of a payload adds to the context of its message. -/
abbrev SpbContext := List (Str × Str)

/-- `extract_uns_message_for_topic`; `none`: a list is compared with a number. -/
def extractUnsMessage (parsed : Option UnsMessage) (tagName : Str) (value : Value) (timestamp : Nat)
    (isHistorical : Bool) (spbContext : SpbContext) : Option UnsMessage :=
  match parsed with
  | none =>
      let fresh := (Dict.empty.update tagName .null fun _ => .reading value timestamp isHistorical).update
        (lit "timestamp") .null fun _ => .timestamp timestamp
      some (spbContext.foldl (fun message e => message.update e.1 .null fun _ => .text e.2) fresh)
  | some message =>
      let old := match message.get? tagName with
        | some (.list xs) => xs
        | some v => [v]
        | none => [.null]
      match message.get? (lit "timestamp") with
      | some (.timestamp newest) =>
          if timestamp < newest then
            some (message.update tagName .null fun _ => .list (old ++ [.reading value timestamp isHistorical]))
          else
            some ((message.update (lit "timestamp") .null fun _ => .timestamp timestamp).update tagName .null fun _ =>
              .list (.reading value timestamp isHistorical :: old))
      | _ => none

/-! ## Names and aliases -/

/-- `node_device_metric_alias_map`. -/
abbrev AliasMap := Dict Str (Dict Nat Str)

def AliasMap.name? (cache : AliasMap) (key : Str) (metricAlias : Nat) : Option Str :=
  (cache.get? key).bind fun names => names.get? metricAlias

/-- `clear_metric_alias`. -/
def AliasMap.clear (cache : AliasMap) (key : Str) : AliasMap := cache.erase key

/-- `save_name_for_alias`. -/
def AliasMap.save (cache : AliasMap) (key name : Str) (metricAlias : Nat) : AliasMap :=
  cache.update key .empty fun names => names.update metricAlias name fun _ => name

def Metric.header : Metric → Header
  | .mk header _ _ => header

def Header.text (h : Header) : Str := h.name.getD []

/-- `getattr(metric, "alias")`, which is never missing. -/
def Header.aliasOrZero (h : Header) : Nat := (h.metricAlias.getD 0).toNat

/-- `get_metric_name`; `none`: it raises, or there is no name. -/
def getMetricName (cache : AliasMap) (key : Str) (h : Header) : AliasMap × Option Str :=
  if h.text = [] then (cache, cache.name? key h.aliasOrZero)
  else (cache.save key h.text h.aliasOrZero, some h.text)

/-- `name.rsplit("/", 1)`; `none`: it has one part only, and the index raises. -/
def splitName (name : Str) : Option (Str × Str) :=
  if separator ∈ name then
    some ((((name.reverse.dropWhile (· ≠ separator)).drop 1).reverse), (name.reverse.takeWhile (· ≠ separator)).reverse)
  else none

/-! ## The metrics of a payload -/

/-- The attribute that is set, with its value; a message stands for an object. -/
def MetricContent.attribute : MetricContent → Option (ValueField × Value)
  | .unset | .extension => none
  | .scalar s => some (s.field, s.value)
  | .bytes b => some (.bytes, .bytes b)
  | .dataset _ => some (.dataset, .dict [])
  | .template _ => some (.template, .dict [])

/-- The value of a metric; `none`: its datatype is unknown, or does not read it. -/
def Metric.read : Metric → Option Value
  | .mk header _ content =>
      if header.isNull.getD false then some .none
      else (metricDataType (header.datatype.getD 0).toNat).bind fun datatype => getValue datatype content.attribute

/-- The turn of a metric that has a name. -/
def addMetric (spbContext : SpbContext) (messages : UnsMessages) (name : Str) (metric : Metric) : Option UnsMessages :=
  (splitName name).bind fun parts =>
    metric.read.bind fun value =>
      (extractUnsMessage (messages.get? parts.1) parts.2 value (roundDouble (metric.header.timestamp.getD 0).toNat)
        (metric.header.isHistorical.getD false) spbContext).map fun message =>
          messages.update parts.1 .empty fun _ => message

/-- The loop of `handle_spb_messages`; `none`: it raises. -/
def handleMetrics (key : Str) (spbContext : SpbContext) :
    AliasMap → UnsMessages → List Metric → AliasMap × Option UnsMessages
  | cache, messages, [] => (cache, some messages)
  | cache, messages, metric :: metrics =>
      match (getMetricName cache key metric.header).2.bind fun name => addMetric spbContext messages name metric with
      | none => ((getMetricName cache key metric.header).1, none)
      | some messages => handleMetrics key spbContext (getMetricName cache key metric.header).1 messages metrics

/-! ## The listener -/

structure SpbMessage where
  topic : Str
  payload : Option (List Metric)
  /-- The client can publish. -/
  connected : Bool

/-- Where a message comes from, and of which type it is. -/
structure SpbTopic where
  groupId : Str
  messageType : Str
  edgeNodeId : Str
  deviceId : Str

/-- The topics `on_message` hands on: those of a device. -/
def parseSpbTopic (topic : Str) : Option SpbTopic :=
  if (lit "spBv1.0/").isPrefixOf topic then
    match splitSlash topic with
    | [_, groupId, messageType, edgeNodeId, deviceId] => some ⟨groupId, messageType, edgeNodeId, deviceId⟩
    | _ => none
  else none

/-- The key of the aliases of a device. -/
def SpbTopic.cacheKey (t : SpbTopic) : Str := t.groupId ++ [separator] ++ t.edgeNodeId ++ [separator] ++ t.deviceId

def SpbTopic.spbContext (t : SpbTopic) : SpbContext :=
  [(lit "spBv1.0_group_id", t.groupId), (lit "spBv1.0_message_type", t.messageType),
    (lit "spBv1.0_edge_node_id", t.edgeNodeId), (lit "spBv1.0_device_id", t.deviceId)]

/-- The types whose metrics are handled after the aliases are cleared. -/
def clearsFirst (messageType : Str) : Bool :=
  decide (messageType ∈ [lit "NBIRTH", lit "NDEATH", lit "DBIRTH"])

def isDeviceDeath (messageType : Str) : Bool := decide (messageType = lit "DDEATH")

def isData (messageType : Str) : Bool :=
  decide (messageType ∈ [lit "NDATA", lit "NCMD", lit "DDATA", lit "DCMD"])

mutual

/-- `json.dumps` takes it: no bytes and no protobuf message. -/
def Value.isJson : Value → Bool
  | .bytes _ | .dict _ => false
  | .list xs => allJson xs
  | _ => true

def allJson : List Value → Bool
  | [] => true
  | x :: xs => x.isJson && allJson xs

end

mutual

def UnsValue.isJson : UnsValue → Bool
  | .reading value _ _ => value.isJson
  | .list xs => allReadingsJson xs
  | _ => true

def allReadingsJson : List UnsValue → Bool
  | [] => true
  | x :: xs => x.isJson && allReadingsJson xs

end

def UnsMessage.isJson (message : UnsMessage) : Bool := message.entries.all fun e => UnsValue.isJson e.2

/-- `publish_to_uns`: the messages before one that raises. -/
def publishToUns (connected : Bool) (messages : UnsMessages) : List (Str × UnsMessage) :=
  if connected then messages.entries.takeWhile fun e => UnsMessage.isJson e.2 else []

/-- `on_message`: the aliases afterwards, and what is published. -/
def onMessage (cache : AliasMap) (msg : SpbMessage) : AliasMap × List (Str × UnsMessage) :=
  match parseSpbTopic msg.topic with
  | none => (cache, [])
  | some t =>
      if isDeviceDeath t.messageType then (cache.clear t.cacheKey, [])
      else if clearsFirst t.messageType || isData t.messageType then
        let start := if clearsFirst t.messageType then cache.clear t.cacheKey else cache
        match msg.payload with
        | none => (start, [])
        | some metrics =>
            let handled := handleMetrics t.cacheKey t.spbContext start .empty metrics
            (handled.1, (handled.2.map (publishToUns msg.connected)).getD [])
      else (cache, [])

end Uns.Sparkplug
