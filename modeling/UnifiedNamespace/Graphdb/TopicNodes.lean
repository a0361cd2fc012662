/-
# `Graphdb.TopicNodes` — a message under its topic, and the retries of the write

`save_all_nodes` creates or updates a node for each level of a topic; the level that is
named like the last one gets the message.  `persist_mqtt_msg` runs it in a transaction,
and again when the database fails for the moment: a failed transaction leaves the graph
as it was.  The call that retries names every argument but `node_types`, so the levels
are then typed by the default (`persistMqttMsg_succeeds`).
-/
import UnifiedNamespace.Graphdb.Attributes
import UnifiedNamespace.Model.TopicPath

namespace Uns.Graphdb

open Py Lib Model

/-! ## The levels of a topic -/

/-- The default of `node_types`. -/
def defaultNodeTypes : List Str := [lit "ENTERPRISE", lit "FACILITY", lit "AREA", lit "LINE", lit "DEVICE"]

/-- `get_topic_node_type`; `none`: there are no types, and the index raises. -/
def getTopicNodeType (currentDepth : Nat) (nodeTypes : List Str) : Option Str :=
  match nodeTypes[currentDepth]? with
  | some nodeType => some nodeType
  | none => nodeTypes.getLast?.map fun nodeType =>
      nodeType ++ lit "_depth_" ++ decimal (currentDepth - nodeTypes.length + 1)

/-- One turn of the loop of `save_all_nodes`: the graph, and `lastnode_id`. -/
def saveLevel (st : Storage) (message : List (Str × Json)) (last : Option Str) (g : Graph) (node nodeType : Str)
    (lastnodeId : Option Nat) : Option (Graph × Option Nat) :=
  if some node ≠ last then
    (saveNode st g (.str node) nodeType [] none lastnodeId).map fun r => (r.1, some r.2)
  else
    (saveAttributeNodes st (nesting (.obj message)) g (.str node) nodeType lastnodeId none (.obj message)).map
      fun g => (g, lastnodeId)

/-- The loop of `save_all_nodes`; `none`: it raises. -/
def saveLevels (st : Storage) (message : List (Str × Json)) (nodeTypes : List Str) (last : Option Str) :
    Nat → Option Nat → Graph → List Str → Option Graph
  | _, _, g, [] => some g
  | count, lastnodeId, g, node :: nodes =>
      (getTopicNodeType count nodeTypes).bind fun nodeType =>
        (saveLevel st message last g node nodeType lastnodeId).bind fun r =>
          saveLevels st message nodeTypes last (count + 1) r.2 r.1 nodes

def saveAllNodes (st : Storage) (g : Graph) (topic : Str) (message : List (Str × Json)) (nodeTypes : List Str) :
    Option Graph :=
  saveLevels st message nodeTypes (splitSlash topic).getLast? 0 none g (splitSlash topic)

/-! ## Retries -/

/-- What the database does in one call of `persist_mqtt_msg`. -/
structure Attempt where
  /-- How often the connection cannot be verified before it can. -/
  connectFailures : Nat
  /-- The transaction is rolled back with a `TransientError` or one of its like. -/
  rollsBack : Bool

inductive Raised
  | systemError
  | transient
  /-- What `save_all_nodes` raises. -/
  | write

/-- `persist_mqtt_msg` with so many retries left, in a database that does `attempt n` in the
call with `retry = n`; the graph afterwards, and what is raised. -/
def persistMqttMsg (st : Storage) (maxRetry : Nat) (attempt : Nat → Attempt) (topic : Str)
    (message : List (Str × Json)) : Nat → List Str → Graph → Graph × Option Raised
  | 0, nodeTypes, g =>
      if 0 < (attempt maxRetry).connectFailures then (g, some .systemError)
      else if (attempt maxRetry).rollsBack then (g, some .transient)
      else (saveAllNodes st g topic message nodeTypes).elim (g, some .write) fun g => (g, none)
  | left + 1, nodeTypes, g =>
      if left + 1 < (attempt (maxRetry - (left + 1))).connectFailures then (g, some .systemError)
      else if (attempt (maxRetry - (left + 1))).rollsBack then
        persistMqttMsg st maxRetry attempt topic message left defaultNodeTypes g  -- `node_types` is not passed on
      else (saveAllNodes st g topic message nodeTypes).elim (g, some .write) fun g => (g, none)

/-- The database fails `n` times for the moment, and then it works. -/
structure WorksAt (maxRetry : Nat) (attempt : Nat → Attempt) (n : Nat) : Prop where
  within : n ≤ maxRetry
  connects : ∀ i ≤ n, (attempt i).connectFailures ≤ maxRetry - i
  fails : ∀ i < n, (attempt i).rollsBack = true
  works : (attempt n).rollsBack = false

/-- The types the levels get in the call with `retry = n`. -/
def typesAt (nodeTypes : List Str) : Nat → List Str
  | 0 => nodeTypes
  | _ + 1 => defaultNodeTypes

variable {st : Storage} {maxRetry : Nat} {attempt : Nat → Attempt} {topic : Str} {message : List (Str × Json)}

/-- From the call with `retry = n - k` on. -/
theorem persistMqttMsg_from {n : Nat} (h : WorksAt maxRetry attempt n) {k : Nat} (hk : k ≤ n) (nodeTypes : List Str)
    (g : Graph) : persistMqttMsg st maxRetry attempt topic message (maxRetry - n + k) nodeTypes g =
      (saveAllNodes st g topic message (typesAt nodeTypes k)).elim (g, some .write) fun g => (g, none) := by
  have hwithin := h.within
  induction k generalizing nodeTypes with
  | zero =>
      have hconnect := h.connects n le_rfl
      have hat : maxRetry - (maxRetry - n) = n := by omega
      cases hleft : maxRetry - n with
      | zero =>
          have hn : maxRetry = n := by omega
          rw [persistMqttMsg, hn, h.works, if_neg (by omega), if_neg Bool.false_ne_true]
          rfl
      | succ left =>
          rw [hleft] at hat hconnect
          rw [Nat.add_zero, persistMqttMsg, hat, h.works, if_neg (by omega), if_neg Bool.false_ne_true]
          rfl
  | succ k ih =>
      have hat : maxRetry - (maxRetry - n + k + 1) = n - (k + 1) := by omega
      have hconnect := h.connects (n - (k + 1)) (by omega)
      rw [← Nat.add_assoc, persistMqttMsg, hat, h.fails (n - (k + 1)) (by omega), if_neg (by omega), if_pos rfl,
        ih (by omega)]
      cases k <;> rfl

/-- The one write that is kept is that of the call that works. -/
theorem persistMqttMsg_succeeds {n : Nat} (h : WorksAt maxRetry attempt n) (nodeTypes : List Str) (g : Graph) :
    persistMqttMsg st maxRetry attempt topic message maxRetry nodeTypes g =
      (saveAllNodes st g topic message (typesAt nodeTypes n)).elim (g, some .write) fun g => (g, none) := by
  have hfrom := @persistMqttMsg_from st maxRetry attempt topic message n h n le_rfl nodeTypes g
  rwa [Nat.sub_add_cancel h.within] at hfrom

end Uns.Graphdb
