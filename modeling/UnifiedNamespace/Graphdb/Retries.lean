/-
# `Graphdb.Retries` — when a retry changes the graph

A retry gives the levels of the topic the default types.  The graph is the one a first
try would have left for every message and every graph before it exactly when nothing
failed or the two tuples of types agree at the depths of the topic
(`retries_keep_iff`).  In the empty graph the labels of the nodes tell the two apart: a
run with the default types writes one node for each level, and a run with any types at
most one (`saveLevels_labels`).
-/
import UnifiedNamespace.Graphdb.TopicNodes

namespace Uns.Graphdb

open Py Lib Model

def emptyGraph : Graph := ⟨[], []⟩

def Graph.labels (g : Graph) : List Str := g.nodes.map GraphNode.label

/-- A message with one plain value. -/
def plainMessage : List (Str × Json) := [(lit "status", .str (lit "on"))]

variable {st : Storage} {g g' : Graph}

/-! ## Labels of the nodes -/

theorem saveNode_labels {nodename : Json} {nodetype : Str} {props : List (Str × Json)}
    {nodetypeProps : Option RelProps} {parent : Option Nat} {r : Graph × Nat}
    (h : saveNode st g nodename nodetype props nodetypeProps parent = some r) :
    r.1.labels = g.labels ∨ r.1.labels = g.labels ++ [nodetype] := by
  rw [saveNode] at h
  split at h
  · split at h
    · cases h
      refine .inl (List.ext_getElem? fun i => ?_)
      rw [Graph.labels, Graph.labels, List.getElem?_map, List.getElem?_map, List.getElem?_modify]
      cases g.nodes[i]? with
      | none => rfl
      | some node =>
          rw [Option.map_eq_map, Option.map_some, Option.map_some, Option.map_some]
          split <;> rfl
    · cases h
      refine .inr ?_
      rw [Graph.labels, Graph.labels, List.map_append]
      rfl
  · cases h

/-- A node is found only where its type is a label. -/
theorem findNode_of_label {nodename : Json} {nodetype : Str} {literalMap : RelProps} (parent : Option Nat)
    (h : nodetype ∉ g.labels) : g.findNode nodename nodetype literalMap parent = none := by
  have hnamed : ∀ node ∈ g.nodes, node.isNamed nodename nodetype = false := by
    intro node hnode
    rw [GraphNode.isNamed, Bool.and_eq_false_iff]
    refine .inl (decide_eq_false fun heq => h ?_)
    rw [← heq]
    exact List.mem_map_of_mem hnode
  cases parent with
  | none => exact List.findIdx?_eq_none_iff.mpr hnamed
  | some p =>
      rw [Graph.findNode, Option.map_eq_none_iff, List.find?_eq_none]
      intro r _ hfound
      obtain ⟨node, hnode, hname⟩ := (Option.any_eq_true _ _).mp (Bool.and_eq_true_iff.mp hfound).2
      rw [hnamed node (List.mem_of_getElem? hnode)] at hname
      cases hname

/-- The message under a node of its own. -/
theorem saveAttributeNodes_plain (nodename : Json) (nodeType : Str) (parent : Option Nat) :
    saveAttributeNodes st (nesting (.obj plainMessage)) g nodename nodeType parent none (.obj plainMessage) =
      (saveNode st g nodename nodeType plainMessage none parent).map fun r => r.1 := by
  have hparts : separate plainMessage = (plainMessage, []) := rfl
  have hnesting : nesting (.obj plainMessage) = 1 := by decide
  rw [hnesting, saveAttributeNodes, hparts]
  cases saveNode st g nodename nodeType plainMessage none parent <;> rfl

theorem saveLevel_labels {last : Option Str} {node nodeType : Str} {lastnodeId : Option Nat}
    {r : Graph × Option Nat} (h : saveLevel st plainMessage last g node nodeType lastnodeId = some r) :
    r.1.labels = g.labels ∨ r.1.labels = g.labels ++ [nodeType] := by
  rw [saveLevel, saveAttributeNodes_plain, Option.map_map] at h
  split at h
  · obtain ⟨saved, hsaved, rfl⟩ := Option.map_eq_some_iff.mp h
    exact saveNode_labels hsaved
  · obtain ⟨saved, hsaved, rfl⟩ := Option.map_eq_some_iff.mp h
    exact saveNode_labels hsaved

/-- The types of so many levels from a depth on. -/
def typesFrom (nodeTypes : List Str) (count n : Nat) : List (Option Str) :=
  (List.range' count n).map fun depth => getTopicNodeType depth nodeTypes

theorem typesFrom_succ (nodeTypes : List Str) (count n : Nat) :
    typesFrom nodeTypes count (n + 1) = getTopicNodeType count nodeTypes :: typesFrom nodeTypes (count + 1) n := by
  rw [typesFrom, List.range'_succ, List.map_cons]
  rfl

/-- A level adds at most one node, of its own type. -/
theorem saveLevels_labels {nodeTypes : List Str} {last : Option Str} {count : Nat} {lastnodeId : Option Nat}
    {nodes : List Str} (h : saveLevels st plainMessage nodeTypes last count lastnodeId g nodes = some g') :
    ∃ added, g'.labels = g.labels ++ added ∧
      List.Sublist (added.map some) (typesFrom nodeTypes count nodes.length) := by
  induction nodes generalizing count lastnodeId g with
  | nil =>
      cases h
      exact ⟨[], (List.append_nil _).symm, List.nil_sublist _⟩
  | cons node nodes ih =>
      obtain ⟨nodeType, htype, h⟩ := Option.bind_eq_some_iff.mp h
      obtain ⟨r, hlevel, h⟩ := Option.bind_eq_some_iff.mp h
      obtain ⟨added, hadded, hsub⟩ := ih h
      rw [List.length_cons, typesFrom_succ, htype]
      rcases saveLevel_labels hlevel with hlabels | hlabels
      · exact ⟨added, by rw [hadded, hlabels], hsub.cons _⟩
      · refine ⟨nodeType :: added, ?_, ?_⟩
        · rw [hadded, hlabels, List.append_assoc, List.singleton_append]
        · rw [List.map_cons]
          exact hsub.cons_cons _

/-! ## The default types -/

theorem getTopicNodeType_default (depth : Nat) :
    ∃ nodeType, getTopicNodeType depth defaultNodeTypes = some nodeType := by
  rw [getTopicNodeType]
  split
  · exact ⟨_, rfl⟩
  · exact ⟨_, rfl⟩

/-- The position a default type is for. -/
theorem getTopicNodeType_injective {m n : Nat}
    (h : getTopicNodeType m defaultNodeTypes = getTopicNodeType n defaultNodeTypes) : m = n := by
  have hdeep : ∀ depth, 5 ≤ depth → getTopicNodeType depth defaultNodeTypes =
      some (lit "DEVICE_depth_" ++ decimal (depth - 5 + 1)) := by
    intro depth hdepth
    rw [getTopicNodeType, List.getElem?_eq_none hdepth]
    rfl
  have hshallow : ∀ depth < 5, ∀ k, 5 ≤ k →
      getTopicNodeType depth defaultNodeTypes ≠ getTopicNodeType k defaultNodeTypes := by
    intro depth hdepth k hk heq
    rw [hdeep k hk] at heq
    have hlength := congrArg (Option.map List.length) heq
    have hbound : ∀ depth < 5, ∃ s, getTopicNodeType depth defaultNodeTypes = some s ∧ s.length ≤ 10 := by decide
    obtain ⟨s, hs, hle⟩ := hbound depth hdepth
    rw [hs, Option.map_some, Option.map_some, Option.some.injEq, List.length_append] at hlength
    have hthirteen : (lit "DEVICE_depth_").length = 13 := rfl
    omega
  rcases Nat.lt_or_ge m 5 with hm | hm <;> rcases Nat.lt_or_ge n 5 with hn | hn
  · have hall : ∀ m < 5, ∀ n < 5,
        getTopicNodeType m defaultNodeTypes = getTopicNodeType n defaultNodeTypes → m = n := by decide
    exact hall m hm n hn h
  · exact absurd h (hshallow m hm n hn)
  · exact absurd h.symm (hshallow n hn m hm)
  · rw [hdeep m hm, hdeep n hn, Option.some.injEq, List.append_cancel_left_eq] at h
    have hdecimal := congrArg ofDecimal h
    rw [ofDecimal_decimal, ofDecimal_decimal] at hdecimal
    omega

/-- The types of the levels before a depth. -/
def TypedBelow (count : Nat) (g : Graph) : Prop :=
  ∀ label ∈ g.labels, ∃ depth < count, getTopicNodeType depth defaultNodeTypes = some label

variable (htext : ∀ s, st.storable (.str s) = true)

include htext in
/-- A level whose type is new gets a node. -/
theorem saveNode_typedBelow {count : Nat} {nodeType : Str} (hbelow : TypedBelow count g)
    (htype : getTopicNodeType count defaultNodeTypes = some nodeType) (node : Str) {props : List (Str × Json)}
    (hprops : ∀ m ∈ transformNodeParams st props, st.storable m.2 = true) (lastnodeId : Option Nat) :
    ∃ id, saveNode st g (.str node) nodeType props none lastnodeId = some id ∧
      id.1.labels = g.labels ++ [nodeType] := by
  have hnew : nodeType ∉ g.labels := by
    intro hmem
    obtain ⟨depth, hdepth, heq⟩ := hbelow _ hmem
    exact absurd (getTopicNodeType_injective (heq.trans htype.symm)) hdepth.ne
  refine ⟨_, saveNode_new (htext node) hprops (findNode_of_label lastnodeId hnew), ?_⟩
  rw [Graph.labels, Graph.labels, List.map_append]
  rfl

include htext in
/-- With the default types every level gets a node. -/
theorem saveLevels_default {last : Option Str} {count : Nat} {lastnodeId : Option Nat} {nodes : List Str}
    (hbelow : TypedBelow count g) :
    ∃ g', saveLevels st plainMessage defaultNodeTypes last count lastnodeId g nodes = some g' ∧
      g'.labels.map some = g.labels.map some ++ typesFrom defaultNodeTypes count nodes.length := by
  induction nodes generalizing count lastnodeId g with
  | nil => exact ⟨g, rfl, (List.append_nil _).symm⟩
  | cons node nodes ih =>
      obtain ⟨nodeType, htype⟩ := getTopicNodeType_default count
      have hplain : ∀ m ∈ transformNodeParams st plainMessage, st.storable m.2 = true :=
        List.forall_mem_singleton.mpr (htext _)
      have hempty : ∀ m ∈ transformNodeParams st [], st.storable m.2 = true := List.forall_mem_nil _
      have hlevel : ∃ r, saveLevel st plainMessage last g node nodeType lastnodeId = some r ∧
          r.1.labels = g.labels ++ [nodeType] := by
        rw [saveLevel, saveAttributeNodes_plain, Option.map_map]
        split
        · obtain ⟨saved, hsaved, hlabels⟩ :=
            saveNode_typedBelow htext hbelow htype node hempty lastnodeId
          exact ⟨_, congrArg (Option.map _) hsaved, hlabels⟩
        · obtain ⟨saved, hsaved, hlabels⟩ := saveNode_typedBelow htext hbelow htype node hplain lastnodeId
          exact ⟨_, congrArg (Option.map _) hsaved, hlabels⟩
      obtain ⟨r, hr, hlabels⟩ := hlevel
      have hbelow' : TypedBelow (count + 1) r.1 := by
        intro label hlabel
        rw [hlabels] at hlabel
        rcases List.mem_append.mp hlabel with hold | hnew
        · obtain ⟨depth, hdepth, heq⟩ := hbelow label hold
          exact ⟨depth, Nat.lt_succ_of_lt hdepth, heq⟩
        · rw [List.mem_singleton.mp hnew]
          exact ⟨count, Nat.lt_succ_self _, htype⟩
      obtain ⟨g', hg', heq⟩ := @ih _ (count + 1) r.2 hbelow'
      refine ⟨g', ?_, ?_⟩
      · rw [saveLevels, htype, Option.bind_some, hr]
        exact hg'
      · rw [heq, hlabels, List.map_append, List.append_assoc, List.length_cons, typesFrom_succ, htype]
        rfl

/-! ## Runs with other types -/

/-- The levels are typed alike, and then they are saved alike. -/
theorem saveLevels_congr {message : List (Str × Json)} {types types' : List Str} {last : Option Str} {count : Nat}
    {lastnodeId : Option Nat} {nodes : List Str}
    (h : ∀ depth, count ≤ depth → depth < count + nodes.length →
      getTopicNodeType depth types = getTopicNodeType depth types') :
    saveLevels st message types last count lastnodeId g nodes =
      saveLevels st message types' last count lastnodeId g nodes := by
  induction nodes generalizing count lastnodeId g with
  | nil => rfl
  | cons node nodes ih =>
      rw [List.length_cons] at h
      rw [saveLevels, saveLevels, h count le_rfl (by omega)]
      congr 1
      funext nodeType
      congr 1
      funext r
      exact ih fun depth hle hlt => h depth (by omega) (by omega)

include htext in
/-- In the empty graph the default types leave the graph other types leave only where they
agree. -/
theorem types_agree_of_saveAllNodes {topic : Str} {types : List Str}
    (h : saveAllNodes st emptyGraph topic plainMessage types =
      saveAllNodes st emptyGraph topic plainMessage defaultNodeTypes) :
    ∀ depth < (splitSlash topic).length,
      getTopicNodeType depth types = getTopicNodeType depth defaultNodeTypes := by
  obtain ⟨g', hdefault, hlabels⟩ := @saveLevels_default st emptyGraph htext (splitSlash topic).getLast? 0 none
    (splitSlash topic) fun _ hmem => absurd hmem List.not_mem_nil
  obtain ⟨added, hadded, hsub⟩ := saveLevels_labels (h.trans hdefault)
  rw [hadded, List.map_append] at hlabels
  have hall : added.map some = typesFrom defaultNodeTypes 0 (splitSlash topic).length :=
    List.append_cancel_left hlabels
  rw [hall] at hsub
  have heq := hsub.eq_of_length (by rw [typesFrom, typesFrom, List.length_map, List.length_map])
  intro depth hdepth
  have hat := congrArg (fun types => types[depth]?) heq
  simp only [typesFrom, List.getElem?_map, List.getElem?_range' hdepth, Option.map_some, Option.some.injEq,
    Nat.zero_add, Nat.one_mul] at hat
  exact hat.symm

/-! ## Retries -/

/-- A database that never fails. -/
def steady : Nat → Attempt := fun _ => ⟨0, false⟩

theorem worksAt_steady (maxRetry : Nat) : WorksAt maxRetry steady 0 where
  within := Nat.zero_le _
  connects := fun _ _ => Nat.zero_le _
  fails := fun _ h => absurd h (Nat.not_lt_zero _)
  works := rfl

/-- What `persist_mqtt_msg` does to a graph, in the database that fails as it does and in
one that does not fail. -/
def SameEffect (st : Storage) (maxRetry : Nat) (attempt : Nat → Attempt) (nodeTypes : List Str) (topic : Str) : Prop :=
  ∀ message g, persistMqttMsg st maxRetry attempt topic message maxRetry nodeTypes g =
    persistMqttMsg st maxRetry steady topic message maxRetry nodeTypes g

/-- Failures leave no trace exactly when there is none, or the types of the levels of the
topic are those of the default. -/
theorem retries_keep_iff (htext : ∀ s, st.storable (.str s) = true) {maxRetry n : Nat} {attempt : Nat → Attempt}
    (h : WorksAt maxRetry attempt n) (nodeTypes : List Str) (topic : Str) :
    SameEffect st maxRetry attempt nodeTypes topic ↔
      n = 0 ∨ ∀ depth < (splitSlash topic).length,
        getTopicNodeType depth nodeTypes = getTopicNodeType depth defaultNodeTypes := by
  constructor
  · intro hsame
    cases n with
    | zero => exact .inl rfl
    | succ n =>
        have hempty := hsame plainMessage emptyGraph
        rw [persistMqttMsg_succeeds h, persistMqttMsg_succeeds (worksAt_steady maxRetry)] at hempty
        refine .inr (types_agree_of_saveAllNodes htext ?_)
        obtain ⟨g', hdefault, _⟩ := @saveLevels_default st emptyGraph htext (splitSlash topic).getLast? 0 none
          (splitSlash topic) fun _ hmem => absurd hmem List.not_mem_nil
        have hg' : saveAllNodes st emptyGraph topic plainMessage defaultNodeTypes = some g' := hdefault
        rw [typesAt, typesAt, hg'] at hempty
        rw [hg']
        cases hsave : saveAllNodes st emptyGraph topic plainMessage nodeTypes with
        | none =>
            rw [hsave] at hempty
            cases congrArg Prod.snd hempty
        | some g'' =>
            rw [hsave] at hempty
            exact congrArg some (congrArg Prod.fst hempty).symm
  · rintro (rfl | htypes) message g
    · rw [persistMqttMsg_succeeds h, persistMqttMsg_succeeds (worksAt_steady maxRetry)]
    · have hsave : ∀ k, saveAllNodes st g topic message (typesAt nodeTypes k) =
          saveAllNodes st g topic message nodeTypes := by
        intro k
        cases k with
        | zero => rfl
        | succ k => exact saveLevels_congr fun depth _ hdepth => (htypes depth (by omega)).symm
      rw [persistMqttMsg_succeeds h, persistMqttMsg_succeeds (worksAt_steady maxRetry), hsave, hsave]

/-- `GraphDBConfig.spb_node_types`. -/
def spbNodeTypes : List Str := [lit "spBv1_0", lit "GROUP", lit "MESSAGE_TYPE", lit "EDGE_NODE", lit "DEVICE"]

/-- A database that takes what is no object and no list. -/
def scalarStorage : Storage where
  storable v := match v with
    | .obj _ => false
    | .arr _ => false
    | _ => true
  text _ := []
  timestamp := .int 1700000000
  nestedAttributeNodeType := lit "NESTED_ATTRIBUTE"

/-- The first transaction is rolled back. -/
def failsOnce (n : Nat) : Attempt := ⟨0, decide (n = 0)⟩

theorem worksAt_failsOnce : WorksAt 5 failsOnce 1 where
  within := by decide
  connects := fun _ _ => Nat.zero_le _
  fails := by decide
  works := rfl

def birthTopic : Str := lit "spBv1.0/plant/NBIRTH/edge"

/-- The levels of a birth that is retried are an enterprise, a facility, an area and a line. -/
theorem retried_birth_relabelled :
    WorksAt 5 failsOnce 1 ∧ ¬ SameEffect scalarStorage 5 failsOnce spbNodeTypes birthTopic ∧
      (persistMqttMsg scalarStorage 5 failsOnce birthTopic plainMessage 5 spbNodeTypes emptyGraph).1.labels =
        [lit "ENTERPRISE", lit "FACILITY", lit "AREA", lit "LINE"] ∧
      (persistMqttMsg scalarStorage 5 steady birthTopic plainMessage 5 spbNodeTypes emptyGraph).1.labels =
        [lit "spBv1_0", lit "GROUP", lit "MESSAGE_TYPE", lit "EDGE_NODE"] := by
  have hretried : (persistMqttMsg scalarStorage 5 failsOnce birthTopic plainMessage 5 spbNodeTypes emptyGraph).1.labels =
      [lit "ENTERPRISE", lit "FACILITY", lit "AREA", lit "LINE"] := by decide +kernel
  have hfirst : (persistMqttMsg scalarStorage 5 steady birthTopic plainMessage 5 spbNodeTypes emptyGraph).1.labels =
      [lit "spBv1_0", lit "GROUP", lit "MESSAGE_TYPE", lit "EDGE_NODE"] := by decide +kernel
  refine ⟨worksAt_failsOnce, fun hsame => ?_, hretried, hfirst⟩
  have heq := congrArg (fun r => r.1.labels) (hsame plainMessage emptyGraph)
  rw [hretried, hfirst] at heq
  exact absurd heq (by decide)

theorem retried_birth_differs :
    SameEffect scalarStorage 5 failsOnce spbNodeTypes birthTopic ↔
      1 = 0 ∨ ∀ depth < (splitSlash birthTopic).length,
        getTopicNodeType depth spbNodeTypes = getTopicNodeType depth defaultNodeTypes :=
  retries_keep_iff (fun _ => rfl) worksAt_failsOnce spbNodeTypes birthTopic

end Uns.Graphdb
