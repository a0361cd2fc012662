/-
# `Graphdb.TopicChain` — a topic is a chain of nodes

What `persist_mqtt_msg` is for: one node for each level of the topic, each under the one
before it, the message on the last one and nothing of it on the others (`Chain`).  The
loop of `save_all_nodes` asks whether a level is *named like* the last one, not whether
it is the last, and an empty message makes no node, so the chain is there for every graph
exactly when the last name occurs once and the message is not empty
(`mirrors_iff`); the graph that shows the failures is the empty one.
-/
import UnifiedNamespace.Graphdb.Writes
import UnifiedNamespace.Graphdb.Retries

namespace Uns.Graphdb

open Py Lib Model

/-- The nodes of the levels from a depth on, under a parent, in the graph `g'` that was `g`:
each is younger than its parent and linked to it, its properties are those of a node
without data, and the relationships it has got lead to the next one.  The last has the plain
values of the message, and a child for each of its objects. -/
inductive Chain (st : Storage) (message : List (Str × Json)) (nodeTypes : List Str) (g g' : Graph) :
    Nat → Option Nat → List Str → List Nat → Prop
  | last {count : Nat} {parent : Option Nat} {node nodeType : Str} {id : Nat}
      (typed : getTopicNodeType count nodeTypes = some nodeType)
      (above : ∀ p ∈ parent, p < id) (linked : Linked g g' parent [] id)
      (written : Written st g g' parent (.str node) nodeType (transformNodeParams st (separate message).1) id)
      (nested : ∀ call ∈ (separate message).2.flatMap (nestedCall st), call.attrNodes ≠ .obj [] → Hangs g' id call) :
      Chain st message nodeTypes g g' count parent [node] [id]
  | cons {count : Nat} {parent : Option Nat} {node nodeType : Str} {nodes : List Str} {id : Nat} {ids : List Nat}
      (typed : getTopicNodeType count nodeTypes = some nodeType)
      (above : ∀ p ∈ parent, p < id) (linked : Linked g g' parent [] id)
      (written : Written st g g' parent (.str node) nodeType [] id)
      (bare : ∀ r ∈ g'.rels, r.parent = id → r ∈ g.rels ∨ some r.child = ids.head?)
      (rest : Chain st message nodeTypes g g' (count + 1) (some id) nodes ids) :
      Chain st message nodeTypes g g' count parent (node :: nodes) (id :: ids)

/-- The message is stored under its topic, in every graph this writer makes. -/
def Mirrors (st : Storage) (maxRetry : Nat) (nodeTypes : List Str) (topic : Str) (message : List (Str × Json)) : Prop :=
  ∀ g : Graph, g.Ordered → ∃ g' ids, persistMqttMsg st maxRetry steady topic message maxRetry nodeTypes g = (g', none) ∧
    g'.Ordered ∧ Chain st message nodeTypes g g' 0 none (splitSlash topic) ids

variable {st : Storage} {message : List (Str × Json)} {nodeTypes : List Str} {g g₁ g' : Graph}

/-! ## The chain is there -/

/-- What was saved above a chain is no part of it. -/
theorem Chain.of_saved {parent : Option Nat} {node nodeType : Str} {id : Nat}
    (hsaved : Saved st g g₁ parent [] (.str node) nodeType [] id) {count : Nat} {lastnodeId : Option Nat}
    {nodes : List Str} {ids : List Nat} (h : Chain st message nodeTypes g₁ g' count lastnodeId nodes ids)
    (hlast : ∃ p ∈ lastnodeId, id ≤ p) : Chain st message nodeTypes g g' count lastnodeId nodes ids := by
  obtain ⟨added, hadded, hall⟩ := hsaved.rels
  have hwritten : ∀ {parent : Option Nat} {node nodeType : Str} {attributes : List (Str × Json)} {c : Nat}, id < c →
      Written st g₁ g' parent (.str node) nodeType attributes c →
        Written st g g' parent (.str node) nodeType attributes c := by
    intro parent node nodeType attributes c hc hw
    rwa [Written, hsaved.others c hc.ne'] at hw
  have hlinked : ∀ {parent : Option Nat} {c : Nat}, Linked g₁ g' parent [] c → Linked g g' parent [] c := by
    intro parent c hl p hp
    obtain ⟨r, hr, hrp, hrc, hsub, hold⟩ := hl p hp
    refine ⟨r, hr, hrp, hrc, hsub, ?_⟩
    rcases hold with hold | hnew
    · rw [hadded] at hold
      exact (List.mem_append.mp hold).imp_right fun hmem => (hall r hmem).2.2
    · exact .inr hnew
  induction h with
  | last typed above linked written nested =>
      obtain ⟨p, hp, hle⟩ := hlast
      exact .last typed above (hlinked linked) (hwritten (hle.trans_lt (above p hp)) written) nested
  | @cons count parent' node' nodeType' nodes c ids typed above linked written bare rest ih =>
      obtain ⟨p, hp, hle⟩ := hlast
      have hc : id < c := hle.trans_lt (above p hp)
      refine .cons typed above (hlinked linked) (hwritten hc written) ?_ (ih ⟨c, rfl, hc.le⟩)
      intro r hr hparent
      rcases bare r hr hparent with hold | hnext
      · rw [hadded] at hold
        rcases List.mem_append.mp hold with hold | hmem
        · exact .inl hold
        · -- what was added leads to the node above
          have hp := (hall r hmem).1
          have habove := hsaved.above r.parent hp.symm
          omega
      · exact .inr hnext

/-- What the levels from a depth on leave. -/
structure LevelsSaved (st : Storage) (message : List (Str × Json)) (nodeTypes : List Str) (g g' : Graph) (count : Nat)
    (parent : Option Nat) (nodes : List Str) (ids : List Nat) : Prop where
  chain : Chain st message nodeTypes g g' count parent nodes ids
  ordered : g'.Ordered
  kept : ∀ p ∈ parent, ∀ i ≤ p, g'.nodes[i]? = g.nodes[i]?
  rels : ∃ added, g'.rels = g.rels ++ added ∧
    ∀ r ∈ added, (some r.parent = parent ∧ some r.child = ids.head?) ∨ ∀ p ∈ parent, p < r.parent

/-- The last level. -/
theorem levelsSaved_last {count : Nat} {parent : Option Nat} {node nodeType : Str}
    (htyped : getTopicNodeType count nodeTypes = some nodeType)
    (h : PayloadSaved st g g' parent [] (.str node) nodeType message) :
    ∃ ids, LevelsSaved st message nodeTypes g g' count parent [node] ids := by
  obtain ⟨g₁, id, hsaved, hbelow, hnested⟩ := h
  obtain ⟨added, hadded, hall⟩ := hsaved.rels
  obtain ⟨below, hbelowRels, hallBelow⟩ := hbelow.rels
  refine ⟨[id], .last htyped hsaved.above ?_ ?_ hnested, hbelow.ordered, ?_, added ++ below, ?_, ?_⟩
  · intro p hp
    obtain ⟨r, hr, hrest⟩ := hsaved.linked p hp
    exact ⟨r, hbelowRels ▸ List.mem_append_left _ hr, hrest⟩
  · rw [Written, hbelow.kept id le_rfl]
    exact hsaved.written
  · intro p hp i hi
    have hlt := hi.trans_lt (hsaved.above p hp)
    exact (hbelow.kept i hlt.le).trans (hsaved.others i hlt.ne)
  · rw [hbelowRels, hadded, List.append_assoc]
  · intro r hr
    rcases List.mem_append.mp hr with hr | hr
    · exact .inl ⟨(hall r hr).1, congrArg some (hall r hr).2.1⟩
    · exact .inr fun p hp => (hsaved.above p hp).trans_le (hallBelow r hr).1

/-- One level above a chain. -/
theorem levelsSaved_cons {count id : Nat} {parent : Option Nat} {node nodeType : Str} {nodes : List Str}
    {ids : List Nat} (htyped : getTopicNodeType count nodeTypes = some nodeType)
    (hsaved : Saved st g g₁ parent [] (.str node) nodeType [] id)
    (h : LevelsSaved st message nodeTypes g₁ g' (count + 1) (some id) nodes ids) :
    LevelsSaved st message nodeTypes g g' count parent (node :: nodes) (id :: ids) := by
  obtain ⟨added, hadded, hall⟩ := hsaved.rels
  obtain ⟨below, hbelow, hallBelow⟩ := h.rels
  refine ⟨.cons htyped hsaved.above ?_ ?_ ?_ (h.chain.of_saved hsaved ⟨id, rfl, le_rfl⟩), h.ordered, ?_, added ++ below, ?_, ?_⟩
  · intro p hp
    obtain ⟨r, hr, hrest⟩ := hsaved.linked p hp
    exact ⟨r, hbelow ▸ List.mem_append_left _ hr, hrest⟩
  · rw [Written, h.kept id rfl id le_rfl]
    exact hsaved.written
  · intro r hr hparent
    rw [hbelow, hadded, List.append_assoc] at hr
    rcases List.mem_append.mp hr with hr | hr
    · exact .inl hr
    · rcases List.mem_append.mp hr with hr | hr
      · have habove := hsaved.above r.parent (hall r hr).1.symm
        omega
      · rcases hallBelow r hr with ⟨_, hchild⟩ | hbelow
        · exact .inr hchild
        · have hlt := hbelow id rfl
          omega
  · intro p hp i hi
    have hlt := hi.trans_lt (hsaved.above p hp)
    exact (h.kept id rfl i hlt.le).trans (hsaved.others i hlt.ne)
  · rw [hbelow, hadded, List.append_assoc]
  · intro r hr
    rcases List.mem_append.mp hr with hr | hr
    · exact .inl ⟨(hall r hr).1, congrArg some (hall r hr).2.1⟩
    · refine .inr fun p hp => ?_
      have hlt := hsaved.above p hp
      rcases hallBelow r hr with ⟨hparent, _⟩ | hbelow
      · rw [Option.some.inj hparent]
        exact hlt
      · exact hlt.trans (hbelow id rfl)

theorem getTopicNodeType_isSome (depth : Nat) (h : nodeTypes ≠ []) :
    ∃ nodeType, getTopicNodeType depth nodeTypes = some nodeType := by
  rw [getTopicNodeType]
  split
  · exact ⟨_, rfl⟩
  · exact ⟨_, congrArg (Option.map _) (List.getLast?_eq_some_getLast h)⟩

/-- What the database has to take, for levels that end with a name. -/
structure Storable (st : Storage) (message : List (Str × Json)) (nodes : List Str) (last : Str) : Prop where
  names : ∀ node ∈ nodes, st.storable (.str node) = true
  message : accepts st (nesting (.obj message)) (.str last) (.obj message) = true

/-- Levels of which only the last has its name are saved as a chain. -/
theorem saveLevels_chain {last : Str} {count : Nat} {parent : Option Nat} {nodes : List Str}
    (hlast : nodes.getLast? = some last) (hfresh : last ∉ nodes.dropLast) (htypes : nodeTypes ≠ [])
    (hmessage : message ≠ []) (hstorable : Storable st message nodes last) (hordered : g.Ordered)
    (hparent : ∀ p ∈ parent, p < g.nodes.length) :
    ∃ g' ids, saveLevels st message nodeTypes (some last) count parent g nodes = some g' ∧
      LevelsSaved st message nodeTypes g g' count parent nodes ids := by
  induction nodes generalizing count parent g with
  | nil => cases hlast
  | cons node nodes ih =>
      obtain ⟨nodeType, htyped⟩ := getTopicNodeType_isSome count htypes
      cases nodes with
      | nil =>
          obtain rfl : node = last := Option.some.inj hlast
          have hsome := (@saveAttributeNodes_isSome st g _ _ nodeType parent none _).trans hstorable.message
          obtain ⟨g', hg'⟩ := Option.isSome_iff_exists.mp hsome
          have hspec := saveAttributeNodes_spec hordered hparent hmessage hg'
          obtain ⟨ids, hids⟩ := levelsSaved_last htyped hspec
          refine ⟨g', ids, ?_, hids⟩
          rw [saveLevels, htyped, Option.bind_some, saveLevel, if_neg (fun h => h rfl), hg']
          rfl
      | cons next nodes =>
          rw [List.dropLast_cons_cons, List.mem_cons, not_or] at hfresh
          have hsome : (saveNode st g (.str node) nodeType [] none parent).isSome = true := by
            rw [saveNode_isSome, hstorable.names node List.mem_cons_self]
            rfl
          obtain ⟨⟨g₁, id⟩, hsave⟩ := Option.isSome_iff_exists.mp hsome
          have hsaved := saveNode_spec hordered hparent List.not_mem_nil hsave
          obtain ⟨g', ids, hrest, hchain⟩ := @ih _ (count + 1) (some id)
            (List.getLast?_cons_cons.symm.trans hlast) hfresh.2
            ⟨fun n hn => hstorable.names n (List.mem_cons_of_mem _ hn), hstorable.message⟩ hsaved.ordered
            fun p hp => Option.mem_some_iff.mp hp ▸ hsaved.inside
          refine ⟨g', id :: ids, ?_, levelsSaved_cons htyped hsaved hchain⟩
          rw [saveLevels, htyped, Option.bind_some, saveLevel,
            if_pos (fun h => hfresh.1 (Option.some.inj h).symm), hsave]
          exact hrest

/-! ## Names in a graph that was empty -/

/-- What has no properties leads down from a level that is not named like the last. -/
structure PlainBelow (last : Str) (g : Graph) (lastnodeId : Option Nat) : Prop where
  ordered : g.Ordered
  plain : ∀ r ∈ g.rels, r.label = [] → ∃ s, g.nameAt r.parent = some (.str s) ∧ s ≠ last
  lastnode : ∀ p ∈ lastnodeId, p < g.nodes.length ∧ ∃ s, g.nameAt p = some (.str s) ∧ s ≠ last

/-- One level more. -/
theorem PlainBelow.saveLevel {last node nodeType : Str} {lastnodeId : Option Nat} {r : Graph × Option Nat}
    (h : PlainBelow last g lastnodeId)
    (hlevel : saveLevel st message (some last) g node nodeType lastnodeId = some r) : PlainBelow last r.1 r.2 := by
  have hparent : ∀ p ∈ lastnodeId, p < g.nodes.length := fun p hp => (h.lastnode p hp).1
  have hkept : ∀ {g' : Graph}, (∀ i < g.nodes.length, g'.nameAt i = g.nameAt i) → ∀ r ∈ g.rels, r.label = [] →
      ∃ s, g'.nameAt r.parent = some (.str s) ∧ s ≠ last := by
    intro g' hnames r hr hlabel
    obtain ⟨s, hs, hne⟩ := h.plain r hr hlabel
    have hbounds := h.ordered r hr
    exact ⟨s, (hnames r.parent (hbounds.1.trans hbounds.2)).trans hs, hne⟩
  have hadded : ∀ {g' : Graph}, (∀ i < g.nodes.length, g'.nameAt i = g.nameAt i) → ∀ p, some p = lastnodeId →
      ∃ s, g'.nameAt p = some (.str s) ∧ s ≠ last := by
    intro g' hnames p hp
    obtain ⟨hlt, s, hs, hne⟩ := h.lastnode p hp.symm
    exact ⟨s, (hnames p hlt).trans hs, hne⟩
  rw [Graphdb.saveLevel] at hlevel
  split at hlevel
  · next hnode =>
      obtain ⟨⟨g₁, id⟩, hsave, rfl⟩ := Option.map_eq_some_iff.mp hlevel
      have hsaved := saveNode_spec h.ordered hparent List.not_mem_nil hsave
      refine ⟨hsaved.ordered, ?_, ?_⟩
      · intro r hr hlabel
        obtain ⟨added, hrels, hall⟩ := hsaved.rels
        rw [hrels] at hr
        rcases List.mem_append.mp hr with hr | hr
        · exact hkept hsaved.names r hr hlabel
        · exact hadded hsaved.names r.parent (hall r hr).1
      · rintro p hp
        cases hp
        exact ⟨hsaved.inside, node, hsaved.named node rfl, fun heq => hnode (congrArg some heq)⟩
  · obtain ⟨g', hsave, rfl⟩ := Option.map_eq_some_iff.mp hlevel
    rcases eq_or_ne message [] with rfl | hmessage
    · cases hsave
      exact h
    · obtain ⟨g₁, id, hsaved, hbelow, _⟩ := saveAttributeNodes_spec h.ordered hparent hmessage hsave
      have hnames : ∀ i < g.nodes.length, g'.nameAt i = g.nameAt i := fun i hi =>
        (hbelow.names i (hi.trans_le hsaved.length)).trans (hsaved.names i hi)
      refine ⟨hbelow.ordered, ?_, ?_⟩
      · intro r hr hlabel
        obtain ⟨added, hrels, hall⟩ := hsaved.rels
        obtain ⟨below, hrelsBelow, hallBelow⟩ := hbelow.rels
        rw [hrelsBelow, hrels, List.append_assoc] at hr
        rcases List.mem_append.mp hr with hr | hr
        · exact hkept hnames r hr hlabel
        · rcases List.mem_append.mp hr with hr | hr
          · exact hadded hnames r.parent (hall r hr).1
          · exact absurd hlabel (hallBelow r hr).2
      · intro p hp
        exact ⟨(hparent p hp).trans_le (hsaved.length.trans hbelow.length), hadded hnames p hp.symm⟩

theorem PlainBelow.saveLevels {last : Str} {count : Nat} {lastnodeId : Option Nat} {nodes : List Str}
    (h : PlainBelow last g lastnodeId)
    (hsaves : saveLevels st message nodeTypes (some last) count lastnodeId g nodes = some g') :
    ∃ p, PlainBelow last g' p := by
  induction nodes generalizing count lastnodeId g with
  | nil =>
      cases hsaves
      exact ⟨lastnodeId, h⟩
  | cons node nodes ih =>
      obtain ⟨nodeType, _, hsaves⟩ := Option.bind_eq_some_iff.mp hsaves
      obtain ⟨r, hlevel, hsaves⟩ := Option.bind_eq_some_iff.mp hsaves
      exact ih (h.saveLevel hlevel) hsaves

theorem plainBelow_empty (last : Str) : PlainBelow last emptyGraph none where
  ordered _ hr := absurd hr List.not_mem_nil
  plain _ hr := absurd hr List.not_mem_nil
  lastnode _ hp := by cases hp

/-- An empty message makes no node of the last name. -/
theorem saveLevels_nil_named {last : Str} {count : Nat} {lastnodeId : Option Nat} {nodes : List Str}
    (hordered : g.Ordered) (hparent : ∀ p ∈ lastnodeId, p < g.nodes.length)
    (hnone : ∀ i, g.nameAt i ≠ some (.str last))
    (hsaves : saveLevels st [] nodeTypes (some last) count lastnodeId g nodes = some g') :
    ∀ i, g'.nameAt i ≠ some (.str last) := by
  induction nodes generalizing count lastnodeId g with
  | nil =>
      cases hsaves
      exact hnone
  | cons node nodes ih =>
      obtain ⟨nodeType, _, hsaves⟩ := Option.bind_eq_some_iff.mp hsaves
      obtain ⟨r, hlevel, hsaves⟩ := Option.bind_eq_some_iff.mp hsaves
      rw [saveLevel] at hlevel
      split at hlevel
      · next hnode =>
          obtain ⟨⟨g₁, id⟩, hsave, rfl⟩ := Option.map_eq_some_iff.mp hlevel
          have hsaved := saveNode_spec hordered hparent List.not_mem_nil hsave
          refine ih hsaved.ordered (fun p hp => Option.mem_some_iff.mp hp ▸ hsaved.inside) ?_ hsaves
          intro i
          rcases eq_or_ne i id with rfl | hi
          · rw [hsaved.named node rfl]
            exact fun heq => hnode (congrArg some (Json.str.inj (Option.some.inj heq)))
          · rw [Graph.nameAt, hsaved.others i hi]
            exact hnone i
      · obtain ⟨g₁, hsave, rfl⟩ := Option.map_eq_some_iff.mp hlevel
        cases hsave
        exact ih hordered hparent hnone hsaves

/-- A node of a chain in a graph that was empty is named like its level. -/
theorem nameAt_written {parent : Option Nat} {node nodeType : Str} {attributes : List (Str × Json)} {id : Nat}
    (hattributes : nodeNameKey ∉ keys attributes)
    (h : Written st emptyGraph g' parent (.str node) nodeType attributes id) : g'.nameAt id = some (.str node) := by
  rcases h with ⟨_, hnew⟩ | ⟨_, hold, _⟩
  · rw [Graph.nameAt, hnew]
    exact nameAt_created hattributes
  · cases hold

theorem Chain.typed {count : Nat} {parent : Option Nat} {nodes : List Str} {ids : List Nat}
    (h : Chain st message nodeTypes g g' count parent nodes ids) :
    ∃ nodeType, getTopicNodeType count nodeTypes = some nodeType := by
  cases h with
  | last typed => exact ⟨_, typed⟩
  | cons typed => exact ⟨_, typed⟩

theorem Chain.last_named {count : Nat} {parent : Option Nat} {nodes : List Str} {ids : List Nat}
    (h : Chain st message nodeTypes emptyGraph g' count parent nodes ids) {last : Str}
    (hlast : nodes.getLast? = some last) : ∃ id, g'.nameAt id = some (.str last) := by
  induction h with
  | last typed above linked written nested =>
      rw [← Option.some.inj hlast]
      exact ⟨_, nameAt_written (nodeName_notMem_separate st message) written⟩
  | cons typed above linked written bare rest ih =>
      cases rest with
      | last => exact ih (List.getLast?_cons_cons.symm.trans hlast)
      | cons => exact ih (List.getLast?_cons_cons.symm.trans hlast)

/-- No level of a chain that is not the last has the last name. -/
theorem Chain.fresh {last : Str} {p : Option Nat} (hplain : PlainBelow last g' p) {count : Nat}
    {parent : Option Nat} {nodes : List Str} {ids : List Nat}
    (h : Chain st message nodeTypes emptyGraph g' count parent nodes ids) : last ∉ nodes.dropLast := by
  -- a level above another has a relationship without properties
  have hlinked : ∀ {id c : Nat} {node nodeType : Str} {parent : Option Nat},
      Written st emptyGraph g' parent (.str node) nodeType [] id → Linked emptyGraph g' (some id) [] c →
        last ≠ node := by
    rintro id c node nodeType parent hwritten hlink rfl
    obtain ⟨r, hr, hparent, _, _, hold | hlabel⟩ := hlink id rfl
    · exact absurd hold List.not_mem_nil
    · obtain ⟨s, hs, hne⟩ := hplain.plain r hr hlabel
      rw [hparent, nameAt_written List.not_mem_nil hwritten] at hs
      exact hne (Json.str.inj (Option.some.inj hs)).symm
  induction h with
  | last typed above linked written nested => exact List.not_mem_nil
  | cons typed above linked written bare rest ih =>
      cases rest with
      | last _ _ linked' =>
          rw [List.dropLast_cons_cons, List.mem_cons, not_or]
          exact ⟨hlinked written linked', ih⟩
      | cons _ _ linked' =>
          rw [List.dropLast_cons_cons, List.mem_cons, not_or]
          exact ⟨hlinked written linked', ih⟩

/-! ## When a topic is mirrored -/

/-- `nodes[-1]`. -/
def lastLevel (topic : Str) : Str := (splitSlash topic).getLast (splitSlash_ne_nil topic)

/-- What the levels take from the database when they are saved. -/
theorem storable_of_saveLevels {last : Str} {count : Nat} {lastnodeId : Option Nat} {nodes : List Str}
    (hlast : nodes.getLast? = some last) (hmessage : message ≠ [])
    (hsaves : saveLevels st message nodeTypes (some last) count lastnodeId g nodes = some g') :
    Storable st message nodes last := by
  have hname : accepts st (nesting (.obj message)) (.str last) (.obj message) = true → st.storable (.str last) = true := by
    intro haccepts
    rw [nesting, Nat.add_comm, accepts, List.isEmpty_eq_false_iff.mpr hmessage, Bool.false_or, Bool.and_eq_true,
      Bool.and_eq_true] at haccepts
    exact haccepts.1.1
  induction nodes generalizing count lastnodeId g with
  | nil => cases hlast
  | cons node nodes ih =>
      obtain ⟨nodeType, _, hsaves⟩ := Option.bind_eq_some_iff.mp hsaves
      obtain ⟨r, hlevel, hsaves⟩ := Option.bind_eq_some_iff.mp hsaves
      rw [saveLevel] at hlevel
      have hlevelName : (some node ≠ some last → st.storable (.str node) = true) ∧
          (some node = some last → accepts st (nesting (.obj message)) (.str last) (.obj message) = true) := by
        split at hlevel
        · next hne =>
            obtain ⟨saved, hsave, _⟩ := Option.map_eq_some_iff.mp hlevel
            have hsome := saveNode_isSome.symm.trans (congrArg Option.isSome hsave)
            exact ⟨fun _ => (Bool.and_eq_true_iff.mp hsome).1, fun heq => absurd heq hne⟩
        · next heq =>
            rw [ne_eq, not_not] at heq
            obtain ⟨saved, hsave, _⟩ := Option.map_eq_some_iff.mp hlevel
            have hsome := saveAttributeNodes_isSome.symm.trans (congrArg Option.isSome hsave)
            rw [Option.some.inj heq] at hsome
            exact ⟨fun hne => absurd heq hne, fun _ => hsome⟩
      have hnode : st.storable (.str node) = true := by
        rcases eq_or_ne (some node) (some last) with heq | hne
        · rw [Option.some.inj heq]
          exact hname (hlevelName.2 heq)
        · exact hlevelName.1 hne
      cases nodes with
      | nil => exact ⟨List.forall_mem_singleton.mpr hnode, hlevelName.2 hlast⟩
      | cons next nodes =>
          have hrest := ih (List.getLast?_cons_cons.symm.trans hlast) hsaves
          exact ⟨List.forall_mem_cons.mpr ⟨hnode, hrest.names⟩, hrest.message⟩

/-- The call, in a database that does not fail. -/
theorem persistMqttMsg_steady (maxRetry : Nat) (topic : Str) (g : Graph) :
    persistMqttMsg st maxRetry steady topic message maxRetry nodeTypes g =
      (saveLevels st message nodeTypes (some (lastLevel topic)) 0 none g (splitSlash topic)).elim (g, some .write)
        fun g => (g, none) := by
  have hlast : (splitSlash topic).getLast? = some (lastLevel topic) := List.getLast?_eq_some_getLast _
  rw [persistMqttMsg_succeeds (worksAt_steady maxRetry), saveAllNodes, hlast]
  rfl

/-- What the chain in the empty graph takes. -/
theorem conditions_of_mirrors {maxRetry : Nat} {topic : Str} (h : Mirrors st maxRetry nodeTypes topic message) :
    lastLevel topic ∉ (splitSlash topic).dropLast ∧ message ≠ [] ∧ nodeTypes ≠ [] ∧
      Storable st message (splitSlash topic) (lastLevel topic) := by
  have hlast : (splitSlash topic).getLast? = some (lastLevel topic) := List.getLast?_eq_some_getLast _
  obtain ⟨g', ids, hrun, _, hchain⟩ := h emptyGraph (plainBelow_empty []).ordered
  rw [persistMqttMsg_steady] at hrun
  cases hsaves : saveLevels st message nodeTypes (some (lastLevel topic)) 0 none emptyGraph (splitSlash topic) with
  | none =>
      rw [hsaves] at hrun
      cases congrArg Prod.snd hrun
  | some saved =>
      rw [hsaves] at hrun
      obtain rfl : saved = g' := congrArg Prod.fst hrun
      obtain ⟨p, hplain⟩ := (plainBelow_empty (lastLevel topic)).saveLevels hsaves
      have hmessage : message ≠ [] := by
        rintro rfl
        obtain ⟨id, hid⟩ := hchain.last_named hlast
        exact saveLevels_nil_named (plainBelow_empty []).ordered (fun p hp => by cases hp)
          (fun i heq => by cases heq) hsaves id hid
      refine ⟨hchain.fresh hplain, hmessage, ?_, storable_of_saveLevels hlast hmessage hsaves⟩
      rintro rfl
      obtain ⟨nodeType, htyped⟩ := hchain.typed
      cases htyped

/-- A message is mirrored in every graph exactly when no level before the last has its name,
the message is not empty, there are types for the levels, and the database takes the names and
the values. -/
theorem mirrors_iff (st : Storage) (maxRetry : Nat) (nodeTypes : List Str) (topic : Str)
    (message : List (Str × Json)) :
    Mirrors st maxRetry nodeTypes topic message ↔
      lastLevel topic ∉ (splitSlash topic).dropLast ∧ message ≠ [] ∧ nodeTypes ≠ [] ∧
        Storable st message (splitSlash topic) (lastLevel topic) := by
  refine ⟨conditions_of_mirrors, ?_⟩
  rintro ⟨hfresh, hmessage, htypes, hstorable⟩ g hordered
  have hlast : (splitSlash topic).getLast? = some (lastLevel topic) := List.getLast?_eq_some_getLast _
  obtain ⟨g', ids, hsaves, hlevels⟩ := @saveLevels_chain st message nodeTypes g _ 0 none _ hlast hfresh htypes
    hmessage hstorable hordered fun p hp => by cases hp
  refine ⟨g', ids, ?_, hlevels.ordered, hlevels.chain⟩
  rw [persistMqttMsg_steady, hsaves]
  rfl

def repeatedTopic : Str := lit "plant/line/plant"

/-- A topic that ends like it starts: the message is on the first level and on a node of
that name under `line`, which hangs under nothing. -/
theorem repeated_level_not_mirrored :
    ¬ Mirrors scalarStorage 5 defaultNodeTypes repeatedTopic plainMessage ∧
      (persistMqttMsg scalarStorage 5 steady repeatedTopic plainMessage 5 defaultNodeTypes emptyGraph).1.rels =
        [⟨1, 2, []⟩] ∧
      ∀ i ∈ [0, 2], ((persistMqttMsg scalarStorage 5 steady repeatedTopic plainMessage 5 defaultNodeTypes
        emptyGraph).1.nodes[i]?).map (fun node => (getKey node.props (lit "status")).isSome) = some true := by
  refine ⟨fun h => ?_, by decide +kernel, by decide +kernel⟩
  exact (conditions_of_mirrors h).1 (by decide)

end Uns.Graphdb
