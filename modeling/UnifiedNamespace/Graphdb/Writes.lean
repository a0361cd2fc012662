/-
# `Graphdb.Writes` — what a write leaves alone

`save_node` touches one node and adds at most the relationship to it (`Saved`); everything
`save_attribute_nodes` writes after that hangs below the node (`Below`).  The graphs this
writer makes are ordered: a child is younger than its parent, so what hangs below a node
is not above it, and no graph is too full for a write.
-/
import UnifiedNamespace.Graphdb.TopicNodes

namespace Uns.Graphdb

open Py Lib

/-- Every child is younger than its parent. -/
def Graph.Ordered (g : Graph) : Prop := ∀ r ∈ g.rels, r.parent < r.child ∧ r.child < g.nodes.length

def Graph.nameAt (g : Graph) (id : Nat) : Option Json := (g.nodes[id]?).bind fun node => getKey node.props nodeNameKey

/-- The node as a write of so many properties leaves it: new, or touched. -/
def Written (st : Storage) (g g' : Graph) (parent : Option Nat) (nodename : Json) (nodetype : Str)
    (attributes : List (Str × Json)) (id : Nat) : Prop :=
  (g.nodes[id]? = none ∧ g'.nodes[id]? = some (createdNode st nodename nodetype attributes)) ∨
    ∃ node, g.nodes[id]? = some node ∧ node.isNamed nodename nodetype = true ∧
      g'.nodes[id]? = some { node with
        props := setAttributes (setKey node.props (touchedKey parent) st.timestamp) attributes }

/-- The parent has a relationship to the node, and one that is new has these properties only. -/
def Linked (g g' : Graph) (parent : Option Nat) (literalMap : RelProps) (id : Nat) : Prop :=
  ∀ p ∈ parent, ∃ r ∈ g'.rels, r.parent = p ∧ r.child = id ∧ literalMap ⊆ r.label ∧ (r ∈ g.rels ∨ r.label = literalMap)

/-- `save_node` has been called. -/
structure Saved (st : Storage) (g g' : Graph) (parent : Option Nat) (literalMap : RelProps) (nodename : Json)
    (nodetype : Str) (attributes : List (Str × Json)) (id : Nat) : Prop where
  written : Written st g g' parent nodename nodetype attributes id
  linked : Linked g g' parent literalMap id
  others : ∀ i, i ≠ id → g'.nodes[i]? = g.nodes[i]?
  inside : id < g'.nodes.length
  above : ∀ p ∈ parent, p < id
  rels : ∃ added, g'.rels = g.rels ++ added ∧
    ∀ r ∈ added, some r.parent = parent ∧ r.child = id ∧ r.label = literalMap
  length : g.nodes.length ≤ g'.nodes.length
  ordered : g'.Ordered
  /-- Names stay, and a text is the name of the node that has been asked for. -/
  names : ∀ i < g.nodes.length, g'.nameAt i = g.nameAt i
  named : ∀ s, nodename = .str s → g'.nameAt id = some (.str s)

/-- What has been written hangs below a node, on relationships with properties. -/
structure Below (b : Nat) (g g' : Graph) : Prop where
  kept : ∀ i ≤ b, g'.nodes[i]? = g.nodes[i]?
  rels : ∃ added, g'.rels = g.rels ++ added ∧ ∀ r ∈ added, b ≤ r.parent ∧ r.label ≠ []
  length : g.nodes.length ≤ g'.nodes.length
  ordered : g'.Ordered
  names : ∀ i < g.nodes.length, g'.nameAt i = g.nameAt i

variable {st : Storage} {g g' : Graph}

/-! ## Properties -/

theorem getKey_cons (m : Str × Json) (ms : List (Str × Json)) (k : Str) :
    getKey (m :: ms) k = if m.1 = k then some m.2 else getKey ms k := by
  rw [getKey, List.find?_cons]
  by_cases h : m.1 = k
  · rw [if_pos h, decide_eq_true h]
    rfl
  · rw [if_neg h, decide_eq_false h]
    rfl

theorem getKey_setKey_ne {props : List (Str × Json)} {k l : Str} (v : Json) (h : k ≠ l) :
    getKey (setKey props k v) l = getKey props l := by
  induction props with
  | nil => rw [setKey, getKey_cons, if_neg h]
  | cons m props ih =>
      obtain ⟨k', v'⟩ := m
      rw [setKey]
      split
      · next heq =>
          rw [getKey_cons, getKey_cons, if_neg (heq ▸ h), if_neg (heq ▸ h)]
      · rw [getKey_cons, getKey_cons, ih]

theorem getKey_filter_ne {props : List (Str × Json)} {k l : Str} (h : k ≠ l) :
    getKey (props.filter fun e => e.1 ≠ k) l = getKey props l := by
  induction props with
  | nil => rfl
  | cons m props ih =>
      rw [List.filter_cons]
      split
      · rw [getKey_cons, getKey_cons, ih]
      · next hm =>
          have heq : m.1 = k := by simpa using hm
          rw [getKey_cons, if_neg (heq ▸ h), ih]

theorem getKey_setAttributes {props attributes : List (Str × Json)} {l : Str} (h : l ∉ keys attributes) :
    getKey (setAttributes props attributes) l = getKey props l := by
  induction attributes generalizing props with
  | nil => rfl
  | cons m attributes ih =>
      rw [keys, List.map_cons, List.mem_cons, not_or] at h
      rw [setAttributes, List.foldl_cons]
      refine (ih h.2).trans ?_
      split
      · exact getKey_filter_ne (Ne.symm h.1)
      · exact getKey_setKey_ne _ (Ne.symm h.1)

theorem mem_keys_setKey {props : List (Str × Json)} {k l : Str} {v : Json} (h : l ∈ keys (setKey props k v)) :
    l = k ∨ l ∈ keys props := by
  induction props with
  | nil => exact .inl (List.mem_singleton.mp h)
  | cons m props ih =>
      obtain ⟨k', v'⟩ := m
      rw [setKey] at h
      split at h
      · exact .inr h
      · rcases List.mem_cons.mp h with rfl | h
        · exact .inr List.mem_cons_self
        · exact (ih h).imp_right (List.mem_cons_of_mem _)

theorem mem_keys_dictOf {members : List (Str × Json)} {l : Str} (h : l ∈ keys (dictOf members)) : l ∈ keys members := by
  have hfold : ∀ (members d : List (Str × Json)), l ∈ keys (members.foldl (fun d p => setKey d p.1 p.2) d) →
      l ∈ keys d ∨ l ∈ keys members := by
    intro members
    induction members with
    | nil => exact fun d h => .inl h
    | cons m members ih =>
        intro d h
        rcases ih _ h with h | h
        · rcases mem_keys_setKey h with rfl | h
          · exact .inr List.mem_cons_self
          · exact .inl h
        · exact .inr (List.mem_cons_of_mem _ h)
  exact (hfold members [] h).resolve_left List.not_mem_nil

/-- No plain value has the restricted name. -/
theorem nodeName_notMem_separate (st : Storage) (fields : List (Str × Json)) :
    nodeNameKey ∉ keys (transformNodeParams st (separate fields).1) := by
  intro h
  rw [keys, transformNodeParams, List.map_map] at h
  obtain ⟨m, hm, heq⟩ := List.mem_map.mp (mem_keys_dictOf (l := nodeNameKey) h)
  obtain ⟨m, _, rfl⟩ := List.mem_map.mp hm
  rw [respelled] at heq
  split at heq
  · have hupper : nodeNameUpper ≠ nodeNameKey := by decide
    exact hupper heq
  · next hne => exact hne heq

theorem setKey_ne_nil (props : List (Str × Json)) (k : Str) (v : Json) : setKey props k v ≠ [] := by
  cases props with
  | nil => exact List.cons_ne_nil _ _
  | cons m props =>
      rw [setKey]
      split <;> exact List.cons_ne_nil _ _

theorem dictOf_eq_nil {members : List (Str × Json)} : dictOf members = [] ↔ members = [] := by
  refine ⟨fun h => ?_, fun h => congrArg dictOf h⟩
  rcases List.eq_nil_or_concat members with hnil | ⟨init, m, rfl⟩
  · exact hnil
  · rw [List.concat_eq_append, dictOf, List.foldl_append] at h
    exact absurd h (setKey_ne_nil _ _ _)

/-- A message has no parts only when it is empty. -/
theorem separate_empty (fields : List (Str × Json)) :
    ((separate fields).1.isEmpty && (separate fields).2.isEmpty) = fields.isEmpty := by
  rw [Bool.eq_iff_iff, Bool.and_eq_true, List.isEmpty_iff, List.isEmpty_iff, List.isEmpty_iff, separate, dictOf_eq_nil,
    dictOf_eq_nil, List.map_eq_nil_iff, List.map_eq_nil_iff, List.filter_eq_nil_iff, List.filter_eq_nil_iff]
  constructor
  · rintro ⟨hplain, hcomposite⟩
    refine List.eq_nil_iff_forall_not_mem.mpr fun m hm => ?_
    refine hplain m hm ?_
    rw [Bool.not_eq_true', Bool.eq_false_iff]
    exact hcomposite m hm
  · rintro rfl
    exact ⟨fun _ h => absurd h List.not_mem_nil, fun _ h => absurd h List.not_mem_nil⟩

/-! ## One node -/

theorem pyEq_str {v : Json} {s : Str} (h : v.pyEq (.str s) = true) : v = .str s := by
  cases v with
  | str t => exact congrArg Json.str (of_decide_eq_true h)
  | null => cases h
  | bool b => cases h
  | int n => cases h
  | float f => cases f <;> cases h
  | arr xs => cases h
  | obj ms => cases h

theorem nameAt_created {nodename : Json} {nodetype : Str} {attributes : List (Str × Json)}
    (hattributes : nodeNameKey ∉ keys attributes) :
    getKey (createdNode st nodename nodetype attributes).props nodeNameKey = some nodename := by
  rw [createdNode, getKey_setAttributes hattributes, getKey_cons, if_pos rfl]

/-- A node that is found is a child of the parent, and has the name and the type. -/
theorem findNode_spec {nodename : Json} {nodetype : Str} {literalMap : RelProps} {parent : Option Nat} {id : Nat}
    (h : g.findNode nodename nodetype literalMap parent = some id) :
    (∃ node, g.nodes[id]? = some node ∧ node.isNamed nodename nodetype = true) ∧
      ∀ p ∈ parent, ∃ r ∈ g.rels, r.parent = p ∧ r.child = id ∧ literalMap ⊆ r.label := by
  cases parent with
  | none =>
      obtain ⟨hlt, hname, _⟩ := List.findIdx?_eq_some_iff_getElem.mp h
      exact ⟨⟨_, List.getElem?_eq_getElem hlt, hname⟩, fun p hp => by cases hp⟩
  | some p =>
      obtain ⟨r, hfind, rfl⟩ := Option.map_eq_some_iff.mp h
      have hfound := List.find?_some hfind
      rw [Bool.and_eq_true, Bool.and_eq_true, decide_eq_true_iff, decide_eq_true_iff] at hfound
      obtain ⟨⟨hparent, hlabel⟩, hnode⟩ := hfound
      refine ⟨(Option.any_eq_true _ _).mp hnode, fun q hq => ?_⟩
      cases hq
      exact ⟨r, List.mem_of_find?_eq_some hfind, hparent, rfl, hlabel⟩

/-- `save_node` on an ordered graph. -/
theorem saveNode_spec {nodename : Json} {nodetype : Str} {props : List (Str × Json)}
    {nodetypeProps : Option RelProps} {parent : Option Nat} {id : Nat} (hordered : g.Ordered)
    (hparent : ∀ p ∈ parent, p < g.nodes.length) (hname : nodeNameKey ∉ keys (transformNodeParams st props))
    (h : saveNode st g nodename nodetype props nodetypeProps parent = some (g', id)) :
    Saved st g g' parent (getLiteralMap nodetypeProps) nodename nodetype (transformNodeParams st props) id := by
  rw [saveNode] at h
  split at h
  · split at h
    · next found hfound =>
        cases h
        obtain ⟨⟨node, hnode, hnamed⟩, hlinked⟩ := findNode_spec hfound
        have hlt : id < g.nodes.length := (List.getElem?_eq_some_iff.mp hnode).1
        have htouched : (g.nodes.modify id fun node => { node with
            props := setAttributes (setKey node.props (touchedKey parent) st.timestamp) (transformNodeParams st props) })[id]? =
            some { node with
              props := setAttributes (setKey node.props (touchedKey parent) st.timestamp) (transformNodeParams st props) } := by
          rw [List.getElem?_modify_eq, hnode]
          rfl
        have hkey : touchedKey parent ≠ nodeNameKey := by
          have hcreated : createdTimestampKey ≠ nodeNameKey := by decide
          have hmodified : modifiedTimestampKey ≠ nodeNameKey := by decide
          cases parent with
          | none => exact hcreated
          | some p => exact hmodified
        have hsame : getKey (setAttributes (setKey node.props (touchedKey parent) st.timestamp)
            (transformNodeParams st props)) nodeNameKey = getKey node.props nodeNameKey := by
          rw [getKey_setAttributes hname, getKey_setKey_ne _ hkey]
        have hothers : ∀ i, i ≠ id → (g.nodes.modify id fun node => { node with
            props := setAttributes (setKey node.props (touchedKey parent) st.timestamp) (transformNodeParams st props) })[i]? =
            g.nodes[i]? := fun i hi => List.getElem?_modify_ne _ _ (Ne.symm hi)
        refine ⟨.inr ⟨node, hnode, hnamed, htouched⟩, ?_, hothers, ?_, ?_, ⟨[], (List.append_nil _).symm, ?_⟩, ?_, ?_, ?_, ?_⟩
        · intro p hp
          obtain ⟨r, hr, hrp, hrc, hsub⟩ := hlinked p hp
          exact ⟨r, hr, hrp, hrc, hsub, .inl hr⟩
        · exact hlt.trans_eq (List.length_modify _ _ _).symm
        · intro p hp
          obtain ⟨r, hr, rfl, rfl, _⟩ := hlinked p hp
          exact (hordered r hr).1
        · exact fun r hr => absurd hr List.not_mem_nil
        · exact (List.length_modify _ _ _).symm.le
        · intro r hr
          exact (hordered r hr).imp_right fun hchild => hchild.trans_eq (List.length_modify _ _ _).symm
        · intro i _
          rw [Graph.nameAt, Graph.nameAt]
          rcases eq_or_ne i id with rfl | hi
          · rw [htouched, hnode]
            exact hsame
          · rw [hothers i hi]
        · rintro s rfl
          rw [Graph.nameAt, htouched]
          refine hsame.trans ?_
          obtain ⟨v, hv, heq⟩ := (Option.any_eq_true _ _).mp (Bool.and_eq_true_iff.mp hnamed).2
          rw [hv, pyEq_str heq]
    · cases h
      have hnew : (g.nodes ++ [createdNode st nodename nodetype (transformNodeParams st props)])[g.nodes.length]? =
          some (createdNode st nodename nodetype (transformNodeParams st props)) := List.getElem?_concat_length
      have hothers : ∀ i, i ≠ g.nodes.length →
          (g.nodes ++ [createdNode st nodename nodetype (transformNodeParams st props)])[i]? = g.nodes[i]? := by
        intro i hi
        rcases Nat.lt_or_ge i g.nodes.length with hlt | hge
        · exact List.getElem?_append_left hlt
        · rw [List.getElem?_eq_none hge, List.getElem?_eq_none]
          rw [List.length_append, List.length_singleton]
          omega
      have hlength : (g.nodes ++ [createdNode st nodename nodetype (transformNodeParams st props)]).length =
          g.nodes.length + 1 := List.length_append
      have hadded : ∀ r ∈ (parent.map fun p =>
          (⟨p, g.nodes.length, getLiteralMap nodetypeProps⟩ : Edge RelProps)).toList,
          some r.parent = parent ∧ r.child = g.nodes.length ∧ r.label = getLiteralMap nodetypeProps := by
        intro r hr
        rw [Option.mem_toList, Option.map_eq_some_iff] at hr
        obtain ⟨p, hp, rfl⟩ := hr
        exact ⟨hp.symm, rfl, rfl⟩
      refine ⟨.inl ⟨List.getElem?_eq_none le_rfl, hnew⟩, ?_, hothers, ?_, hparent, ⟨_, rfl, hadded⟩, ?_, ?_, ?_, ?_⟩
      · intro p hp
        refine ⟨⟨p, g.nodes.length, getLiteralMap nodetypeProps⟩, List.mem_append_right _ ?_, rfl, rfl,
          List.Subset.refl _, .inr rfl⟩
        rw [Option.mem_toList, Option.map_eq_some_iff]
        exact ⟨p, hp, rfl⟩
      · exact Nat.lt_of_lt_of_eq (Nat.lt_succ_self _) hlength.symm
      · exact (Nat.le_succ _).trans_eq hlength.symm
      · intro r hr
        rw [hlength]
        rcases List.mem_append.mp hr with hr | hr
        · exact (hordered r hr).imp_right Nat.lt_succ_of_lt
        · obtain ⟨hp, hc, _⟩ := hadded r hr
          rw [hc]
          exact ⟨hparent _ hp.symm, Nat.lt_succ_self _⟩
      · intro i hi
        rw [Graph.nameAt, Graph.nameAt, hothers i hi.ne]
      · rintro s rfl
        rw [Graph.nameAt, hnew]
        exact nameAt_created hname
  · cases h

/-! ## What hangs below a node -/

theorem Below.refl (b : Nat) (h : g.Ordered) : Below b g g where
  kept _ _ := rfl
  rels := ⟨[], (List.append_nil _).symm, fun _ hr => absurd hr List.not_mem_nil⟩
  length := le_rfl
  ordered := h
  names _ _ := rfl

theorem Below.trans {b : Nat} {g'' : Graph} (h : Below b g g') (h' : Below b g' g'') : Below b g g'' where
  kept i hi := (h'.kept i hi).trans (h.kept i hi)
  rels := by
    obtain ⟨added, hadded, hall⟩ := h.rels
    obtain ⟨added', hadded', hall'⟩ := h'.rels
    refine ⟨added ++ added', by rw [hadded', hadded, List.append_assoc], fun r hr => ?_⟩
    exact (List.mem_append.mp hr).elim (hall r) (hall' r)
  length := h.length.trans h'.length
  ordered := h'.ordered
  names i hi := (h'.names i (hi.trans_le h.length)).trans (h.names i hi)

theorem Below.mono {b c : Nat} (hbc : b ≤ c) (h : Below c g g') : Below b g g' where
  kept i hi := h.kept i (hi.trans hbc)
  rels := by
    obtain ⟨added, hadded, hall⟩ := h.rels
    exact ⟨added, hadded, fun r hr => (hall r hr).imp_left hbc.trans⟩
  length := h.length
  ordered := h.ordered
  names := h.names

/-- A node under another, on a relationship with properties, and what hangs below it. -/
theorem Saved.below {g'' : Graph} {p id : Nat} {literalMap : RelProps} {nodename : Json} {nodetype : Str}
    {attributes : List (Str × Json)} (h : Saved st g g' (some p) literalMap nodename nodetype attributes id)
    (hmap : literalMap ≠ []) (h' : Below id g' g'') : Below p g g'' := by
  have hlt := h.above p rfl
  have hsaved : Below p g g' := by
    refine ⟨?_, ?_, h.length, h.ordered, h.names⟩
    · exact fun i hi => h.others i (hi.trans_lt hlt).ne
    · obtain ⟨added, hadded, hall⟩ := h.rels
      refine ⟨added, hadded, fun r hr => ?_⟩
      obtain ⟨hp, _, hlabel⟩ := hall r hr
      exact ⟨(Option.some.inj hp).ge, fun heq => hmap (hlabel.symm.trans heq)⟩
  exact hsaved.trans (h'.mono hlt.le)

theorem nestedCall_literalMap {m : Str × Json} {call : NestedCall} (h : call ∈ nestedCall st m) :
    call.literalMap ≠ [] := by
  obtain ⟨key, v⟩ := m
  cases v with
  | obj fields =>
      rw [List.mem_singleton.mp h]
      exact List.cons_ne_nil _ _
  | arr xs =>
      obtain ⟨x, _, rfl⟩ := List.mem_map.mp h
      exact List.cons_ne_nil _ _
  | _ => cases h

/-- A child of the node carries the relationship of the call. -/
def Hangs (g : Graph) (id : Nat) (call : NestedCall) : Prop :=
  ∃ r ∈ g.rels, r.parent = id ∧ call.literalMap ⊆ r.label

theorem Hangs.mono {id : Nat} {call : NestedCall} {b : Nat} (h : Hangs g id call) (hb : Below b g g') :
    Hangs g' id call := by
  obtain ⟨r, hr, hmap⟩ := h
  obtain ⟨added, hadded, _⟩ := hb.rels
  exact ⟨r, hadded ▸ List.mem_append_left _ hr, hmap⟩

/-- What `save_attribute_nodes` leaves: the node, and below it a child for every object that
is not empty. -/
def PayloadSaved (st : Storage) (g g' : Graph) (parent : Option Nat) (literalMap : RelProps) (nodename : Json)
    (nodeType : Str) (fields : List (Str × Json)) : Prop :=
  ∃ g₁ id, Saved st g g₁ parent literalMap nodename nodeType (transformNodeParams st (separate fields).1) id ∧
    Below id g₁ g' ∧
    ∀ call ∈ (separate fields).2.flatMap (nestedCall st), call.attrNodes ≠ .obj [] → Hangs g' id call

/-- The calls of the loop write below the node. -/
theorem below_calls {depth id : Nat} {calls : List NestedCall}
    (hsaved : ∀ call ∈ calls, ∀ g g', g.Ordered → id < g.nodes.length →
      saveAttributeNodes st depth g call.nodename st.nestedAttributeNodeType (some id) (some call.nodetypeProps)
        call.attrNodes = some g' →
      Below id g g' ∧ (call.attrNodes ≠ .obj [] → Hangs g' id call))
    (hordered : g.Ordered) (hid : id < g.nodes.length)
    (h : calls.foldlM (fun g call => saveAttributeNodes st depth g call.nodename st.nestedAttributeNodeType (some id)
      (some call.nodetypeProps) call.attrNodes) g = some g') :
    Below id g g' ∧ ∀ call ∈ calls, call.attrNodes ≠ .obj [] → Hangs g' id call := by
  induction calls generalizing g with
  | nil =>
      cases h
      exact ⟨Below.refl id hordered, fun _ hcall => absurd hcall List.not_mem_nil⟩
  | cons call calls ih =>
      rw [List.foldlM_cons] at h
      obtain ⟨g₁, hone, h⟩ := Option.bind_eq_some_iff.mp h
      obtain ⟨hfirst, hsaved⟩ := List.forall_mem_cons.mp hsaved
      obtain ⟨hbelow, hhangs⟩ := hfirst g g₁ hordered hid hone
      obtain ⟨hrest, hhung⟩ := ih hsaved hbelow.ordered (hid.trans_le hbelow.length) h
      refine ⟨hbelow.trans hrest, List.forall_mem_cons.mpr ⟨fun hne => (hhangs hne).mono hrest, hhung⟩⟩

theorem saveAttributeNodes_succ (depth : Nat) (nodename : Json) (nodeType : Str) (parent : Option Nat)
    (nodetypeProps : Option RelProps) {fields : List (Str × Json)} (hne : fields ≠ []) :
    saveAttributeNodes st (depth + 1) g nodename nodeType parent nodetypeProps (.obj fields) =
      (saveNode st g nodename nodeType (separate fields).1 nodetypeProps parent).bind fun r =>
        ((separate fields).2.flatMap (nestedCall st)).foldlM (fun g call => saveAttributeNodes st depth g call.nodename
          st.nestedAttributeNodeType (some r.2) (some call.nodetypeProps) call.attrNodes) r.1 := by
  have hsome : ((separate fields).1.isEmpty && (separate fields).2.isEmpty) = false := by
    rw [separate_empty, List.isEmpty_eq_false_iff]
    exact hne
  rw [saveAttributeNodes, hsome, if_neg Bool.false_ne_true]
  cases saveNode st g nodename nodeType (separate fields).1 nodetypeProps parent <;> rfl

/-- A payload that is not empty is saved. -/
theorem saveAttributeNodes_spec {depth : Nat} {nodename : Json} {nodeType : Str} {parent : Option Nat}
    {nodetypeProps : Option RelProps} {fields : List (Str × Json)} (hordered : g.Ordered)
    (hparent : ∀ p ∈ parent, p < g.nodes.length) (hne : fields ≠ [])
    (h : saveAttributeNodes st depth g nodename nodeType parent nodetypeProps (.obj fields) = some g') :
    PayloadSaved st g g' parent (getLiteralMap nodetypeProps) nodename nodeType fields := by
  induction depth generalizing g g' nodename nodeType parent nodetypeProps fields with
  | zero => cases h
  | succ depth ih =>
      rw [saveAttributeNodes_succ depth nodename nodeType parent nodetypeProps hne] at h
      obtain ⟨⟨g₁, id⟩, hsave, hcalls⟩ := Option.bind_eq_some_iff.mp h
      have hsaved := saveNode_spec hordered hparent (nodeName_notMem_separate st fields) hsave
      refine ⟨g₁, id, hsaved, below_calls ?_ hsaved.ordered hsaved.inside hcalls⟩
      intro call hcall g g' hordered hid hone
      obtain ⟨m, _, hm⟩ := List.mem_flatMap.mp hcall
      have hmap := nestedCall_literalMap hm
      -- a nested payload hangs below the node, as its own spec says
      have hnested : ∀ fields, fields ≠ [] → call.attrNodes = .obj fields →
          Below id g g' ∧ Hangs g' id call := by
        intro fields hfields heq
        rw [heq] at hone
        obtain ⟨g₂, id₂, hone, hbelow, _⟩ := ih hordered (fun p hp => Option.mem_some_iff.mp hp ▸ hid) hfields hone
        refine ⟨hone.below hmap hbelow, ?_⟩
        obtain ⟨r, hr, hrp, _, hsub, _⟩ := hone.linked id rfl
        obtain ⟨added, hadded, _⟩ := hbelow.rels
        exact ⟨r, hadded ▸ List.mem_append_left _ hr, hrp, hsub⟩
      cases hattrs : call.attrNodes with
      | obj fields =>
          rcases eq_or_ne fields [] with rfl | hfields
          · rw [hattrs] at hone
            cases depth with
            | zero => cases hone
            | succ depth =>
                cases hone
                exact ⟨Below.refl id hordered, fun hne => absurd rfl hne⟩
          · obtain ⟨hbelow, hhangs⟩ := hnested fields hfields hattrs
            exact ⟨hbelow, fun _ => hhangs⟩
      | _ =>
          rw [hattrs] at hone
          cases depth <;> cases hone

/-! ## What the database takes -/

/-- The database takes the name, the plain values and what is nested. -/
def accepts (st : Storage) : Nat → Json → Json → Bool
  | depth + 1, nodename, .obj fields =>
      (fields.isEmpty || st.storable nodename &&
          (transformNodeParams st (separate fields).1).all fun m => st.storable m.2) &&
        ((separate fields).2.flatMap (nestedCall st)).all fun call => accepts st depth call.nodename call.attrNodes
  | _, _, _ => false

theorem saveNode_isSome {nodename : Json} {nodetype : Str} {props : List (Str × Json)}
    {nodetypeProps : Option RelProps} {parent : Option Nat} :
    (saveNode st g nodename nodetype props nodetypeProps parent).isSome =
      (st.storable nodename && (transformNodeParams st props).all fun m => st.storable m.2) := by
  rw [saveNode]
  split
  · next h =>
      rw [h]
      split <;> rfl
  · next h =>
      rw [Bool.not_eq_true] at h
      rw [h]
      rfl

theorem foldlM_isSome {α β : Type} {f : α → β → Option α} {p : β → Bool} {xs : List β}
    (h : ∀ x ∈ xs, ∀ a, (f a x).isSome = p x) (a : α) : (xs.foldlM f a).isSome = xs.all p := by
  induction xs generalizing a with
  | nil => rfl
  | cons x xs ih =>
      obtain ⟨hx, hxs⟩ := List.forall_mem_cons.mp h
      rw [List.foldlM_cons, List.all_cons, ← hx a]
      cases hfx : f a x with
      | none => rfl
      | some b => exact ih hxs b

/-- The graph has no part in it. -/
theorem saveAttributeNodes_isSome {depth : Nat} {nodename : Json} {nodeType : Str} {parent : Option Nat}
    {nodetypeProps : Option RelProps} {v : Json} :
    (saveAttributeNodes st depth g nodename nodeType parent nodetypeProps v).isSome = accepts st depth nodename v := by
  induction depth generalizing g nodename nodeType parent nodetypeProps v with
  | zero => rfl
  | succ depth ih =>
      cases v with
      | obj fields =>
          rcases eq_or_ne fields [] with rfl | hne
          · rfl
          · rw [saveAttributeNodes_succ depth nodename nodeType parent nodetypeProps hne, accepts,
              List.isEmpty_eq_false_iff.mpr hne, Bool.false_or,
              ← @saveNode_isSome st g nodename nodeType (separate fields).1 nodetypeProps parent]
            cases saveNode st g nodename nodeType (separate fields).1 nodetypeProps parent with
            | none => rfl
            | some r =>
                rw [Option.isSome_some, Bool.true_and, Option.bind_some]
                refine foldlM_isSome (fun call _ g => ?_) r.1
                exact ih
      | _ => rfl

end Uns.Graphdb
