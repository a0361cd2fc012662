/-
# `Graphql.TopicSearch` — what a search by topic finds below a node

The columns of `_SEARCH_BY_TOPIC_QUERY` for a node: the nested attribute nodes right below it,
and the relationships, where the relationships to them stand one by one and each longer way
down stands as the list of its relationships.  `get_nested_properties` asks a list for its
type, which it does not have; so a row is read exactly where no nested child has a nested
child, and no list has to grow over a property of the node (`readsTree_iff`).
-/
import UnifiedNamespace.Graphdb.Writes
import UnifiedNamespace.Graphql.GraphRoundTrip

namespace Uns.Graphql

open Py Lib Graphdb

/-! ## The columns -/

/-- An element of the `relationships` column. -/
inductive Collected where
  | one (r : Relationship)
  | many (rs : List Relationship)

/-- `-[rel*]->`: the ways along relationships from a node, none of them taken twice. -/
def trails : Nat → List (Edge RelProps) → Nat → List (List (Edge RelProps))
  | 0, _, _ => []
  | fuel + 1, rels, from_ => (rels.filter fun x => decide (x.parent = from_)).flatMap fun x =>
      [x] :: (trails fuel (rels.erase x) x.child).map fun path => x :: path

section Columns

variable (g : Graph) (nestedType : Str) (id : Nat)

def isNested (c : Nat) : Bool := (g.nodes[c]?).any fun node => decide (node.label = nestedType)

/-- `(resultNode)-[r]->(nestedChild)`. -/
def nestedEdges : List (Edge RelProps) :=
  (g.rels.filter fun x => decide (x.parent = id) && isNested g nestedType x.child).dedup

/-- `COLLECT(DISTINCT nestedChild)`. -/
def nestedChildrenOf : List ReadNode := ((nestedEdges g nestedType id).map (·.child)).dedup.filterMap (readNode g)

/-- `COLLECT(DISTINCT nestedRel)`, of `(nestedChild)-[nestedRel*]->(child)`. -/
def nestedRelsOf : List (List (Edge RelProps)) :=
  ((nestedEdges g nestedType id).flatMap fun x => (trails g.rels.length g.rels x.child).filter fun path =>
    path.getLast?.any fun last => isNested g nestedType last.child).dedup

/-- The two columns, each collected in any order. -/
def Returns (nestedChildren : List ReadNode) (relationships : List Collected) : Prop :=
  nestedChildren.Perm (nestedChildrenOf g nestedType id) ∧
    ∃ direct below, List.Perm direct (nestedEdges g nestedType id) ∧ List.Perm below (nestedRelsOf g nestedType id) ∧
      relationships = direct.map (fun x => .one (relationOf x)) ++
        below.map fun path => .many (path.map relationOf)

end Columns

/-- `relation.type`: a list has none. -/
def Collected.relation : Collected → Option Relationship
  | .one r => some r
  | .many _ => none

/-- `get_nested_properties` of a row. -/
def getNestedPropertiesOfRow (depth : Nat) (parent : ReadNode) (nestedChildren : List ReadNode)
    (relationships : List Collected) : Option Json := do
  getNestedProperties depth parent nestedChildren (← relationships.mapM Collected.relation)

/-! ## Trees of nested attribute nodes -/

/-- Where a nested attribute node belongs in the dict of its parent. -/
inductive Place where
  | dict (key : Str)
  | item (key : Str) (index : Nat)
deriving DecidableEq

namespace Place

def key : Place → Str
  | dict key => key
  | item key _ => key

def props : Place → RelProps
  | dict key => dictProps key
  | item key index => listProps key index

def link (parent child : Nat) : Place → Link
  | dict key => .dict parent key child
  | item key index => .list parent key index child

/-- Two nodes may be at these. -/
def Apart (p q : Place) : Prop := p.key = q.key → ∃ key i j, p = item key i ∧ q = item key j ∧ i ≠ j

/-- What is at a place. -/
def get : Place → Json → Option Json
  | dict key, .obj members => getKey members key
  | item key index, .obj members =>
      match getKey members key with
      | some (.arr xs) => xs[index]?
      | _ => none
  | _, _ => none

end Place

def follow : List Place → Json → Option Json
  | [], v => some v
  | place :: places, v => (place.get v).bind (follow places)

section Trees

variable (g : Graph) (nestedType : Str)

def NestedEdge (x : Edge RelProps) : Prop := x ∈ g.rels ∧ isNested g nestedType x.child = true

/-- The places that lead from a node to a nested one below it. -/
inductive NestedPath : Nat → List Place → Nat → Prop
  | nil (id : Nat) : NestedPath id [] id
  | cons {x : Edge RelProps} {place : Place} {places : List Place} {c : Nat} (edge : NestedEdge g nestedType x)
      (label : x.label = place.props) (below : NestedPath x.child places c) : NestedPath x.parent (place :: places) c

def Under (id p : Nat) : Prop :=
  Relation.ReflTransGen (fun p c => ∃ x, NestedEdge g nestedType x ∧ x.parent = p ∧ x.child = c) id p

/-- The nested attribute nodes below a node are a tree, and each has a place of its own. -/
structure NestedTree (id : Nat) : Prop where
  closed : ∀ x ∈ g.rels, Under g nestedType id x.parent → x.parent ≠ id → isNested g nestedType x.child = true
  oneParent : ∀ x y, NestedEdge g nestedType x → NestedEdge g nestedType y → Under g nestedType id x.parent →
    Under g nestedType id y.parent → x.child = y.child → x = y
  noReturn : ∀ x, NestedEdge g nestedType x → Under g nestedType id x.parent → x.child ≠ id
  place : ∀ x, NestedEdge g nestedType x → Under g nestedType id x.parent → ∃ place : Place, x.label = place.props
  apart : ∀ x y (p q : Place), NestedEdge g nestedType x → NestedEdge g nestedType y → Under g nestedType id x.parent →
    x.parent = y.parent → x.label = p.props → y.label = q.props → x ≠ y → p.Apart q
  items : ∀ p node, Under g nestedType id p → readNode g p = some node → (keys node.items).Nodup

/-- A dict with the properties of a node. -/
def HasProperties (v : Json) (node : ReadNode) : Prop :=
  ∃ members, v = .obj members ∧ ∀ m ∈ nestedProperties node.items, getKey members m.1 = some m.2

/-- Every row that is returned is read, with every nested node at its place. -/
def ReadsTree (id : Nat) (node : ReadNode) : Prop :=
  ∀ nestedChildren relationships, Returns g nestedType id nestedChildren relationships → ∀ depth,
    ∃ v, getNestedPropertiesOfRow depth node nestedChildren relationships = some v ∧
      ∀ places c child, places ≠ [] → places.length < depth → NestedPath g nestedType id places c →
        readNode g c = some child → ∃ w, follow places v = some w ∧ HasProperties w child

/-- A list has the index, where it is a property of the node already. -/
def Place.HasRoom (node : ReadNode) : Place → Prop
  | .dict _ => True
  | .item key index => ∀ v, getKey (nestedProperties node.items) key = some v → ∃ xs, v = .arr xs ∧ index < xs.length

/-- No nested child has a nested child, and the lists of them have room. -/
structure Readable (id : Nat) (node : ReadNode) : Prop where
  flat : ∀ x y, NestedEdge g nestedType x → x.parent = id → NestedEdge g nestedType y → y.parent ≠ x.child
  room : ∀ x (place : Place), NestedEdge g nestedType x → x.parent = id → x.label = place.props → place.HasRoom node

end Trees

/-! ## Following the links of one node -/

theorem relation_link {x : Edge RelProps} {place : Place} (h : x.label = place.props) :
    (relationOf x).link = some (some (place.link x.parent x.child)) := by
  obtain ⟨p, c, label⟩ := x
  cases (h : label = _)
  cases place with
  | dict key => exact link_dict p c key
  | item key index => exact link_list p c key index

theorem mapM_link {edges : List (Edge RelProps)} {place : Edge RelProps → Place}
    (h : ∀ x ∈ edges, x.label = (place x).props) : (edges.map relationOf).mapM Relationship.link =
      some (edges.map fun x => some ((place x).link x.parent x.child)) := by
  induction edges with
  | nil => rfl
  | cons x edges ih =>
      obtain ⟨hx, hrest⟩ := List.forall_mem_cons.mp h
      rw [List.map_cons, List.mapM_cons, relation_link hx, ih hrest]
      rfl

section OneParent

variable {id : Nat} {own : PropertyMap} {sizes : ListSizes} {start heap heap' : Heap}

/-- How long the list under a key is. -/
def capacity (sizes : ListSizes) (id : Nat) (own : PropertyMap) (key : Str) : Option Nat :=
  match own.get? key with
  | none => sizes.get? (id, key)
  | some (.value (.arr xs)) => some xs.length
  | some (.items xs) => some xs.length
  | some _ => none

/-- A list that is there has the index, and a new one will have it. -/
def Fits (sizes : ListSizes) (id : Nat) (own : PropertyMap) : Place → Prop
  | .dict _ => True
  | .item key index => ∃ n, capacity sizes id own key = some n ∧ index < n

/-- What the dict of the node holds after some of its links, and that the others are as before. -/
structure Filled (sizes : ListSizes) (id : Nat) (own : PropertyMap) (start : Heap) (done : List (Place × Nat))
    (heap : Heap) : Prop where
  others : ∀ q, q ≠ id → heap.get? q = start.get? q
  here : (heap.get? id).isSome = true
  dict : ∀ key c, (.dict key, c) ∈ done → heap.at id key = some (.child c)
  items : ∀ key i c, (.item key i, c) ∈ done → ∃ xs, heap.at id key = some (.items xs) ∧
    some xs.length = capacity sizes id own key ∧ ∀ j d, (.item key j, d) ∈ done → xs[j]? = some (.inr d)
  rest : ∀ key, (∀ l ∈ done, l.1.key ≠ key) → heap.at id key = own.get? key

/-- Links of one place are one link, or those of two items of a list. -/
def Consistent (links : List (Place × Nat)) : Prop := ∀ a ∈ links, ∀ b ∈ links, a = b ∨ a.1.Apart b.1

/-- The list that an item is put in. -/
theorem setItem_filled {done : List (Place × Nat)} (hfilled : Filled sizes id own start done heap) {key : Str}
    (hitems : ∀ l ∈ done, l.1.key = key → ∃ j, l.1 = .item key j) : ∃ current : Option (List (Json ⊕ Nat)),
      current.map List.length = capacity sizes id own key ∧
        (∀ xs ∈ current, ∀ j d, (.item key j, d) ∈ done → xs[j]? = some (.inr d)) ∧
          ∀ i c, setItem (heap.at id key) (sizes.get? (id, key)) i c =
            current.bind fun xs => if i < xs.length then some (.items (xs.set i (.inr c))) else none := by
  by_cases hany : ∃ l ∈ done, l.1.key = key
  · obtain ⟨⟨place, c⟩, hl, hkey⟩ := hany
    obtain ⟨j, rfl⟩ : ∃ j, place = .item key j := hitems _ hl hkey
    obtain ⟨xs, hat, hlength, hxs⟩ := hfilled.items key j c hl
    refine ⟨some xs, hlength, ?_, fun i c => ?_⟩
    · rintro ys hys
      exact Option.some.inj hys ▸ hxs
    · rw [hat]
      rfl
  · have hnone : ∀ l ∈ done, l.1.key ≠ key := fun l hl hkey => hany ⟨l, hl, hkey⟩
    have hempty : ∀ (current : Option (List (Json ⊕ Nat))), ∀ xs ∈ current, ∀ j d, (.item key j, d) ∈ done →
        xs[j]? = some (.inr d) := fun _ _ _ j d hmem => absurd rfl (hnone _ hmem)
    rw [hfilled.rest key hnone]
    unfold capacity
    -- what the node itself has under the key
    cases own.get? key with
    | none =>
        refine ⟨(sizes.get? (id, key)).map fun size => List.replicate size (.inl .null), ?_, hempty _, fun i c => rfl⟩
        cases sizes.get? (id, key) with
        | none => rfl
        | some size => exact congrArg some List.length_replicate
    | some held =>
        cases held with
        | value v =>
            cases v with
            | arr xs => exact ⟨some (xs.map .inl), congrArg some (List.length_map _), hempty _, fun i c => rfl⟩
            | _ => exact ⟨none, rfl, hempty _, fun i c => rfl⟩
        | child c => exact ⟨none, rfl, hempty _, fun i c => rfl⟩
        | items xs => exact ⟨some xs, rfl, hempty _, fun i c => rfl⟩

/-- Something put under the key of a link, which suits the links of the key. -/
theorem filled_put {done : List (Place × Nat)} {link : Place × Nat} (hfilled : Filled sizes id own start done heap)
    {held : Held} (hput : heap.put id link.1.key held = some heap')
    (hdict : ∀ d, (.dict link.1.key, d) ∈ done ++ [link] → held = .child d)
    (hitems : ∀ i d, (.item link.1.key i, d) ∈ done ++ [link] → ∃ xs, held = .items xs ∧
      some xs.length = capacity sizes id own link.1.key ∧
        ∀ j e, (.item link.1.key j, e) ∈ done ++ [link] → xs[j]? = some (.inr e)) :
    Filled sizes id own start (done ++ [link]) heap' := by
  obtain ⟨hat, hnodes, hframe⟩ := put_spec hput
  have hkeep : ∀ key, key ≠ link.1.key → heap'.at id key = heap.at id key := fun key hkey =>
    hframe id key fun h => hkey (Prod.mk.inj h).2
  have hold : ∀ l ∈ done ++ [link], l.1.key ≠ link.1.key → l ∈ done := by
    intro l hl hkey
    refine (List.mem_append.mp hl).resolve_right fun h => hkey ?_
    rw [List.mem_singleton.mp h]
  refine ⟨fun q hq => ?_, (hnodes id).trans hfilled.here, fun key d hmem => ?_, fun key i d hmem => ?_, fun key hno => ?_⟩
  · rw [Heap.put, Option.bind_eq_bind, Option.bind_eq_some_iff] at hput
    obtain ⟨properties, hproperties, heq⟩ := hput
    cases heq
    exact (Dict.get?_update_ne _ _ _ hq).trans (hfilled.others q hq)
  · by_cases hkey : key = link.1.key
    · rw [hkey] at hmem ⊢
      rw [hat, hdict d hmem]
    · rw [hkeep key hkey]
      exact hfilled.dict key d (hold _ hmem hkey)
  · by_cases hkey : key = link.1.key
    · rw [hkey] at hmem ⊢
      obtain ⟨xs, rfl, hrest⟩ := hitems i d hmem
      exact ⟨xs, hat, hrest⟩
    · obtain ⟨xs, hxs, hlength, hall⟩ := hfilled.items key i d (hold _ hmem hkey)
      exact ⟨xs, (hkeep key hkey).trans hxs, hlength, fun j e he => hall j e (hold _ he hkey)⟩
  · have hkey : key ≠ link.1.key := fun h => hno link (List.mem_append_right _ List.mem_cons_self) h.symm
    rw [hkeep key hkey]
    exact hfilled.rest key fun l hl => hno l (List.mem_append_left _ hl)

/-- One link more. -/
theorem filled_step {done : List (Place × Nat)} {link : Place × Nat} (hne : link.2 ≠ id)
    (hknown : (start.get? link.2).isSome = true) (hconsistent : Consistent (done ++ [link]))
    (hfilled : Filled sizes id own start done heap) :
    (∀ heap', heap.follow sizes (link.1.link id link.2) = some heap' →
      Filled sizes id own start (done ++ [link]) heap' ∧ Fits sizes id own link.1) ∧
      (Fits sizes id own link.1 → ∃ heap', heap.follow sizes (link.1.link id link.2) = some heap') := by
  have hlast : link ∈ done ++ [link] := List.mem_append_right _ List.mem_cons_self
  have hother : ∀ l ∈ done ++ [link], l = link ∨ l.1.Apart link.1 := fun l hl => hconsistent l hl _ hlast
  obtain ⟨child, hchild⟩ : ∃ child, heap.get? link.2 = some child := by
    rw [hfilled.others _ hne]
    exact Option.isSome_iff_exists.mp hknown
  obtain ⟨properties, hproperties⟩ := Option.isSome_iff_exists.mp hfilled.here
  obtain ⟨place, c⟩ := link
  cases place with
  | dict key =>
      have hfollow : heap.follow sizes ((Place.dict key).link id c) = heap.put id key (.child c) := by
        rw [Place.link, Heap.follow, hchild]
        rfl
      rw [hfollow]
      refine ⟨fun heap' hput => ⟨filled_put hfilled hput ?_ ?_, trivial⟩, fun _ => put_isSome hfilled.here key _⟩
      · intro d hd
        rcases hother _ hd with heq | hapart
        · rw [(Prod.mk.inj heq).2]
        · obtain ⟨_, _, _, heq, -⟩ := hapart rfl
          cases heq
      · intro i d hd
        rcases hother _ hd with heq | hapart
        · cases heq
        · obtain ⟨_, _, _, -, heq, -⟩ := hapart rfl
          cases heq
  | item key i =>
      have hsame : ∀ l ∈ done, l.1.key = key → ∃ j, l.1 = .item key j := by
        intro l hl hkey
        rcases hother l (List.mem_append_left _ hl) with rfl | hapart
        · exact ⟨i, rfl⟩
        · obtain ⟨_, j, _, heq, heq', -⟩ := hapart hkey
          cases heq'
          exact ⟨j, heq⟩
      obtain ⟨current, hlength, hold, hset⟩ := setItem_filled hfilled hsame
      have hfollow : heap.follow sizes ((Place.item key i).link id c) =
          (setItem (heap.at id key) (sizes.get? (id, key)) i c).bind (heap.put id key) := by
        rw [Place.link, Heap.follow, hchild, Heap.at, hproperties]
        rfl
      rw [hfollow, hset]
      constructor
      · intro heap' h
        obtain ⟨held, hheld, hput⟩ := Option.bind_eq_some_iff.mp h
        obtain ⟨xs, hxs, hif⟩ := Option.bind_eq_some_iff.mp hheld
        obtain ⟨hlt, hheld⟩ := (Option.ite_none_right_eq_some ..).mp hif
        cases hheld
        rw [hxs, Option.map_some] at hlength
        refine ⟨filled_put hfilled hput ?_ ?_, xs.length, hlength.symm, hlt⟩
        · intro d hd
          rcases hother _ hd with heq | hapart
          · cases heq
          · obtain ⟨_, _, _, heq, -⟩ := hapart rfl
            cases heq
        · intro _ _ _
          refine ⟨_, rfl, by rw [List.length_set]; exact hlength, fun j e he => ?_⟩
          by_cases hj : i = j
          · rcases hother _ he with heq | hapart
            · cases heq
              exact List.getElem?_set_self hlt
            · obtain ⟨_, j', i', heq, heq', hne⟩ := hapart rfl
              cases heq
              cases heq'
              exact absurd hj.symm hne
          · rw [List.getElem?_set_ne hj]
            refine hold xs hxs j e ((List.mem_append.mp he).resolve_right fun h => hj ?_)
            cases List.mem_singleton.mp h
            rfl
      · rintro ⟨n, hn, hlt⟩
        rw [← hlength] at hn
        obtain ⟨xs, rfl, rfl⟩ := Option.map_eq_some_iff.mp hn
        rw [Option.bind_some, if_pos hlt, Option.bind_some]
        exact put_isSome hfilled.here key _

/-- All links are followed exactly when every one fits. -/
theorem filled_all {done rest : List (Place × Nat)} (hne : ∀ l ∈ rest, l.2 ≠ id)
    (hknown : ∀ l ∈ rest, (start.get? l.2).isSome = true) (hconsistent : Consistent (done ++ rest))
    (hfilled : Filled sizes id own start done heap) :
    (∀ heap', (rest.map fun l => l.1.link id l.2).foldlM (Heap.follow sizes) heap = some heap' →
      Filled sizes id own start (done ++ rest) heap' ∧ ∀ l ∈ rest, Fits sizes id own l.1) ∧
      ((∀ l ∈ rest, Fits sizes id own l.1) →
        ∃ heap', (rest.map fun l => l.1.link id l.2).foldlM (Heap.follow sizes) heap = some heap') := by
  induction rest generalizing done heap with
  | nil =>
      refine ⟨fun heap' h => ⟨?_, fun l hl => absurd hl List.not_mem_nil⟩, fun _ => ⟨heap, rfl⟩⟩
      rw [List.append_nil]
      exact Option.some.inj h ▸ hfilled
  | cons link rest ih =>
      obtain ⟨hne, hnes⟩ := List.forall_mem_cons.mp hne
      obtain ⟨hlink, hlinks⟩ := List.forall_mem_cons.mp hknown
      have hsplit : done ++ link :: rest = (done ++ [link]) ++ rest := (List.append_assoc done [link] rest).symm
      rw [hsplit] at hconsistent ⊢
      have hfirst : Consistent (done ++ [link]) := fun a ha b hb =>
        hconsistent a (List.mem_append_left _ ha) b (List.mem_append_left _ hb)
      obtain ⟨hstep, hfits⟩ := filled_step hne hlink hfirst hfilled
      rw [List.map_cons, List.foldlM_cons, List.forall_mem_cons]
      constructor
      · intro heap' h
        obtain ⟨next, hnext, hrest⟩ := Option.bind_eq_some_iff.mp h
        obtain ⟨hfilled', hfit⟩ := hstep next hnext
        obtain ⟨hall, hfit'⟩ := (ih hnes hlinks hconsistent hfilled').1 heap' hrest
        exact ⟨hall, hfit, hfit'⟩
      · rintro ⟨hfit, hfit'⟩
        obtain ⟨next, hnext⟩ := hfits hfit
        obtain ⟨heap', hrest⟩ := (ih hnes hlinks hconsistent (hstep next hnext).1).2 hfit'
        exact ⟨heap', Option.bind_eq_some_iff.mpr ⟨next, hnext, hrest⟩⟩

end OneParent

/-! ## The columns of a tree -/

theorem exists_of_mapM {α β : Type} {f : α → Option β} {xs : List α} {ys : List β} (h : xs.mapM f = some ys) :
    ∀ x ∈ xs, ∃ y, f x = some y := by
  induction xs generalizing ys with
  | nil => exact fun x hx => absurd hx List.not_mem_nil
  | cons x xs ih =>
      rw [List.mapM_cons] at h
      obtain ⟨y, hy, hrest⟩ := Option.bind_eq_some_iff.mp h
      obtain ⟨zs, hzs, -⟩ := Option.bind_eq_some_iff.mp hrest
      exact List.forall_mem_cons.mpr ⟨⟨y, hy⟩, ih hzs⟩

theorem trails_head {fuel : Nat} {rels : List (Edge RelProps)} {c : Nat} {path : List (Edge RelProps)}
    (h : path ∈ trails fuel rels c) : ∃ x ∈ rels, x.parent = c := by
  cases fuel with
  | zero => cases h
  | succ fuel =>
      obtain ⟨x, hx, -⟩ := List.mem_flatMap.mp h
      obtain ⟨hmem, hparent⟩ := List.mem_filter.mp hx
      exact ⟨x, hmem, of_decide_eq_true hparent⟩

theorem singleton_mem_trails {rels : List (Edge RelProps)} {x : Edge RelProps} (hx : x ∈ rels) :
    [x] ∈ trails rels.length rels x.parent := by
  obtain ⟨n, hn⟩ := Nat.exists_eq_succ_of_ne_zero (List.length_pos_of_mem hx).ne'
  rw [hn]
  exact List.mem_flatMap.mpr ⟨x, List.mem_filter.mpr ⟨hx, decide_eq_true rfl⟩, List.mem_cons_self⟩

section Rows

variable {g : Graph} {nestedType : Str} {id : Nat} {node : ReadNode} {nestedChildren : List ReadNode}
  {relationships : List Collected}

theorem mem_nestedEdges {x : Edge RelProps} :
    x ∈ nestedEdges g nestedType id ↔ NestedEdge g nestedType x ∧ x.parent = id := by
  rw [nestedEdges, List.mem_dedup, List.mem_filter, Bool.and_eq_true, decide_eq_true_iff]
  exact ⟨fun ⟨hx, hparent, hnested⟩ => ⟨⟨hx, hnested⟩, hparent⟩, fun ⟨⟨hx, hnested⟩, hparent⟩ => ⟨hx, hparent, hnested⟩⟩

theorem NestedTree.under_child {x : Edge RelProps} (hx : NestedEdge g nestedType x) (hparent : x.parent = id) :
    Under g nestedType id x.child := .single ⟨x, hx, hparent, rfl⟩

/-- There is no longer way down exactly when the tree is flat. -/
theorem nestedRelsOf_eq_nil (h : NestedTree g nestedType id)
    (hflat : ∀ x y, NestedEdge g nestedType x → x.parent = id → NestedEdge g nestedType y → y.parent ≠ x.child) :
    nestedRelsOf g nestedType id = [] := by
  refine List.eq_nil_iff_forall_not_mem.mpr fun path hpath => ?_
  obtain ⟨x, hx, hmem⟩ := List.mem_flatMap.mp (List.mem_dedup.mp hpath)
  obtain ⟨hnested, hparent⟩ := mem_nestedEdges.mp hx
  obtain ⟨y, hy, hfrom⟩ := trails_head (List.mem_filter.mp hmem).1
  have hunder : Under g nestedType id y.parent := hfrom ▸ NestedTree.under_child hnested hparent
  have hbelow := h.closed y hy hunder (hfrom ▸ h.noReturn x hnested (hparent ▸ .refl))
  exact hflat x y hnested hparent ⟨hy, hbelow⟩ hfrom

/-- A nested child of a nested child is reached by a longer way. -/
theorem mem_nestedRelsOf {x y : Edge RelProps} (hx : NestedEdge g nestedType x) (hparent : x.parent = id)
    (hy : NestedEdge g nestedType y) (hbelow : y.parent = x.child) : [y] ∈ nestedRelsOf g nestedType id := by
  refine List.mem_dedup.mpr (List.mem_flatMap.mpr ⟨x, mem_nestedEdges.mpr ⟨hx, hparent⟩, ?_⟩)
  exact List.mem_filter.mpr ⟨hbelow ▸ singleton_mem_trails hy.1, hy.2⟩

/-- A row with a list among its relationships is not read. -/
theorem flat_of_read (hreturns : Returns g nestedType id nestedChildren relationships) {depth : Nat} {v : Json}
    (hread : getNestedPropertiesOfRow depth node nestedChildren relationships = some v) {x y : Edge RelProps}
    (hx : NestedEdge g nestedType x) (hparent : x.parent = id) (hy : NestedEdge g nestedType y) :
    y.parent ≠ x.child := by
  intro hbelow
  obtain ⟨-, direct, below, -, hpaths, rfl⟩ := hreturns
  obtain ⟨rs, hrs, -⟩ := Option.bind_eq_some_iff.mp hread
  have hmem : [y] ∈ below := hpaths.mem_iff.mpr (mem_nestedRelsOf hx hparent hy hbelow)
  have hmany := List.mem_map_of_mem (f := fun path => Collected.many (path.map relationOf)) hmem
  obtain ⟨r, hr⟩ := exists_of_mapM hrs _ (List.mem_append_right _ hmany)
  cases hr

/-! ## The dicts of a row -/

theorem nodup_setKey {fields : List (Str × Json)} (h : (keys fields).Nodup) (k : Str) (v : Json) :
    (keys (setKey fields k v)).Nodup := by
  induction fields with
  | nil => exact List.nodup_singleton k
  | cons m fields ih =>
      obtain ⟨hm, hrest⟩ := List.nodup_cons.mp h
      rw [setKey]
      split
      · exact h
      · next hne =>
        refine List.nodup_cons.mpr ⟨fun hmem => ?_, ih hrest⟩
        rcases mem_keys_setKey hmem with rfl | hmem
        · exact hne rfl
        · exact hm hmem

theorem nodup_filter_keys {fields : List (Str × Json)} (h : (keys fields).Nodup) (p : Str × Json → Bool) :
    (keys (fields.filter p)).Nodup := h.sublist (List.filter_sublist.map _)

theorem nodup_nestedProperties {items : List (Str × Json)} (h : (keys items).Nodup) :
    (keys (nestedProperties items)).Nodup := by
  have hkept := nodup_filter_keys h fun m => decide (m.1 ∉ excludedKeys)
  rw [nestedProperties, restoreName]
  split
  · exact hkept
  · split
    · exact nodup_setKey (nodup_filter_keys hkept _) _ _
    · exact hkept

theorem readNode_elementId {c : Nat} {child : ReadNode} (h : readNode g c = some child) : child.elementId = c := by
  obtain ⟨_, _, rfl⟩ := Option.map_eq_some_iff.mp h
  rfl

theorem readNode_of_nested {c : Nat} (h : isNested g nestedType c = true) : ∃ child, readNode g c = some child := by
  obtain ⟨found, hfound, -⟩ := (Option.any_eq_true _ _).mp h
  exact ⟨⟨c, found.props⟩, by rw [readNode, hfound]; rfl⟩

theorem mem_nestedChildrenOf {child : ReadNode} : child ∈ nestedChildrenOf g nestedType id ↔
    ∃ x, (NestedEdge g nestedType x ∧ x.parent = id) ∧ readNode g x.child = some child := by
  simp only [nestedChildrenOf, List.mem_filterMap, List.mem_dedup, List.mem_map, mem_nestedEdges]
  constructor
  · rintro ⟨_, ⟨x, hx, rfl⟩, hchild⟩
    exact ⟨x, hx, hchild⟩
  · rintro ⟨x, hx, hchild⟩
    exact ⟨_, ⟨x, hx, rfl⟩, hchild⟩

/-- The node and its nested children each have their dict. -/
theorem nodeToProp_row (hnode : readNode g id = some node) (hchildren : nestedChildren.Perm (nestedChildrenOf g nestedType id))
    {p : Nat} {found : ReadNode} (hfound : readNode g p = some found) (hp : found ∈ node :: nestedChildren) :
    (nodeToProp (node :: nestedChildren)).get? p = some (propertyMap (nestedProperties found.items)) := by
  refine nodeToProp_get (fun other hother hid => ?_) ⟨found, hp, readNode_elementId hfound⟩
  have hread : readNode g p = some other := by
    rcases List.mem_cons.mp hother with rfl | hmem
    · rw [← hid, readNode_elementId hnode]
      exact hnode
    · obtain ⟨x, -, hx⟩ := mem_nestedChildrenOf.mp (hchildren.mem_iff.mp hmem)
      rw [← hid, readNode_elementId hx]
      exact hx
  rw [Option.some.inj (hfound.symm.trans hread)]

end Rows

/-! ## What is read -/

theorem getKey_entries (entries : List (Str × Held)) (f : Held → Json) (key : Str) :
    getKey (entries.map fun e => (e.1, f e.2)) key = (lookup key entries).map f := by
  induction entries with
  | nil => rfl
  | cons e entries ih =>
      rw [List.map_cons, getKey_cons, lookup]
      split
      · rfl
      · exact ih

theorem resolve_succ {heap : Heap} {p : Nat} {properties : PropertyMap} (h : heap.get? p = some properties) (depth : Nat) :
    heap.resolve (depth + 1) p = .obj (properties.entries.map fun e => (e.1, e.2.toJson (heap.resolve depth))) := by
  simp only [Heap.resolve, h]

theorem getKey_resolve {heap : Heap} {p : Nat} {key : Str} {held : Held} (h : heap.at p key = some held) (depth : Nat) :
    ∃ members, heap.resolve (depth + 1) p = .obj members ∧
      getKey members key = some (held.toJson (heap.resolve depth)) := by
  obtain ⟨properties, hproperties, hget⟩ := Option.bind_eq_some_iff.mp h
  refine ⟨_, resolve_succ hproperties depth, ?_⟩
  rw [getKey_entries]
  exact congrArg (Option.map _) hget

theorem hasProperties_resolve {heap : Heap} {child : ReadNode} {c : Nat} (hnodup : (keys child.items).Nodup)
    (h : heap.get? c = some (propertyMap (nestedProperties child.items))) (depth : Nat) :
    HasProperties (heap.resolve (depth + 1) c) child := by
  refine ⟨_, resolve_succ h depth, fun m hm => ?_⟩
  rw [getKey_entries]
  have hget : (propertyMap (nestedProperties child.items)).get? m.1 = some (.value m.2) :=
    (propertyMap_get (nodup_nestedProperties hnodup)).mpr ⟨m.2, hm, rfl⟩
  exact congrArg (Option.map _) hget

section OneRow

variable {sizes : ListSizes} {id : Nat} {own : PropertyMap} {start heap : Heap} {done : List (Place × Nat)}

/-- The dict of a child is at its place. -/
theorem Filled.get_place (h : Filled sizes id own start done heap) {place : Place} {c : Nat} (hl : (place, c) ∈ done)
    (depth : Nat) : place.get (heap.resolve (depth + 1) id) = some (heap.resolve depth c) := by
  cases place with
  | dict key =>
      obtain ⟨members, hresolve, hget⟩ := getKey_resolve (h.dict key c hl) depth
      rw [hresolve]
      exact hget
  | item key i =>
      obtain ⟨xs, hat, -, hxs⟩ := h.items key i c hl
      obtain ⟨members, hresolve, hget⟩ := getKey_resolve hat depth
      have harr : getKey members key = some (.arr (xs.map (Sum.elim (fun x => x) (heap.resolve depth)))) := hget
      rw [hresolve, Place.get, harr]
      exact (List.getElem?_map ..).trans (congrArg (Option.map _) (hxs i c hl))

/-- A list fits exactly when the property that is there is one, with the index. -/
theorem fits_iff {node : ReadNode} (hnodup : (keys node.items).Nodup) {links : List Link} {key : Str} {i c : Nat}
    (hlink : Link.list id key i c ∈ links) :
    Fits (mapListSize links) id (propertyMap (nestedProperties node.items)) (.item key i) ↔
      (Place.item key i).HasRoom node := by
  have hget := @propertyMap_get _ (nodup_nestedProperties hnodup) key
  rw [Fits, Place.HasRoom]
  unfold capacity
  cases hheld : (propertyMap (nestedProperties node.items)).get? key with
  | none =>
      have hlt := (mapListSize_spec links id key).1 i c hlink
      refine iff_of_true ?_ fun v hv => ?_
      · cases hsize : (mapListSize links).get? (id, key) with
        | none =>
            rw [hsize] at hlt
            exact absurd hlt (Nat.not_lt_zero i)
        | some n => exact ⟨n, rfl, by rwa [hsize] at hlt⟩
      · rw [hget.mpr ⟨v, mem_of_getKey hv, rfl⟩] at hheld
        cases hheld
  | some held =>
      obtain ⟨v, hmem, rfl⟩ := hget.mp hheld
      have hv := getKey_of_mem (nodup_nestedProperties hnodup) hmem
      constructor
      · rintro ⟨n, hn, hlt⟩ w hw
        cases Option.some.inj (hv.symm.trans hw)
        cases v with
        | arr xs => exact ⟨xs, rfl, Option.some.inj hn ▸ hlt⟩
        | _ => cases hn
      · intro h
        obtain ⟨xs, rfl, hlt⟩ := h v hv
        exact ⟨xs.length, rfl, hlt⟩

end OneRow

section Reading

variable {g : Graph} {nestedType : Str} {id : Nat} {node : ReadNode}

theorem props_injective {p q : Place} (h : p.props = q.props) : p = q := by
  have hp := @relation_link ⟨0, 0, p.props⟩ p rfl
  rw [@relation_link ⟨0, 0, p.props⟩ q h] at hp
  have hlink := Option.some.inj (Option.some.inj hp)
  cases p <;> cases q <;> cases hlink <;> rfl

/-- In a flat tree a row has one link for each nested child, and these are followed. -/
theorem row_flat (hnode : readNode g id = some node) (h : NestedTree g nestedType id)
    (hflat : ∀ x y, NestedEdge g nestedType x → x.parent = id → NestedEdge g nestedType y → y.parent ≠ x.child)
    {nestedChildren : List ReadNode} {relationships : List Collected}
    (hreturns : Returns g nestedType id nestedChildren relationships) : ∃ links : List (Place × Nat),
      (∀ l, l ∈ links ↔ ∃ x, NestedEdge g nestedType x ∧ x.parent = id ∧ x.label = l.1.props ∧ x.child = l.2) ∧
        ∀ depth, getNestedPropertiesOfRow depth node nestedChildren relationships =
          ((links.map fun l => l.1.link id l.2).foldlM
            (Heap.follow (mapListSize (links.map fun l => l.1.link id l.2))) (nodeToProp (node :: nestedChildren))).map
              fun heap => heap.resolve depth id := by
  obtain ⟨-, direct, below, hdirect, hbelow, rfl⟩ := hreturns
  rw [nestedRelsOf_eq_nil h hflat] at hbelow
  have hmem : ∀ x, x ∈ direct ↔ NestedEdge g nestedType x ∧ x.parent = id := fun x =>
    hdirect.mem_iff.trans mem_nestedEdges
  have hplace : ∀ x : Edge RelProps, ∃ place : Place, x ∈ direct → x.label = place.props := by
    intro x
    by_cases hx : x ∈ direct
    · obtain ⟨hnested, hparent⟩ := (hmem x).mp hx
      obtain ⟨place, hlabel⟩ := h.place x hnested (hparent ▸ .refl)
      exact ⟨place, fun _ => hlabel⟩
    · exact ⟨.dict [], fun hx' => absurd hx' hx⟩
  choose place hlabel using hplace
  refine ⟨direct.map fun x => (place x, x.child), fun l => ?_, fun depth => ?_⟩
  · rw [List.mem_map]
    constructor
    · rintro ⟨x, hx, rfl⟩
      exact ⟨x, ((hmem x).mp hx).1, ((hmem x).mp hx).2, hlabel x hx, rfl⟩
    · rintro ⟨x, hnested, hparent, hl, hchild⟩
      have hx := (hmem x).mpr ⟨hnested, hparent⟩
      exact ⟨x, hx, Prod.ext (props_injective ((hlabel x hx).symm.trans hl)) hchild⟩
  · have hone : (direct.map fun x => Collected.one (relationOf x)).mapM Collected.relation =
        some (direct.map relationOf) := by
      clear hdirect hmem hlabel
      induction direct with
      | nil => rfl
      | cons x direct ih =>
          rw [List.map_cons, List.mapM_cons, ih]
          rfl
    have hlinks : (direct.map fun x => (place x, x.child)).map (fun l => l.1.link id l.2) =
        (direct.map fun x => some ((place x).link x.parent x.child)).reduceOption := by
      have hsome : (direct.map fun x => some ((place x).link x.parent x.child)).reduceOption =
          direct.map fun x => (place x).link x.parent x.child := by
        rw [List.reduceOption, List.filterMap_map]
        exact congrFun List.filterMap_eq_map' direct
      rw [hsome, List.map_map]
      refine List.map_congr_left fun x hx => ?_
      rw [((hmem x).mp hx).2]
      rfl
    rw [getNestedPropertiesOfRow, hbelow.eq_nil, List.map_nil, List.append_nil, hone]
    change getNestedProperties depth node nestedChildren (direct.map relationOf) = _
    rw [getNestedProperties, mapM_link hlabel, hlinks, readNode_elementId hnode]
    rw [Option.bind_eq_bind, Option.bind_some]
    exact Option.map_eq_bind.symm

theorem consistent_links (h : NestedTree g nestedType id) {links : List (Place × Nat)}
    (hlinks : ∀ l, l ∈ links → ∃ x, NestedEdge g nestedType x ∧ x.parent = id ∧ x.label = l.1.props ∧ x.child = l.2) :
    Consistent links := by
  rintro ⟨p, c⟩ ha ⟨q, d⟩ hb
  obtain ⟨x, hx, hxp, hxl, hxc⟩ := hlinks _ ha
  obtain ⟨y, hy, hyp, hyl, hyc⟩ := hlinks _ hb
  by_cases hxy : x = y
  · subst hxy
    exact .inl (Prod.ext (props_injective (hxl.symm.trans hyl)) (hxc.symm.trans hyc))
  · exact .inr (h.apart x y p q hx hy (hxp ▸ .refl) (hxp.trans hyp.symm) hxl hyl hxy)

/-- A row of a flat tree is read exactly when the lists have room, and then every child is at its place. -/
theorem read_flat (hnode : readNode g id = some node) (h : NestedTree g nestedType id)
    (hflat : ∀ x y, NestedEdge g nestedType x → x.parent = id → NestedEdge g nestedType y → y.parent ≠ x.child)
    {nestedChildren : List ReadNode} {relationships : List Collected}
    (hreturns : Returns g nestedType id nestedChildren relationships) (depth : Nat) :
    (∀ v, getNestedPropertiesOfRow depth node nestedChildren relationships = some v →
      (∀ x (place : Place), NestedEdge g nestedType x → x.parent = id → x.label = place.props → place.HasRoom node) ∧
        ∀ n x (place : Place) child, depth = n + 2 → NestedEdge g nestedType x → x.parent = id → x.label = place.props →
          readNode g x.child = some child → ∃ w, place.get v = some w ∧ HasProperties w child) ∧
      ((∀ x (place : Place), NestedEdge g nestedType x → x.parent = id → x.label = place.props → place.HasRoom node) →
        ∃ v, getNestedPropertiesOfRow depth node nestedChildren relationships = some v) := by
  obtain ⟨links, hlinks, heq⟩ := row_flat hnode h hflat hreturns
  have hchildren := hreturns.1
  have hstart : ∀ x child, NestedEdge g nestedType x → x.parent = id → readNode g x.child = some child →
      (nodeToProp (node :: nestedChildren)).get? x.child = some (propertyMap (nestedProperties child.items)) :=
    fun x child hx hparent hchild => nodeToProp_row hnode hchildren hchild
      (List.mem_cons_of_mem _ (hchildren.mem_iff.mpr (mem_nestedChildrenOf.mpr ⟨x, ⟨hx, hparent⟩, hchild⟩)))
  have hown := nodeToProp_row hnode hchildren hnode List.mem_cons_self
  have hne : ∀ l ∈ links, l.2 ≠ id := by
    intro l hl
    obtain ⟨x, hx, hparent, -, hchild⟩ := (hlinks l).mp hl
    exact hchild ▸ h.noReturn x hx (hparent ▸ .refl)
  have hknown : ∀ l ∈ links, ((nodeToProp (node :: nestedChildren)).get? l.2).isSome = true := by
    intro l hl
    obtain ⟨x, hx, hparent, -, hchild⟩ := (hlinks l).mp hl
    obtain ⟨child, hread⟩ := readNode_of_nested hx.2
    rw [← hchild, hstart x child hx hparent hread]
    rfl
  have hconsistent : Consistent ([] ++ links) := consistent_links h fun l hl => (hlinks l).mp hl
  have hempty : Filled (mapListSize (links.map fun l => l.1.link id l.2)) id (propertyMap (nestedProperties node.items))
      (nodeToProp (node :: nestedChildren)) [] (nodeToProp (node :: nestedChildren)) :=
    ⟨fun _ _ => rfl, by rw [hown]; rfl, fun _ _ hl => absurd hl List.not_mem_nil,
      fun _ _ _ hl => absurd hl List.not_mem_nil, fun key _ => by rw [Heap.at, hown]; rfl⟩
  obtain ⟨hall, hfits⟩ := filled_all hne hknown hconsistent hempty
  have hroom : ∀ l ∈ links, (Fits (mapListSize (links.map fun l => l.1.link id l.2)) id
      (propertyMap (nestedProperties node.items)) l.1 ↔ l.1.HasRoom node) := by
    rintro ⟨place, c⟩ hl
    cases place with
    | dict key => exact Iff.rfl
    | item key i => exact fits_iff (h.items id node .refl hnode) (List.mem_map_of_mem (f := fun l => l.1.link id l.2) hl)
  constructor
  · intro v hv
    rw [heq] at hv
    obtain ⟨heap, hfold, rfl⟩ := Option.map_eq_some_iff.mp hv
    obtain ⟨hfilled, hfit⟩ := hall heap hfold
    refine ⟨fun x place hx hparent hlabel => ?_, fun n x place child hdepth hx hparent hlabel hchild => ?_⟩
    · have hl : (place, x.child) ∈ links := (hlinks _).mpr ⟨x, hx, hparent, hlabel, rfl⟩
      exact (hroom _ hl).mp (hfit _ hl)
    · have hl : (place, x.child) ∈ links := (hlinks _).mpr ⟨x, hx, hparent, hlabel, rfl⟩
      rw [hdepth]
      refine ⟨_, hfilled.get_place hl (n + 1), hasProperties_resolve ?_ ?_ n⟩
      · exact h.items x.child child (NestedTree.under_child hx hparent) hchild
      · rw [hfilled.others _ (h.noReturn x hx (hparent ▸ .refl))]
        exact hstart x child hx hparent hchild
  · intro hrooms
    obtain ⟨heap, hfold⟩ := hfits fun l hl => by
      obtain ⟨x, hx, hparent, hlabel, -⟩ := (hlinks l).mp hl
      exact (hroom l hl).mpr (hrooms x l.1 hx hparent hlabel)
    exact ⟨heap.resolve depth id, by rw [heq, hfold]; rfl⟩

theorem nestedPath_cons {place : Place} {places : List Place} {c : Nat} (h : NestedPath g nestedType id (place :: places) c) :
    ∃ x, NestedEdge g nestedType x ∧ x.parent = id ∧ x.label = place.props ∧
      NestedPath g nestedType x.child places c := by
  cases h with
  | @cons x _ _ _ hx hlabel hbelow => exact ⟨x, hx, rfl, hlabel, hbelow⟩

theorem nestedPath_nil {c : Nat} (h : NestedPath g nestedType id [] c) : c = id := by
  cases h
  rfl

/-- A row is read with every nested node exactly when none is two levels down and no list grows. -/
theorem readsTree_iff (hnode : readNode g id = some node) (h : NestedTree g nestedType id) :
    ReadsTree g nestedType id node ↔ Readable g nestedType id node := by
  have hrow : Returns g nestedType id (nestedChildrenOf g nestedType id)
      ((nestedEdges g nestedType id).map (fun x => .one (relationOf x)) ++
        (nestedRelsOf g nestedType id).map fun path => .many (path.map relationOf)) :=
    ⟨.refl _, _, _, .refl _, .refl _, rfl⟩
  constructor
  · intro hreads
    obtain ⟨v, hv, -⟩ := hreads _ _ hrow 0
    have hflat : ∀ x y, NestedEdge g nestedType x → x.parent = id → NestedEdge g nestedType y → y.parent ≠ x.child :=
      fun x y hx hparent hy => flat_of_read hrow hv hx hparent hy
    exact ⟨hflat, ((read_flat hnode h hflat hrow 0).1 v hv).1⟩
  · rintro ⟨hflat, hroom⟩ nestedChildren relationships hreturns depth
    obtain ⟨hread, hsome⟩ := read_flat hnode h hflat hreturns depth
    obtain ⟨v, hv⟩ := hsome hroom
    refine ⟨v, hv, fun places c child hne hlt hpath hchild => ?_⟩
    obtain ⟨place, places, rfl⟩ := List.exists_cons_of_ne_nil hne
    obtain ⟨x, hx, hparent, hlabel, hbelow⟩ := nestedPath_cons hpath
    cases places with
    | nil =>
        obtain ⟨n, hn⟩ : ∃ n, depth = n + 2 := Nat.exists_eq_add_of_le' hlt
        cases nestedPath_nil hbelow
        obtain ⟨w, hw, hhas⟩ := (hread v hv).2 n x place child hn hx hparent hlabel hchild
        exact ⟨w, by rw [follow, hw]; rfl, hhas⟩
    | cons next places =>
        obtain ⟨y, hy, hfrom, -, -⟩ := nestedPath_cons hbelow
        exact absurd hfrom (hflat x y hx hparent hy)

end Reading

/-! ## Two machines -/

/-- Relationships with places, to children of their own. -/
theorem nestedTree_of_placed {g : Graph} {nestedType : Str} {id : Nat} (placed : List (Edge RelProps × Place))
    (hrels : g.rels = placed.map Prod.fst) (hlabel : ∀ e ∈ placed, e.1.label = e.2.props)
    (hnested : ∀ e ∈ placed, isNested g nestedType e.1.child = true ∧ e.1.child ≠ id)
    (hchildren : (placed.map fun e => e.1.child).Nodup)
    (hapart : ∀ a ∈ placed, ∀ b ∈ placed, a.1.parent = b.1.parent → a = b ∨ a.2.Apart b.2)
    (hitems : ∀ node ∈ g.nodes, (keys node.props).Nodup) : NestedTree g nestedType id := by
  have hmem : ∀ x ∈ g.rels, ∃ e ∈ placed, e.1 = x := by
    intro x hx
    rw [hrels] at hx
    exact List.mem_map.mp hx
  refine ⟨?_, ?_, ?_, ?_, ?_, ?_⟩
  · rintro x hx - -
    obtain ⟨e, he, rfl⟩ := hmem x hx
    exact (hnested e he).1
  · rintro x y hx hy - - hchild
    obtain ⟨a, ha, rfl⟩ := hmem x hx.1
    obtain ⟨b, hb, rfl⟩ := hmem y hy.1
    exact congrArg Prod.fst (List.inj_on_of_nodup_map hchildren ha hb hchild)
  · rintro x hx -
    obtain ⟨e, he, rfl⟩ := hmem x hx.1
    exact (hnested e he).2
  · rintro x hx -
    obtain ⟨e, he, rfl⟩ := hmem x hx.1
    exact ⟨e.2, hlabel e he⟩
  · rintro x y p q hx hy - hparent hp hq hne
    obtain ⟨a, ha, rfl⟩ := hmem x hx.1
    obtain ⟨b, hb, rfl⟩ := hmem y hy.1
    rw [props_injective (hp.symm.trans (hlabel a ha)), props_injective (hq.symm.trans (hlabel b hb))]
    exact (hapart a ha b hb hparent).resolve_left fun h => hne (congrArg Prod.fst h)
  · rintro p node - hread
    obtain ⟨found, hfound, rfl⟩ := Option.map_eq_some_iff.mp hread
    exact hitems found (List.mem_of_getElem? hfound)

def nestedType : Str := lit "NESTED_ATTRIBUTE"

/-- `{"axis": {"x": 1}, "tools": [{"id": 7}, {"id": 8}]}` under a machine. -/
def toolGraph : Graph where
  nodes := [⟨lit "CELL", []⟩, ⟨nestedType, [(lit "x", .int 1)]⟩, ⟨nestedType, [(lit "id", .int 7)]⟩,
    ⟨nestedType, [(lit "id", .int 8)]⟩]
  rels := [⟨0, 1, dictProps (lit "axis")⟩, ⟨0, 2, listProps (lit "tools") 0⟩, ⟨0, 3, listProps (lit "tools") 1⟩]

/-- `{"axis": {"limits": {"max": 9}}}` under a machine. -/
def axisGraph : Graph where
  nodes := [⟨lit "CELL", []⟩, ⟨nestedType, []⟩, ⟨nestedType, [(lit "max", .int 9)]⟩]
  rels := [⟨0, 1, dictProps (lit "axis")⟩, ⟨1, 2, dictProps (lit "limits")⟩]

theorem nestedTree_toolGraph : NestedTree toolGraph nestedType 0 := by
  refine nestedTree_of_placed [(⟨0, 1, dictProps (lit "axis")⟩, .dict (lit "axis")),
    (⟨0, 2, listProps (lit "tools") 0⟩, .item (lit "tools") 0),
    (⟨0, 3, listProps (lit "tools") 1⟩, .item (lit "tools") 1)] rfl (by decide) (by decide) (by decide) ?_ (by decide)
  have hkeys : lit "axis" ≠ lit "tools" := by decide
  have hitems : (Place.item (lit "tools") 0).Apart (.item (lit "tools") 1) := fun _ =>
    ⟨lit "tools", 0, 1, rfl, rfl, Nat.zero_ne_one⟩
  have hback : (Place.item (lit "tools") 1).Apart (.item (lit "tools") 0) := fun _ =>
    ⟨lit "tools", 1, 0, rfl, rfl, Nat.one_ne_zero⟩
  simp only [List.forall_mem_cons, List.not_mem_nil, false_imp_iff, implies_true, and_true]
  exact ⟨⟨fun _ => .inl trivial, fun _ => .inr fun h => absurd h hkeys, fun _ => .inr fun h => absurd h hkeys⟩,
    ⟨fun _ => .inr fun h => absurd h.symm hkeys, fun _ => .inl trivial, fun _ => .inr hitems⟩,
    fun _ => .inr fun h => absurd h.symm hkeys, fun _ => .inr hback, fun _ => .inl trivial⟩

theorem nestedTree_axisGraph : NestedTree axisGraph nestedType 0 := by
  refine nestedTree_of_placed [(⟨0, 1, dictProps (lit "axis")⟩, .dict (lit "axis")),
    (⟨1, 2, dictProps (lit "limits")⟩, .dict (lit "limits"))] rfl (by decide) (by decide) (by decide) ?_ (by decide)
  simp only [List.forall_mem_cons, List.not_mem_nil, false_imp_iff, implies_true, and_true]
  exact ⟨⟨fun _ => .inl trivial, fun h => absurd h Nat.zero_ne_one⟩, fun h => absurd h Nat.one_ne_zero, fun _ => .inl trivial⟩

/-- One level of nested attribute nodes is read. -/
theorem tools_read : ReadsTree toolGraph nestedType 0 ⟨0, []⟩ := by
  have hends : ∀ x ∈ toolGraph.rels, ∀ y ∈ toolGraph.rels, y.parent ≠ x.child := by decide
  refine (readsTree_iff rfl nestedTree_toolGraph).mpr ⟨fun x y hx _ hy => hends x hx.1 y hy.1, ?_⟩
  intro x place _ _ _
  cases place with
  | dict key => trivial
  | item key i =>
      intro v hv
      cases hv

/-- The limits of an axis are two levels down, and the read raises. -/
theorem limits_raise : ¬ ∀ g nestedType id node, readNode g id = some node → NestedTree g nestedType id →
    ReadsTree g nestedType id node := by
  intro h
  obtain ⟨v, hv, -⟩ := h axisGraph nestedType 0 ⟨0, []⟩ rfl nestedTree_axisGraph _ _ ⟨.refl _, _, _, .refl _, .refl _, rfl⟩ 0
  have hraises : getNestedPropertiesOfRow 0 ⟨0, []⟩ (nestedChildrenOf axisGraph nestedType 0)
      ((nestedEdges axisGraph nestedType 0).map (fun x => .one (relationOf x)) ++
        (nestedRelsOf axisGraph nestedType 0).map fun path => .many (path.map relationOf)) = none := by decide +kernel
  rw [hraises] at hv
  cases hv

end Uns.Graphql
