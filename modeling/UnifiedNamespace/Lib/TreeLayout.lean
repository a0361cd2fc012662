/-
# `Lib.TreeLayout` — a tree as numbered nodes and edges

A tree has values at its nodes and labels at its edges.  Laid out from a number on, its
nodes take the next numbers in preorder, and an edge stands before what is below it.  The
edges are those from each subtree to its children (`mem_edges`), whatever order they are
read in.
-/
import Mathlib

namespace Lib

/-- Values at the nodes, labels at the edges. -/
inductive Tree (ν ε : Type) where
  | node (value : ν) (children : List (ε × Tree ν ε))

structure Edge (ε : Type) where
  parent : Nat
  child : Nat
  label : ε
deriving DecidableEq

namespace Tree

variable {ν ε : Type}

def value : Tree ν ε → ν
  | .node value _ => value

def children : Tree ν ε → List (ε × Tree ν ε)
  | .node _ children => children

mutual

def size : Tree ν ε → Nat
  | .node _ children => 1 + sizes children

def sizes : List (ε × Tree ν ε) → Nat
  | [] => 0
  | (_, t) :: children => t.size + sizes children

end

mutual

/-- The values in preorder. -/
def values : Tree ν ε → List ν
  | .node value children => value :: valuesOf children

def valuesOf : List (ε × Tree ν ε) → List ν
  | [] => []
  | (_, t) :: children => t.values ++ valuesOf children

end

mutual

/-- The edges of the tree whose root has the number `n`. -/
def edges (n : Nat) : Tree ν ε → List (Edge ε)
  | .node _ children => edgesFrom n (n + 1) children

/-- The edges from `p` to children numbered from `m` on, and those below them. -/
def edgesFrom (p m : Nat) : List (ε × Tree ν ε) → List (Edge ε)
  | [] => []
  | (e, t) :: children => ⟨p, m, e⟩ :: (t.edges m ++ edgesFrom p (m + t.size) children)

end

mutual

/-- The subtrees with the numbers of their roots. -/
def subtrees (n : Nat) : Tree ν ε → List (Nat × Tree ν ε)
  | .node value children => (n, .node value children) :: subtreesFrom (n + 1) children

def subtreesFrom (m : Nat) : List (ε × Tree ν ε) → List (Nat × Tree ν ε)
  | [] => []
  | (_, t) :: children => t.subtrees m ++ subtreesFrom (m + t.size) children

end

/-- Children numbered from `m` on, with their labels and numbers. -/
def placed (m : Nat) : List (ε × Tree ν ε) → List (ε × Nat × Tree ν ε)
  | [] => []
  | (e, t) :: children => (e, m, t) :: placed (m + t.size) children

mutual

theorem length_values : ∀ t : Tree ν ε, t.values.length = t.size
  | .node _ children => by
      rw [values, size, List.length_cons, length_valuesOf children, Nat.add_comm]

theorem length_valuesOf : ∀ children : List (ε × Tree ν ε), (valuesOf children).length = sizes children
  | [] => rfl
  | (_, t) :: children => by
      rw [valuesOf, sizes, List.length_append, length_values t, length_valuesOf children]

end

mutual

theorem numbers_subtrees : ∀ (t : Tree ν ε) (n : Nat), (t.subtrees n).map Prod.fst = List.range' n t.size
  | .node _ children, n => by
      rw [subtrees, size, List.map_cons, numbers_subtreesFrom children, Nat.add_comm 1 (sizes children),
        List.range'_succ]

theorem numbers_subtreesFrom : ∀ (children : List (ε × Tree ν ε)) (m : Nat),
    (subtreesFrom m children).map Prod.fst = List.range' m (sizes children)
  | [], _ => rfl
  | (_, t) :: children, m => by
      rw [subtreesFrom, sizes, List.map_append, numbers_subtrees t, numbers_subtreesFrom children,
        List.range'_append_1]

end

mutual

theorem values_subtrees : ∀ (t : Tree ν ε) (n : Nat), (t.subtrees n).map (fun s => s.2.value) = t.values
  | .node _ children, n => by
      rw [subtrees, values, List.map_cons, values_subtreesFrom children]
      rfl

theorem values_subtreesFrom : ∀ (children : List (ε × Tree ν ε)) (m : Nat),
    (subtreesFrom m children).map (fun s => s.2.value) = valuesOf children
  | [], _ => rfl
  | (_, t) :: children, m => by
      rw [subtreesFrom, valuesOf, List.map_append, values_subtrees t, values_subtreesFrom children]

end

theorem number_bounds {t : Tree ν ε} {n : Nat} {s : Nat × Tree ν ε} (h : s ∈ t.subtrees n) :
    n ≤ s.1 ∧ s.1 < n + t.size := by
  have hmem : s.1 ∈ (t.subtrees n).map Prod.fst := List.mem_map_of_mem h
  rw [numbers_subtrees] at hmem
  exact List.mem_range'_1.mp hmem

mutual

theorem subtrees_trans : ∀ (t : Tree ν ε) (n : Nat) {s s' : Nat × Tree ν ε}, s ∈ t.subtrees n →
    s' ∈ s.2.subtrees s.1 → s' ∈ t.subtrees n
  | .node value children, n, s, s', h, h' => by
      rw [subtrees] at h
      rcases List.mem_cons.mp h with rfl | h
      · exact h'
      · rw [subtrees]
        exact List.mem_cons_of_mem _ (subtreesFrom_trans children (n + 1) h h')

theorem subtreesFrom_trans : ∀ (children : List (ε × Tree ν ε)) (m : Nat) {s s' : Nat × Tree ν ε},
    s ∈ subtreesFrom m children → s' ∈ s.2.subtrees s.1 → s' ∈ subtreesFrom m children
  | [], _, _, _, h, _ => nomatch h
  | (_, t) :: children, m, s, s', h, h' => by
      rw [subtreesFrom] at h ⊢
      rcases List.mem_append.mp h with h | h
      · exact List.mem_append_left _ (subtrees_trans t m h h')
      · exact List.mem_append_right _ (subtreesFrom_trans children _ h h')

end

mutual

/-- What passes from a tree to its children holds of all subtrees. -/
theorem forall_subtrees {P : Tree ν ε → Prop} (hchild : ∀ t, P t → ∀ c ∈ t.children, P c.2) :
    ∀ (t : Tree ν ε) (n : Nat), P t → ∀ s ∈ t.subtrees n, P s.2
  | .node value children, n, ht, s, hs => by
      rw [subtrees] at hs
      rcases List.mem_cons.mp hs with rfl | hs
      · exact ht
      · exact forall_subtreesFrom hchild children (n + 1) (hchild _ ht) s hs

theorem forall_subtreesFrom {P : Tree ν ε → Prop} (hchild : ∀ t, P t → ∀ c ∈ t.children, P c.2) :
    ∀ (children : List (ε × Tree ν ε)) (m : Nat), (∀ c ∈ children, P c.2) → ∀ s ∈ subtreesFrom m children, P s.2
  | [], _, _, _, hs => nomatch hs
  | (e, t) :: children, m, hall, s, hs => by
      obtain ⟨hfirst, hrest⟩ := List.forall_mem_cons.mp hall
      rw [subtreesFrom] at hs
      rcases List.mem_append.mp hs with hs | hs
      · exact forall_subtrees hchild t m hfirst s hs
      · exact forall_subtreesFrom hchild children _ hrest s hs

end

/-- The edge to a child from a subtree of the list. -/
def EdgeOf (subtrees : List (Nat × Tree ν ε)) (x : Edge ε) : Prop :=
  ∃ s ∈ subtrees, ∃ c ∈ placed (s.1 + 1) s.2.children, x = ⟨s.1, c.2.1, c.1⟩

theorem edgeOf_cons {s : Nat × Tree ν ε} {ss : List (Nat × Tree ν ε)} {x : Edge ε} :
    EdgeOf (s :: ss) x ↔ (∃ c ∈ placed (s.1 + 1) s.2.children, x = ⟨s.1, c.2.1, c.1⟩) ∨ EdgeOf ss x :=
  List.exists_mem_cons_iff ..

theorem edgeOf_append {as bs : List (Nat × Tree ν ε)} {x : Edge ε} :
    EdgeOf (as ++ bs) x ↔ EdgeOf as x ∨ EdgeOf bs x := by
  simp only [EdgeOf, List.mem_append, or_and_right, exists_or]

mutual

/-- The edges are those from each subtree to its children. -/
theorem mem_edges : ∀ (t : Tree ν ε) (n : Nat) {x : Edge ε}, x ∈ t.edges n ↔ EdgeOf (t.subtrees n) x
  | .node value children, n, x => by
      rw [edges, mem_edgesFrom children, subtrees, edgeOf_cons]
      rfl

theorem mem_edgesFrom : ∀ (children : List (ε × Tree ν ε)) (p m : Nat) {x : Edge ε},
    x ∈ edgesFrom p m children ↔ (∃ c ∈ placed m children, x = ⟨p, c.2.1, c.1⟩) ∨ EdgeOf (subtreesFrom m children) x
  | [], p, m, x => by
      simp only [edgesFrom, placed, subtreesFrom, EdgeOf, List.not_mem_nil, false_and, exists_false, or_self]
  | (e, t) :: children, p, m, x => by
      rw [edgesFrom, placed, subtreesFrom, edgeOf_append, List.mem_cons, List.mem_append, mem_edges t,
        mem_edgesFrom children, List.exists_mem_cons_iff, or_assoc]
      refine or_congr_right ?_
      rw [← or_assoc, ← or_assoc, or_comm (a := EdgeOf _ x)]

end

theorem parent_bounds {t : Tree ν ε} {n : Nat} {x : Edge ε} (h : x ∈ t.edges n) :
    n ≤ x.parent ∧ x.parent < n + t.size := by
  obtain ⟨s, hs, c, _, rfl⟩ := (mem_edges t n).mp h
  exact number_bounds hs

/-! ## Reachability -/

/-- One edge or more lead from the first number to the second. -/
def Reaches (es : List (Edge ε)) : Nat → Nat → Prop :=
  Relation.TransGen fun a b => ∃ x ∈ es, x.parent = a ∧ x.child = b

mutual

theorem reaches_subtrees {es : List (Edge ε)} : ∀ (t : Tree ν ε) (n : Nat), t.edges n ⊆ es →
    ∀ s ∈ t.subtrees n, s.1 = n ∨ Reaches es n s.1
  | .node value children, n, hes, s, hs => by
      rw [subtrees] at hs
      rw [edges] at hes
      rcases List.mem_cons.mp hs with rfl | hs
      · exact .inl rfl
      · exact .inr (reaches_subtreesFrom children n (n + 1) hes s hs)

theorem reaches_subtreesFrom {es : List (Edge ε)} : ∀ (children : List (ε × Tree ν ε)) (p m : Nat),
    edgesFrom p m children ⊆ es → ∀ s ∈ subtreesFrom m children, Reaches es p s.1
  | [], _, _, _, _, hs => nomatch hs
  | (e, t) :: children, p, m, hes, s, hs => by
      rw [edgesFrom, List.cons_subset, List.append_subset] at hes
      rw [subtreesFrom] at hs
      obtain ⟨hedge, hbelow, hrest⟩ := hes
      rcases List.mem_append.mp hs with hs | hs
      · have hfirst : ∃ x ∈ es, x.parent = p ∧ x.child = m := ⟨_, hedge, rfl, rfl⟩
        rcases reaches_subtrees t m hbelow s hs with heq | hreach
        · rw [heq]
          exact .single hfirst
        · exact .head hfirst hreach
      · exact reaches_subtreesFrom children p _ hrest s hs

end

end Tree

end Lib
