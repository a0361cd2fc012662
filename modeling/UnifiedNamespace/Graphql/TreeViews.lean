/-
# `Graphql.TreeViews` — two views of the plant hierarchy

`_filter_hierarchy` prunes the tree from its cells upwards, `keeps_tree_node` looks at one path:
it keeps what is in scope and what is above a granted root.  The pruning never looks below a
cell, so the views agree exactly when a machine is granted only together with its cell
(`viewsAgree_iff`).
-/
import UnifiedNamespace.Graphql.Scope
import UnifiedNamespace.Lib.Pruning
import UnifiedNamespace.Model.Hierarchy

namespace Uns.Graphql

open Py Lib Model

/-! ## `_filter_hierarchy` -/

def filterLine (scope : AccessScope) (areaPath : Str) (line : HierarchyLine) : Option HierarchyLine :=
  let linePath := joinSegments [areaPath, line.name]
  let cells := line.cells.filter fun cell => scope.coversPath (joinSegments [linePath, cell.name])
  if cells ≠ [] ∨ scope.coversPath linePath = true then some ⟨line.name, cells⟩ else none

def filterArea (scope : AccessScope) (sitePath : Str) (area : HierarchyArea) : Option HierarchyArea :=
  let areaPath := joinSegments [sitePath, area.name]
  let lines := area.lines.filterMap (filterLine scope areaPath)
  if lines ≠ [] ∨ scope.coversPath areaPath = true then some ⟨area.name, area.kind, lines⟩ else none

def filterSite (scope : AccessScope) (enterprise : Str) (site : HierarchySite) : Option HierarchySite :=
  let sitePath := joinSegments [enterprise, site.name]
  let areas := site.areas.filterMap (filterArea scope sitePath)
  if areas ≠ [] ∨ scope.coversPath sitePath = true then some ⟨site.name, areas⟩ else none

def filterHierarchy (scope : AccessScope) (tree : HierarchyTree) : HierarchyTree :=
  if scope.unrestricted = true then tree
  else ⟨tree.enterprise, tree.sites.filterMap (filterSite scope tree.enterprise)⟩

/-! ## What the pruning keeps -/

theorem joinSegments_snoc {above : List Str} (hne : above ≠ [])
    (habove : ∀ name ∈ above, validateSegment name = .ok ()) {name : Str}
    (hname : validateSegment name = .ok ()) : joinSegments [joinSlash above, name] = joinSlash (above ++ [name]) := by
  have hjoined : joinSlash above ≠ [] := by
    intro hnil
    have hsplit := splitSlash_joinSlash hne fun s hs => (validateSegment_ok.mp (habove s hs)).2
    rw [hnil] at hsplit
    have hempty : [] ∈ above := hsplit ▸ List.mem_singleton.mpr rfl
    exact (validateSegment_ok.mp (habove _ hempty)).1 rfl
  have hboth : [joinSlash above, name].filter (· ≠ []) = [joinSlash above, name] := by
    rw [List.filter_eq_self]
    intro s hs
    rcases List.mem_cons.mp hs with rfl | hs
    · exact decide_eq_true hjoined
    · rw [List.mem_singleton.mp hs]
      exact decide_eq_true (validateSegment_ok.mp hname).1
  rw [joinSegments, hboth, joinSlash_cons_cons, joinSlash_singleton,
    joinSlash_append hne (List.cons_ne_nil _ _), joinSlash_singleton]

/-- The names are segments, and there is at least one. -/
structure Above (above : List Str) : Prop where
  ne_nil : above ≠ []
  segments : ∀ name ∈ above, validateSegment name = .ok ()

theorem Above.snoc {above : List Str} (h : Above above) {name : Str} (hname : validateSegment name = .ok ()) :
    Above (above ++ [name]) :=
  ⟨List.append_ne_nil_of_right_ne_nil _ (List.cons_ne_nil _ _), fun s hs =>
    (List.mem_append.mp hs).elim (h.segments s) fun hs => List.mem_singleton.mp hs ▸ hname⟩

/-- The paths relative to `above` that the scope covers. -/
def coveredBelow (scope : AccessScope) (above : List Str) (q : List Str) : Bool :=
  scope.coversPath (joinSlash (above ++ q))

theorem coveredBelow_cons (scope : AccessScope) (above : List Str) (name : Str) :
    (fun q => coveredBelow scope above (name :: q)) = coveredBelow scope (above ++ [name]) := by
  funext q
  rw [coveredBelow, coveredBelow, List.append_cons]

theorem filter_eq_filterMap (p : HierarchyCell → Bool) (cells : List HierarchyCell) :
    cells.filter p = cells.filterMap fun cell => if p cell = true then some cell else none := by
  induction cells with
  | nil => rfl
  | cons cell cells ih =>
      rw [List.filter_cons, List.filterMap_cons, ih]
      split <;> simp_all

section Levels

variable {scope : AccessScope} {above : List Str}

theorem prunes_cell (habove : Above above) {cell : HierarchyCell} (h : Segments cell.paths) :
    Prunes 1 (coveredBelow scope above) cell.paths
      (((if scope.coversPath (joinSegments [joinSlash above, cell.name]) = true then some cell else none).map
        HierarchyCell.paths).getD []) := by
  have hname := (segments_below.mp h).1
  rw [joinSegments_snoc habove.ne_nil habove.segments hname]
  refine Prunes.filtered (List.forall_mem_map.mpr fun machine _ => ?_) rfl Iff.rfl
  exact below_prefixClosed fun _ hpaths => absurd hpaths List.not_mem_nil

theorem prunes_line (habove : Above above) {line : HierarchyLine} (h : Segments line.paths) :
    Prunes 2 (coveredBelow scope above) line.paths
      (((filterLine scope (joinSlash above) line).map HierarchyLine.paths).getD []) := by
  obtain ⟨hname, hcells⟩ := segments_below.mp h
  rw [filterLine, joinSegments_snoc habove.ne_nil habove.segments hname, filter_eq_filterMap]
  refine Prunes.filterMap (fun cell hcell => ?_) (fun cell => List.cons_ne_nil _ _) rfl Iff.rfl
  rw [coveredBelow_cons]
  exact prunes_cell (habove.snoc hname) (hcells _ (List.mem_map_of_mem hcell))

theorem prunes_area (habove : Above above) {area : HierarchyArea} (h : Segments area.paths) :
    Prunes 3 (coveredBelow scope above) area.paths
      (((filterArea scope (joinSlash above) area).map HierarchyArea.paths).getD []) := by
  obtain ⟨hname, hlines⟩ := segments_below.mp h
  rw [filterArea, joinSegments_snoc habove.ne_nil habove.segments hname]
  refine Prunes.filterMap (fun line hline => ?_) (fun line => List.cons_ne_nil _ _) rfl Iff.rfl
  rw [coveredBelow_cons]
  exact prunes_line (habove.snoc hname) (hlines _ (List.mem_map_of_mem hline))

theorem prunes_site (habove : Above above) {site : HierarchySite} (h : Segments site.paths) :
    Prunes 4 (coveredBelow scope above) site.paths
      (((filterSite scope (joinSlash above) site).map HierarchySite.paths).getD []) := by
  obtain ⟨hname, hareas⟩ := segments_below.mp h
  rw [filterSite, joinSegments_snoc habove.ne_nil habove.segments hname]
  refine Prunes.filterMap (fun area harea => ?_) (fun area => List.cons_ne_nil _ _) rfl Iff.rfl
  rw [coveredBelow_cons]
  exact prunes_area (habove.snoc hname) (hareas _ (List.mem_map_of_mem harea))

end Levels

variable {scope : AccessScope} {tree : HierarchyTree}

/-- From site to cell, a node stays exactly when a path at or below it, down to a cell, is covered. -/
theorem mem_filterHierarchy (h : validateTree tree = .ok ()) (hscope : scope.unrestricted = false) {q : List Str}
    (hq : q ∈ tree.paths) (hlow : 2 ≤ q.length) (hhigh : q.length ≤ 5) :
    q ∈ (filterHierarchy scope tree).paths ↔
      ∃ p ∈ tree.paths, q <+: p ∧ p.length ≤ 5 ∧ scope.coversPath (joinSlash p) = true := by
  obtain ⟨hname, hsites⟩ := segments_below.mp (validateTree_ok h)
  have hroot : Above [tree.enterprise] := ⟨List.cons_ne_nil _ _, List.forall_mem_singleton.mpr hname⟩
  obtain ⟨rest, rfl⟩ : ∃ rest, q = tree.enterprise :: rest := by
    rcases mem_below.mp hq with rfl | ⟨_, _, rest, _, rfl⟩ <;> exact ⟨_, rfl⟩
  rw [List.length_cons] at hlow hhigh
  have hunder := @Prunes.mem_under _ _ 3 (coveredBelow scope []) tree.enterprise tree.sites HierarchySite.paths
    (fun site => ((filterSite scope tree.enterprise site).map HierarchySite.paths).getD [])
    (fun site hsite => by
      rw [coveredBelow_cons]
      have hprunes := @prunes_site scope _ hroot site (hsites _ (List.mem_map_of_mem hsite))
      rwa [joinSlash_singleton] at hprunes)
    _ (List.ne_nil_of_length_pos (by omega)) (by omega : rest.length ≤ 4)
  have hpaths : (filterHierarchy scope tree).paths = below tree.enterprise
      (tree.sites.map fun site => ((filterSite scope tree.enterprise site).map HierarchySite.paths).getD []) := by
    rw [filterHierarchy, if_neg (by rw [hscope]; exact Bool.false_ne_true), HierarchyTree.paths, below_filterMap]
  rw [hpaths]
  exact hunder.trans (and_iff_right hq)

/-! ## The two views -/

theorem coversPath_iff (hscope : scope.unrestricted = false) {path : Str} :
    scope.coversPath path = true ↔ ∃ root ∈ scope.rootPaths, splitSlash root <+: splitSlash path := by
  rw [AccessScope.coversPath, hscope, Bool.false_or, List.any_eq_true]
  simp only [covers_iff]

theorem keepsTreeNode_iff (hscope : scope.unrestricted = false) {path : Str} :
    scope.keepsTreeNode path = true ↔ ∃ root ∈ scope.rootPaths,
      splitSlash root <+: splitSlash path ∨ splitSlash path <+: splitSlash root := by
  rw [AccessScope.keepsTreeNode, Bool.or_eq_true, coversPath_iff hscope, List.any_eq_true]
  simp only [covers_iff, and_or_left, exists_or]

/-- On every node from site to cell the two views agree. -/
def ViewsAgree (scope : AccessScope) (tree : HierarchyTree) : Prop :=
  ∀ q ∈ tree.paths, 2 ≤ q.length → q.length ≤ 5 →
    (q ∈ (filterHierarchy scope tree).paths ↔ scope.keepsTreeNode (joinSlash q) = true)

/-- A granted machine's cell is in scope. -/
def MachinesWithCells (scope : AccessScope) (tree : HierarchyTree) : Prop :=
  ∀ machine ∈ tree.paths, machine.length = 6 → joinSlash machine ∈ scope.rootPaths →
    scope.coversPath (joinSlash machine.dropLast) = true

instance (scope : AccessScope) (tree : HierarchyTree) : Decidable (MachinesWithCells scope tree) :=
  inferInstanceAs (Decidable (∀ machine ∈ tree.paths, machine.length = 6 → joinSlash machine ∈ scope.rootPaths →
    scope.coversPath (joinSlash machine.dropLast) = true))

/-- The views agree exactly when no machine is granted without its cell. -/
theorem viewsAgree_iff (h : validateTree tree = .ok ()) (hscope : scope.unrestricted = false)
    (hroots : ∀ root ∈ scope.rootPaths, root ∈ allPrefixes tree) :
    ViewsAgree scope tree ↔ MachinesWithCells scope tree := by
  have hsplit : ∀ q ∈ tree.paths, splitSlash (joinSlash q) = q := fun q hq =>
    splitSlash_joinSlash (paths_ne_nil hq) fun name hname =>
      (validateSegment_ok.mp (validateTree_ok h q hq name hname)).2
  constructor
  · intro hagree machine hmachine hlen hroot
    have hcelllen : machine.dropLast.length = 5 := by rw [List.length_dropLast, hlen]
    have hcell : machine.dropLast ∈ tree.paths := tree.paths_prefixClosed _ hmachine _ (List.dropLast_prefix _)
      (List.ne_nil_of_length_pos (by omega))
    have hkept : scope.keepsTreeNode (joinSlash machine.dropLast) = true := by
      refine (keepsTreeNode_iff hscope).mpr ⟨_, hroot, .inr ?_⟩
      rw [hsplit _ hcell, hsplit _ hmachine]
      exact List.dropLast_prefix _
    obtain ⟨p, -, hpre, hplen, hcovered⟩ :=
      (mem_filterHierarchy h hscope hcell (by omega) (by omega)).mp
        ((hagree _ hcell (by omega) (by omega)).mpr hkept)
    rwa [hpre.eq_of_length_le (by omega)]
  · intro hmachines q hq hlow hhigh
    rw [mem_filterHierarchy h hscope hq hlow hhigh, keepsTreeNode_iff hscope, hsplit q hq]
    constructor
    · rintro ⟨p, hp, hpre, -, hcovered⟩
      obtain ⟨root, hroot, habove⟩ := (coversPath_iff hscope).mp hcovered
      rw [hsplit p hp] at habove
      exact ⟨root, hroot, List.prefix_or_prefix_of_prefix habove hpre⟩
    · rintro ⟨root, hroot, habove⟩
      have hrootpath := (mem_allPrefixes h).mp (hroots root hroot)
      have hself : scope.coversPath root = true := (coversPath_iff hscope).mpr ⟨root, hroot, List.prefix_refl _⟩
      rcases habove with habove | hbelow
      · exact ⟨q, hq, List.prefix_refl q, hhigh, (coversPath_iff hscope).mpr ⟨root, hroot, by rwa [hsplit q hq]⟩⟩
      · by_cases hmachine : (splitSlash root).length ≤ 5
        · exact ⟨splitSlash root, hrootpath, hbelow, hmachine, by rwa [joinSlash_splitSlash]⟩
        · -- the root is a machine, and what is above it is above its cell
          have hsix : (splitSlash root).length = 6 := by
            have hle := paths_length hrootpath
            omega
          have hlen : (splitSlash root).dropLast.length = 5 := by rw [List.length_dropLast, hsix]
          have hprecell : q <+: (splitSlash root).dropLast :=
            List.prefix_of_prefix_length_le hbelow (List.dropLast_prefix _) (by omega)
          refine ⟨_, ?_, hprecell, hlen.le, hmachines _ hrootpath hsix (by rwa [joinSlash_splitSlash])⟩
          exact tree.paths_prefixClosed _ hrootpath _ (List.dropLast_prefix _) (List.ne_nil_of_length_pos (by omega))

/-! ## A machine without its cell -/

/-- One machine. -/
def pressTree : HierarchyTree :=
  ⟨lit "acme", [⟨lit "north", [⟨lit "hall", lit "production", [⟨lit "line", [⟨lit "cell", [lit "press"]⟩]⟩]⟩]⟩]⟩

/-- An operator of the machine and of its cell sees the same in both views. -/
theorem press_with_cell_agrees :
    ViewsAgree ⟨false, [lit "acme/north/hall/line/cell/press", lit "acme/north/hall/line/cell"]⟩ pressTree :=
  (viewsAgree_iff (by decide +kernel) rfl (by decide +kernel)).mpr (by decide +kernel)

/-- The machine's operator is shown no site at all. -/
theorem machine_hidden : ¬ ∀ (scope : AccessScope) (tree : HierarchyTree), validateTree tree = .ok () →
    scope.unrestricted = false → (∀ root ∈ scope.rootPaths, root ∈ allPrefixes tree) → ViewsAgree scope tree := by
  intro h
  have hagree := h ⟨false, [lit "acme/north/hall/line/cell/press"]⟩ pressTree (by decide +kernel) rfl
    (by decide +kernel) [lit "acme", lit "north"] (by decide +kernel) (by decide) (by decide)
  revert hagree
  decide +kernel

end Uns.Graphql
