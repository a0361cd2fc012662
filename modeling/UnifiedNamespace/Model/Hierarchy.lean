/-
# `Model.Hierarchy` — the ISA-95 tree and the renames of its prefixes

`hierarchy.py`.  A tree is checked level by level and flattened to the paths of its nodes;
a batch of renames is checked against the tree before and the tree after.  For a checked
tree the paths are `HierarchyTree.paths` with slashes between the names
(`allPrefixes_eq`), so they are closed under what stands above a path.
-/
import UnifiedNamespace.Lib.Raise
import UnifiedNamespace.Lib.Rebase
import UnifiedNamespace.Model.TopicPath

namespace Uns.Model

open Py Lib

/-! ## Trees -/

structure HierarchyCell where
  name : Str
  machines : List Str

structure HierarchyLine where
  name : Str
  cells : List HierarchyCell

structure HierarchyArea where
  name : Str
  kind : Str
  lines : List HierarchyLine

structure HierarchySite where
  name : Str
  areas : List HierarchyArea

structure HierarchyTree where
  enterprise : Str
  sites : List HierarchySite

structure PrefixRename where
  oldPrefix : Str
  newPrefix : Str
deriving DecidableEq

/-- The `ValueError`s of the module. -/
inductive HierarchyError where
  | segmentEmpty
  | segmentSlash (name : Str)
  | enterpriseEmpty
  | duplicate (label parent name : Str)
  | areaKindEmpty (area : Str)
  | oldNotFound (oldPrefix : Str)
  | newNotFound (newPrefix : Str)
  | oldStillPresent (oldPrefix : Str)
  | overlapping (outer inner : Str)
deriving DecidableEq

def validateSegment (name : Str) : Except HierarchyError Unit := do
  refuse (name = []) .segmentEmpty
  refuse (separator ∈ name) (.segmentSlash name)

/-- `_require_unique`, with the names seen so far. -/
def requireUnique (label parent : Str) : List Str → List Str → Except HierarchyError Unit
  | _, [] => .ok ()
  | seen, name :: names => do
      validateSegment name
      refuse (name ∈ seen) (.duplicate label parent name)
      requireUnique label parent (name :: seen) names

def validateCell (parent : Str) (cell : HierarchyCell) : Except HierarchyError Unit :=
  requireUnique (lit "machine") (parent ++ separator :: cell.name) [] cell.machines

def validateLine (parent : Str) (line : HierarchyLine) : Except HierarchyError Unit := do
  requireUnique (lit "cell") (parent ++ separator :: line.name) [] (line.cells.map (·.name))
  line.cells.forM (validateCell (parent ++ separator :: line.name))

def validateArea (parent : Str) (area : HierarchyArea) : Except HierarchyError Unit := do
  refuse (area.kind = []) (.areaKindEmpty area.name)
  requireUnique (lit "line") (parent ++ separator :: area.name) [] (area.lines.map (·.name))
  area.lines.forM (validateLine (parent ++ separator :: area.name))

def validateSite (parent : Str) (site : HierarchySite) : Except HierarchyError Unit := do
  requireUnique (lit "area") (parent ++ separator :: site.name) [] (site.areas.map (·.name))
  site.areas.forM (validateArea (parent ++ separator :: site.name))

def validateTree (tree : HierarchyTree) : Except HierarchyError Unit := do
  refuse (tree.enterprise = []) .enterpriseEmpty
  validateSegment tree.enterprise
  requireUnique (lit "site") tree.enterprise [] (tree.sites.map (·.name))
  tree.sites.forM (validateSite tree.enterprise)

/-! ## Prefixes -/

def cellPrefixes (enterprise site area line : Str) (cell : HierarchyCell) : List Str :=
  joinSegments [enterprise, site, area, line, cell.name] ::
    cell.machines.map fun machine =>
      joinSegments [joinSegments [enterprise, site, area, line, cell.name], machine]

def linePrefixes (enterprise site area : Str) (line : HierarchyLine) : List Str :=
  joinSegments [enterprise, site, area, line.name] ::
    line.cells.flatMap (cellPrefixes enterprise site area line.name)

def areaPrefixes (enterprise site : Str) (area : HierarchyArea) : List Str :=
  joinSegments [enterprise, site, area.name] ::
    area.lines.flatMap (linePrefixes enterprise site area.name)

def sitePrefixes (enterprise : Str) (site : HierarchySite) : List Str :=
  joinSegments [enterprise, site.name] :: site.areas.flatMap (areaPrefixes enterprise site.name)

/-- Every node path in the tree. -/
def allPrefixes (tree : HierarchyTree) : List Str :=
  tree.enterprise :: tree.sites.flatMap (sitePrefixes tree.enterprise)

/-- A strict ancestor on whole segments. -/
def isParentOf (parent child : Str) : Bool := (parent ++ [separator]).isPrefixOf child

/-- One rename against the two trees. -/
def validateRename (tree previous : HierarchyTree) (rename : PrefixRename) :
    Except HierarchyError Unit := do
  refuse (rename.oldPrefix ∉ allPrefixes previous) (.oldNotFound rename.oldPrefix)
  refuse (rename.newPrefix ∉ allPrefixes tree) (.newNotFound rename.newPrefix)
  refuse (rename.oldPrefix ≠ rename.newPrefix ∧ rename.oldPrefix ∈ allPrefixes tree)
    (.oldStillPresent rename.oldPrefix)

def validateApart (outer inner : PrefixRename) : Except HierarchyError Unit :=
  refuse (isParentOf outer.oldPrefix inner.oldPrefix || isParentOf inner.oldPrefix outer.oldPrefix)
    (.overlapping outer.oldPrefix inner.oldPrefix)

/-- Each rename against the later ones. -/
def validateAllApart : List PrefixRename → Except HierarchyError Unit
  | [] => .ok ()
  | outer :: renames => do
      renames.forM (validateApart outer)
      validateAllApart renames

def validateRenames (tree previous : HierarchyTree) (renames : List PrefixRename) :
    Except HierarchyError Unit := do
  renames.forM (validateRename tree previous)
  validateAllApart renames

/-! ## The paths of a checked tree -/

def HierarchyCell.paths (cell : HierarchyCell) : List (List Str) :=
  below cell.name (cell.machines.map fun machine => [[machine]])

def HierarchyLine.paths (line : HierarchyLine) : List (List Str) :=
  below line.name (line.cells.map HierarchyCell.paths)

def HierarchyArea.paths (area : HierarchyArea) : List (List Str) :=
  below area.name (area.lines.map HierarchyLine.paths)

def HierarchySite.paths (site : HierarchySite) : List (List Str) :=
  below site.name (site.areas.map HierarchyArea.paths)

/-- The names from the root to each node. -/
def HierarchyTree.paths (tree : HierarchyTree) : List (List Str) :=
  below tree.enterprise (tree.sites.map HierarchySite.paths)

theorem HierarchyCell.paths_prefixClosed (cell : HierarchyCell) : PrefixClosed cell.paths := by
  refine below_prefixClosed fun paths hpaths => ?_
  obtain ⟨machine, _, rfl⟩ := List.mem_map.mp hpaths
  exact below_prefixClosed (fun _ (h : _ ∈ []) => (nomatch h))

theorem HierarchyLine.paths_prefixClosed (line : HierarchyLine) : PrefixClosed line.paths := by
  refine below_prefixClosed fun paths hpaths => ?_
  obtain ⟨cell, _, rfl⟩ := List.mem_map.mp hpaths
  exact cell.paths_prefixClosed

theorem HierarchyArea.paths_prefixClosed (area : HierarchyArea) : PrefixClosed area.paths := by
  refine below_prefixClosed fun paths hpaths => ?_
  obtain ⟨line, _, rfl⟩ := List.mem_map.mp hpaths
  exact line.paths_prefixClosed

theorem HierarchySite.paths_prefixClosed (site : HierarchySite) : PrefixClosed site.paths := by
  refine below_prefixClosed fun paths hpaths => ?_
  obtain ⟨area, _, rfl⟩ := List.mem_map.mp hpaths
  exact area.paths_prefixClosed

theorem HierarchyTree.paths_prefixClosed (tree : HierarchyTree) : PrefixClosed tree.paths := by
  refine below_prefixClosed fun paths hpaths => ?_
  obtain ⟨site, _, rfl⟩ := List.mem_map.mp hpaths
  exact site.paths_prefixClosed

theorem validateSegment_ok {name : Str} :
    validateSegment name = .ok () ↔ name ≠ [] ∧ separator ∉ name := by
  rw [validateSegment, check_ok, refuse_ok, refuse_ok]

theorem requireUnique_ok {label parent : Str} {seen names : List Str}
    (h : requireUnique label parent seen names = .ok ()) :
    ∀ name ∈ names, validateSegment name = .ok () := by
  induction names generalizing seen with
  | nil => exact fun _ hname => (nomatch hname)
  | cons name names ih =>
      rw [requireUnique, check_ok, check_ok] at h
      exact List.forall_mem_cons.mpr ⟨h.1, ih h.2.2⟩

/-- The names are topic segments. -/
def Segments (paths : List (List Str)) : Prop :=
  ∀ p ∈ paths, ∀ name ∈ p, validateSegment name = .ok ()

theorem segments_below {name : Str} {children : List (List (List Str))} :
    Segments (below name children) ↔
      validateSegment name = .ok () ∧ ∀ paths ∈ children, Segments paths := by
  constructor
  · intro h
    refine ⟨h [name] (mem_below.mpr (.inl rfl)) name List.mem_cons_self, ?_⟩
    intro paths hpaths q hq x hx
    exact h (name :: q) (mem_below.mpr (.inr ⟨paths, hpaths, q, hq, rfl⟩)) x
      (List.mem_cons_of_mem _ hx)
  · rintro ⟨hname, h⟩ p hp
    rcases mem_below.mp hp with rfl | ⟨paths, hpaths, q, hq, rfl⟩
    · exact List.forall_mem_singleton.mpr hname
    · exact List.forall_mem_cons.mpr ⟨hname, h paths hpaths q hq⟩

theorem validateCell_ok {parent : Str} {cell : HierarchyCell}
    (hname : validateSegment cell.name = .ok ()) (h : validateCell parent cell = .ok ()) :
    Segments cell.paths := by
  refine segments_below.mpr ⟨hname, fun paths hpaths => ?_⟩
  obtain ⟨machine, hmachine, rfl⟩ := List.mem_map.mp hpaths
  exact List.forall_mem_singleton.mpr
    (List.forall_mem_singleton.mpr (requireUnique_ok h machine hmachine))

theorem validateLine_ok {parent : Str} {line : HierarchyLine}
    (hname : validateSegment line.name = .ok ()) (h : validateLine parent line = .ok ()) :
    Segments line.paths := by
  rw [validateLine, check_ok, forM_ok] at h
  refine segments_below.mpr ⟨hname, fun paths hpaths => ?_⟩
  obtain ⟨cell, hcell, rfl⟩ := List.mem_map.mp hpaths
  exact validateCell_ok (requireUnique_ok h.1 _ (List.mem_map_of_mem hcell)) (h.2 cell hcell)

theorem validateArea_ok {parent : Str} {area : HierarchyArea}
    (hname : validateSegment area.name = .ok ()) (h : validateArea parent area = .ok ()) :
    Segments area.paths := by
  rw [validateArea, check_ok, check_ok, forM_ok] at h
  refine segments_below.mpr ⟨hname, fun paths hpaths => ?_⟩
  obtain ⟨line, hline, rfl⟩ := List.mem_map.mp hpaths
  exact validateLine_ok (requireUnique_ok h.2.1 _ (List.mem_map_of_mem hline)) (h.2.2 line hline)

theorem validateSite_ok {parent : Str} {site : HierarchySite}
    (hname : validateSegment site.name = .ok ()) (h : validateSite parent site = .ok ()) :
    Segments site.paths := by
  rw [validateSite, check_ok, forM_ok] at h
  refine segments_below.mpr ⟨hname, fun paths hpaths => ?_⟩
  obtain ⟨area, harea, rfl⟩ := List.mem_map.mp hpaths
  exact validateArea_ok (requireUnique_ok h.1 _ (List.mem_map_of_mem harea)) (h.2 area harea)

theorem validateTree_ok {tree : HierarchyTree} (h : validateTree tree = .ok ()) :
    Segments tree.paths := by
  rw [validateTree, check_ok, check_ok, check_ok, forM_ok] at h
  refine segments_below.mpr ⟨h.2.1, fun paths hpaths => ?_⟩
  obtain ⟨site, hsite, rfl⟩ := List.mem_map.mp hpaths
  exact validateSite_ok (requireUnique_ok h.2.2.1 _ (List.mem_map_of_mem hsite))
    (h.2.2.2 site hsite)

theorem joinSegments_eq {names : List Str} (h : ∀ name ∈ names, validateSegment name = .ok ()) :
    joinSegments names = joinSlash names := by
  rw [joinSegments, List.filter_eq_self.mpr]
  exact fun name hname => decide_eq_true (validateSegment_ok.mp (h name hname)).1

theorem map_below (f : List Str → Str) (name : Str) (children : List (List (List Str))) :
    (below name children).map f =
      f [name] :: children.flatMap fun paths => paths.map fun q => f (name :: q) := by
  rw [below, List.map_cons, List.map_flatMap]
  simp only [List.map_map, Function.comp_def]

section

variable {enterprise site area line : Str}

theorem cellPrefixes_eq {cell : HierarchyCell} (h : Segments cell.paths)
    (hparent : ∀ name ∈ [enterprise, site, area, line], validateSegment name = .ok ()) :
    cellPrefixes enterprise site area line cell =
      cell.paths.map fun q => joinSlash (enterprise :: site :: area :: line :: q) := by
  obtain ⟨hname, hmachines⟩ := segments_below.mp h
  have hnames : ∀ name ∈ [enterprise, site, area, line, cell.name],
      validateSegment name = .ok () := by
    simp only [List.forall_mem_cons] at hparent ⊢
    exact ⟨hparent.1, hparent.2.1, hparent.2.2.1, hparent.2.2.2.1, hname, fun _ h => (nomatch h)⟩
  rw [HierarchyCell.paths, map_below, cellPrefixes, List.flatMap_map, joinSegments_eq hnames,
    List.map_eq_flatMap]
  refine congrArg (_ :: ·) (List.flatMap_congr fun machine hmachine => ?_)
  have hmachine : validateSegment machine = .ok () :=
    hmachines [[machine]] (List.mem_map_of_mem hmachine) [machine] List.mem_cons_self machine
      List.mem_cons_self
  have hne : joinSlash [enterprise, site, area, line, cell.name] ≠ [] := by
    rw [joinSlash_cons_cons]
    exact List.append_ne_nil_of_right_ne_nil _ (List.cons_ne_nil _ _)
  have hboth : joinSegments [joinSlash [enterprise, site, area, line, cell.name], machine] =
      joinSlash [joinSlash [enterprise, site, area, line, cell.name], machine] := by
    rw [joinSegments, List.filter_eq_self.mpr]
    simp only [List.forall_mem_cons, ne_eq, decide_eq_true_eq]
    exact ⟨hne, (validateSegment_ok.mp hmachine).1, fun _ h => (nomatch h)⟩
  rw [hboth, joinSlash_cons_cons, joinSlash_singleton, List.map_singleton]
  have happend := joinSlash_append (List.cons_ne_nil enterprise [site, area, line, cell.name])
    (List.cons_ne_nil machine [])
  rw [joinSlash_singleton] at happend
  exact congrArg (fun s => [s]) happend.symm

theorem linePrefixes_eq {line : HierarchyLine} (h : Segments line.paths)
    (hparent : ∀ name ∈ [enterprise, site, area], validateSegment name = .ok ()) :
    linePrefixes enterprise site area line =
      line.paths.map fun q => joinSlash (enterprise :: site :: area :: q) := by
  obtain ⟨hname, hcells⟩ := segments_below.mp h
  have hnames : ∀ name ∈ [enterprise, site, area, line.name], validateSegment name = .ok () := by
    simp only [List.forall_mem_cons] at hparent ⊢
    exact ⟨hparent.1, hparent.2.1, hparent.2.2.1, hname, fun _ h => (nomatch h)⟩
  rw [HierarchyLine.paths, map_below, linePrefixes, List.flatMap_map, joinSegments_eq hnames]
  refine congrArg (_ :: ·) (List.flatMap_congr fun cell hcell => ?_)
  exact cellPrefixes_eq (hcells _ (List.mem_map_of_mem hcell)) hnames

theorem areaPrefixes_eq {area : HierarchyArea} (h : Segments area.paths)
    (hparent : ∀ name ∈ [enterprise, site], validateSegment name = .ok ()) :
    areaPrefixes enterprise site area =
      area.paths.map fun q => joinSlash (enterprise :: site :: q) := by
  obtain ⟨hname, hlines⟩ := segments_below.mp h
  have hnames : ∀ name ∈ [enterprise, site, area.name], validateSegment name = .ok () := by
    simp only [List.forall_mem_cons] at hparent ⊢
    exact ⟨hparent.1, hparent.2.1, hname, fun _ h => (nomatch h)⟩
  rw [HierarchyArea.paths, map_below, areaPrefixes, List.flatMap_map, joinSegments_eq hnames]
  refine congrArg (_ :: ·) (List.flatMap_congr fun line hline => ?_)
  exact linePrefixes_eq (hlines _ (List.mem_map_of_mem hline)) hnames

theorem sitePrefixes_eq {site : HierarchySite} (h : Segments site.paths)
    (henterprise : validateSegment enterprise = .ok ()) :
    sitePrefixes enterprise site = site.paths.map fun q => joinSlash (enterprise :: q) := by
  obtain ⟨hname, hareas⟩ := segments_below.mp h
  have hnames : ∀ name ∈ [enterprise, site.name], validateSegment name = .ok () :=
    List.forall_mem_cons.mpr ⟨henterprise, List.forall_mem_singleton.mpr hname⟩
  rw [HierarchySite.paths, map_below, sitePrefixes, List.flatMap_map, joinSegments_eq hnames]
  refine congrArg (_ :: ·) (List.flatMap_congr fun area harea => ?_)
  exact areaPrefixes_eq (hareas _ (List.mem_map_of_mem harea)) hnames

end

/-- The node paths of a checked tree are its names with slashes between them. -/
theorem allPrefixes_eq {tree : HierarchyTree} (h : validateTree tree = .ok ()) :
    allPrefixes tree = tree.paths.map joinSlash := by
  obtain ⟨hname, hsites⟩ := segments_below.mp (validateTree_ok h)
  rw [HierarchyTree.paths, map_below, allPrefixes, List.flatMap_map, joinSlash_singleton]
  refine congrArg (_ :: ·) (List.flatMap_congr fun site hsite => ?_)
  exact sitePrefixes_eq (hsites _ (List.mem_map_of_mem hsite)) hname

theorem paths_ne_nil {tree : HierarchyTree} {q : List Str} (h : q ∈ tree.paths) : q ≠ [] := by
  rcases mem_below.mp h with rfl | ⟨_, _, _, _, rfl⟩ <;> exact List.cons_ne_nil _ _

/-- Six levels. -/
theorem paths_length {tree : HierarchyTree} {q : List Str} (h : q ∈ tree.paths) : q.length ≤ 6 := by
  have hlevel : ∀ (n : Nat) (name : Str) (children : List (List (List Str))),
      (∀ paths ∈ children, ∀ q ∈ paths, q.length ≤ n) →
        ∀ q ∈ below name children, q.length ≤ n + 1 := by
    intro n name children hchildren q hq
    rcases mem_below.mp hq with rfl | ⟨paths, hpaths, rest, hrest, rfl⟩
    · exact Nat.succ_le_succ (Nat.zero_le n)
    · exact Nat.succ_le_succ (hchildren paths hpaths rest hrest)
  refine hlevel 5 _ _ (List.forall_mem_map.mpr fun site _ => ?_) q h
  refine hlevel 4 _ _ (List.forall_mem_map.mpr fun area _ => ?_)
  refine hlevel 3 _ _ (List.forall_mem_map.mpr fun line _ => ?_)
  refine hlevel 2 _ _ (List.forall_mem_map.mpr fun cell _ => ?_)
  refine hlevel 1 _ _ (List.forall_mem_map.mpr fun machine _ => ?_)
  exact List.forall_mem_singleton.mpr (Nat.le_refl 1)

theorem mem_allPrefixes {tree : HierarchyTree} (h : validateTree tree = .ok ()) {p : Str} :
    p ∈ allPrefixes tree ↔ splitSlash p ∈ tree.paths := by
  have hsplit : ∀ q ∈ tree.paths, splitSlash (joinSlash q) = q := fun q hq =>
    splitSlash_joinSlash (paths_ne_nil hq) fun name hname =>
      (validateSegment_ok.mp (validateTree_ok h q hq name hname)).2
  rw [allPrefixes_eq h, List.mem_map]
  constructor
  · rintro ⟨q, hq, rfl⟩
    rwa [hsplit q hq]
  · intro hp
    exact ⟨splitSlash p, hp, joinSlash_splitSlash p⟩

/-- What stands above a node of a checked tree is a node of it. -/
theorem allPrefixes_covers {tree : HierarchyTree} (h : validateTree tree = .ok ()) {p q : Str}
    (hp : p ∈ allPrefixes tree) (hq : covers p q = true) : q ∈ allPrefixes tree := by
  rw [mem_allPrefixes h] at hp ⊢
  exact tree.paths_prefixClosed _ hp _ (covers_iff.mp hq) (splitSlash_ne_nil q)

/-! ## What an accepted batch says -/

theorem validateRename_ok {tree previous : HierarchyTree} {rename : PrefixRename} :
    validateRename tree previous rename = .ok () ↔
      rename.oldPrefix ∈ allPrefixes previous ∧ rename.newPrefix ∈ allPrefixes tree ∧
        (rename.oldPrefix ≠ rename.newPrefix → rename.oldPrefix ∉ allPrefixes tree) := by
  rw [validateRename, check_ok, check_ok, refuse_ok, refuse_ok, refuse_ok, not_not, not_not,
    not_and]

theorem validateApart_ok {outer inner : PrefixRename} :
    validateApart outer inner = .ok () ↔
      isParentOf outer.oldPrefix inner.oldPrefix = false ∧
        isParentOf inner.oldPrefix outer.oldPrefix = false := by
  rw [validateApart, refuse_ok, Bool.or_eq_true, not_or, Bool.not_eq_true, Bool.not_eq_true]

theorem validateAllApart_ok {renames : List PrefixRename} :
    validateAllApart renames = .ok () ↔
      renames.Pairwise fun outer inner => validateApart outer inner = .ok () := by
  induction renames with
  | nil => exact ⟨fun _ => .nil, fun _ => rfl⟩
  | cons outer renames ih => rw [validateAllApart, check_ok, forM_ok, ih, List.pairwise_cons]

theorem isParentOf_iff {parent child : Str} :
    isParentOf parent child = true ↔ ∃ rest, child = parent ++ separator :: rest := by
  rw [isParentOf, List.isPrefixOf_iff_prefix]
  constructor
  · rintro ⟨rest, rfl⟩
    exact ⟨rest, by rw [List.append_assoc]; rfl⟩
  · rintro ⟨rest, rfl⟩
    exact ⟨rest, by rw [List.append_assoc]; rfl⟩

theorem isParentOf_self (path : Str) : isParentOf path path = false := by
  rw [Bool.eq_false_iff]
  intro h
  obtain ⟨rest, hrest⟩ := isParentOf_iff.mp h
  have hlen := congrArg List.length hrest
  rw [List.length_append, List.length_cons] at hlen
  omega

/-- No old prefix of an accepted batch is above another. -/
theorem validateRenames_apart {tree previous : HierarchyTree} {renames : List PrefixRename}
    (h : validateRenames tree previous renames = .ok ()) {r r' : PrefixRename} (hr : r ∈ renames)
    (hr' : r' ∈ renames) (hpre : covers r'.oldPrefix r.oldPrefix = true) :
    r.oldPrefix = r'.oldPrefix := by
  rw [validateRenames, check_ok, validateAllApart_ok] at h
  have hafter : renames.Pairwise fun a b => isParentOf a.oldPrefix b.oldPrefix = false :=
    h.2.imp fun hab => (validateApart_ok.mp hab).1
  have hbefore : renames.Pairwise (flip fun a b => isParentOf a.oldPrefix b.oldPrefix = false) :=
    h.2.imp fun hab => (validateApart_ok.mp hab).2
  have hapart := hafter.forall_of_forall_of_flip (fun x _ => isParentOf_self _) hbefore hr hr'
  rcases covers_cases.mp hpre with heq | hrest
  · exact heq.symm
  · rw [isParentOf_iff.mpr hrest] at hapart
    cases hapart

theorem validateRenames_each {tree previous : HierarchyTree} {renames : List PrefixRename}
    (h : validateRenames tree previous renames = .ok ()) {r : PrefixRename} (hr : r ∈ renames) :
    r.oldPrefix ∈ allPrefixes previous ∧ r.newPrefix ∈ allPrefixes tree ∧
      (r.oldPrefix ≠ r.newPrefix → r.oldPrefix ∉ allPrefixes tree) := by
  rw [validateRenames, check_ok, forM_ok] at h
  exact validateRename_ok.mp (h.1 r hr)

end Uns.Model
