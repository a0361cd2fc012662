/-
# `Model.TreeMapping` — trees as mappings, and one path for each node

`tree_to_mapping` and `tree_from_mapping`.  A mapping is a value as a file of settings has it;
the names of sites, areas and lines and the kinds are taken as they are, those of the
enterprise, cells and machines through `str`.  A checked tree comes back from its mapping, and
its nodes have different paths: siblings have different names, and no name has a slash
(`tree_mapping_paths`).
-/
import UnifiedNamespace.Model.Hierarchy

namespace Uns.Model

open Py Lib

/-! ## Values -/

inductive ScalarType where
  | bool
  | int
  | float
  | timestamp
  deriving DecidableEq

/-- A value of a file: `None`, a string, another scalar by its type and its `str`, a list or a mapping. -/
inductive Raw where
  | none
  | str (s : Str)
  | scalar (type : ScalarType) (printed : Str)
  | list (items : List Raw)
  | dict (items : List (Raw × Raw))

namespace Raw

/-- `get`, with a string key. -/
def get? (items : List (Raw × Raw)) (key : Str) : Option Raw :=
  (items.find? fun e => match e.1 with
    | .str s => decide (s = key)
    | _ => false).map Prod.snd

/-- What a `for` runs over; `none` is the `TypeError`. -/
def iterate : Raw → Option (List Raw)
  | .list items => some items
  | .dict items => some (items.map Prod.fst)
  | .str s => some (s.map fun c => .str [c])
  | .none => Option.none
  | .scalar _ _ => Option.none

end Raw

/-- `str()` of every value; lists and mappings print in some way. -/
structure Printer where
  text : Raw → Str
  text_str : ∀ s, text (.str s) = s
  text_scalar : ∀ type printed, text (.scalar type printed) = printed

/-! ## Trees as they are read -/

structure LooseLine where
  name : Raw
  cells : List HierarchyCell

structure LooseArea where
  name : Raw
  kind : Raw
  lines : List LooseLine

structure LooseSite where
  name : Raw
  areas : List LooseArea

/-- A tree whose names may be other values than strings. -/
structure LooseTree where
  enterprise : Str
  sites : List LooseSite

def HierarchyLine.loose (line : HierarchyLine) : LooseLine := ⟨.str line.name, line.cells⟩

def HierarchyArea.loose (area : HierarchyArea) : LooseArea :=
  ⟨.str area.name, .str area.kind, area.lines.map HierarchyLine.loose⟩

def HierarchySite.loose (site : HierarchySite) : LooseSite := ⟨.str site.name, site.areas.map HierarchyArea.loose⟩

def HierarchyTree.loose (tree : HierarchyTree) : LooseTree := ⟨tree.enterprise, tree.sites.map HierarchySite.loose⟩

/-! ## Reading and writing -/

def defaultAreaKind : Str := lit "production"

section Coerce

variable (printer : Printer)

/-- `_coerce_cell`; `none` is what is raised. -/
def coerceCell : Raw → Option HierarchyCell
  | .str s => some ⟨s, []⟩
  | .dict items => do
      let machines ← ((Raw.get? items (lit "machines")).getD (.list [])).iterate
      let name ← Raw.get? items (lit "name")
      return ⟨printer.text name, machines.map printer.text⟩
  | _ => none

def coerceCells : Raw → Option (List HierarchyCell)
  | .none => some []
  | raw => do (← raw.iterate).mapM (coerceCell printer)

/-- `raw.items()`, or the entries with their names. -/
def namedItems : Raw → Option (List (Raw × Raw))
  | .dict items => some items
  | raw => do
      (← raw.iterate).mapM fun entry => match entry with
        | .dict items => (Raw.get? items (lit "name")).map fun name => (name, entry)
        | _ => none

/-- `body.get(key, ())` of a mapping, `()` of any other value. -/
def childrenOf (body : Raw) (key : Str) : Raw :=
  match body with
  | .dict items => (Raw.get? items key).getD (.list [])
  | _ => .list []

def coerceLine (item : Raw × Raw) : Option LooseLine := do
  let cells ← coerceCells printer (match item.2 with
    | .dict items => (Raw.get? items (lit "cells")).getD .none
    | _ => .list [])
  return ⟨item.1, cells⟩

def coerceLines (raw : Raw) : Option (List LooseLine) := do (← namedItems raw).mapM (coerceLine printer)

def areaKind : Raw → Raw
  | .dict items => (Raw.get? items (lit "kind")).getD (.str defaultAreaKind)
  | _ => .str defaultAreaKind

def coerceArea (item : Raw × Raw) : Option LooseArea := do
  let lines ← coerceLines printer (childrenOf item.2 (lit "lines"))
  return ⟨item.1, areaKind item.2, lines⟩

def coerceAreas (raw : Raw) : Option (List LooseArea) := do (← namedItems raw).mapM (coerceArea printer)

def coerceSite (item : Raw × Raw) : Option LooseSite := do
  let areas ← coerceAreas printer (childrenOf item.2 (lit "areas"))
  return ⟨item.1, areas⟩

def coerceSites (raw : Raw) : Option (List LooseSite) := do (← namedItems raw).mapM (coerceSite printer)

/-- `tree_from_mapping`. -/
def treeFromMapping (items : List (Raw × Raw)) : Option LooseTree := do
  let enterprise ← Raw.get? items (lit "enterprise")
  let sites ← coerceSites printer ((Raw.get? items (lit "sites")).getD (.list []))
  return ⟨printer.text enterprise, sites⟩

end Coerce

def field (key : String) (value : Raw) : Raw × Raw := (.str (lit key), value)

def cellMapping (cell : HierarchyCell) : Raw :=
  .dict [field "name" (.str cell.name), field "machines" (.list (cell.machines.map .str))]

def lineMapping (line : HierarchyLine) : Raw :=
  .dict [field "name" (.str line.name), field "cells" (.list (line.cells.map cellMapping))]

def areaMapping (area : HierarchyArea) : Raw :=
  .dict [field "name" (.str area.name),
    field "kind" (.str (if area.kind = [] then defaultAreaKind else area.kind)),
    field "lines" (.list (area.lines.map lineMapping))]

def siteMapping (site : HierarchySite) : Raw :=
  .dict [field "name" (.str site.name), field "areas" (.list (site.areas.map areaMapping))]

/-- `tree_to_mapping`. -/
def treeToMapping (tree : HierarchyTree) : List (Raw × Raw) :=
  [field "enterprise" (.str tree.enterprise), field "sites" (.list (tree.sites.map siteMapping))]

/-! ## Read back -/

section ReadBack

variable (printer : Printer)

theorem coerceCell_mapping (cell : HierarchyCell) : coerceCell printer (cellMapping cell) = some cell := by
  have hread : coerceCell printer (cellMapping cell) =
      some ⟨printer.text (.str cell.name), (cell.machines.map .str).map printer.text⟩ := rfl
  have hmachines : (cell.machines.map Raw.str).map printer.text = cell.machines := by
    rw [List.map_map]
    exact (List.map_congr_left fun m _ => printer.text_str m).trans (List.map_id _)
  rw [hread, printer.text_str, hmachines]

theorem namedItems_list {α : Type} {g : α → Raw} {label : α → Raw} {as : List α}
    (h : ∀ a ∈ as, ∃ items, g a = .dict items ∧ Raw.get? items (lit "name") = some (label a)) :
    namedItems (.list (as.map g)) = some (as.map fun a => (label a, g a)) := by
  have hread : namedItems (.list (as.map g)) = (as.map g).mapM fun entry => match entry with
      | .dict items => (Raw.get? items (lit "name")).map fun name => (name, entry)
      | _ => none := rfl
  rw [hread]
  refine mapM_map_some _ fun a ha => ?_
  obtain ⟨items, hitems, hname⟩ := h a ha
  rw [hitems]
  change (Raw.get? items (lit "name")).map _ = _
  rw [hname]
  rfl

theorem coerceLines_mapping (lines : List HierarchyLine) :
    coerceLines printer (.list (lines.map lineMapping)) = some (lines.map HierarchyLine.loose) := by
  have hitems := @namedItems_list _ lineMapping (fun line => .str line.name) lines fun line _ => ⟨_, rfl, rfl⟩
  rw [coerceLines, hitems]
  refine mapM_map_some _ fun line _ => ?_
  have hcells : coerceCells printer (.list (line.cells.map cellMapping)) = some line.cells :=
    (mapM_map_some (fun cell => cell) fun cell _ => coerceCell_mapping printer cell).trans
      (congrArg some (List.map_id' _))
  change (coerceCells printer (.list (line.cells.map cellMapping))).bind (fun cells =>
    some (⟨.str line.name, cells⟩ : LooseLine)) = _
  rw [hcells]
  rfl

theorem coerceAreas_mapping {areas : List HierarchyArea} (h : ∀ area ∈ areas, area.kind ≠ []) :
    coerceAreas printer (.list (areas.map areaMapping)) = some (areas.map HierarchyArea.loose) := by
  have hitems := @namedItems_list _ areaMapping (fun area => .str area.name) areas fun area _ => ⟨_, rfl, rfl⟩
  rw [coerceAreas, hitems]
  refine mapM_map_some _ fun area harea => ?_
  change (coerceLines printer (.list (area.lines.map lineMapping))).bind (fun lines =>
    some (⟨.str area.name, .str (if area.kind = [] then defaultAreaKind else area.kind), lines⟩ : LooseArea)) = _
  rw [coerceLines_mapping, if_neg (h area harea)]
  rfl

theorem treeFromMapping_mapping {tree : HierarchyTree} (h : ∀ site ∈ tree.sites, ∀ area ∈ site.areas, area.kind ≠ []) :
    treeFromMapping printer (treeToMapping tree) = some tree.loose := by
  have hsites : coerceSites printer (.list (tree.sites.map siteMapping)) =
      some (tree.sites.map HierarchySite.loose) := by
    have hitems := @namedItems_list _ siteMapping (fun site => .str site.name) tree.sites fun site _ => ⟨_, rfl, rfl⟩
    rw [coerceSites, hitems]
    refine mapM_map_some _ fun site hsite => ?_
    change (coerceAreas printer (.list (site.areas.map areaMapping))).bind (fun areas =>
      some (⟨.str site.name, areas⟩ : LooseSite)) = _
    rw [coerceAreas_mapping printer (h site hsite)]
    rfl
  change (coerceSites printer (.list (tree.sites.map siteMapping))).bind (fun sites =>
    some (⟨printer.text (.str tree.enterprise), sites⟩ : LooseTree)) = _
  rw [hsites, printer.text_str]
  rfl

end ReadBack

/-! ## One path for each node -/

def HierarchyCell.nodeCount (cell : HierarchyCell) : Nat := 1 + cell.machines.length

def HierarchyLine.nodeCount (line : HierarchyLine) : Nat := 1 + (line.cells.map HierarchyCell.nodeCount).sum

def HierarchyArea.nodeCount (area : HierarchyArea) : Nat := 1 + (area.lines.map HierarchyLine.nodeCount).sum

def HierarchySite.nodeCount (site : HierarchySite) : Nat := 1 + (site.areas.map HierarchyArea.nodeCount).sum

/-- The enterprise, sites, areas, lines, cells and machines. -/
def HierarchyTree.nodeCount (tree : HierarchyTree) : Nat := 1 + (tree.sites.map HierarchySite.nodeCount).sum

/-- `parent_path`, `None` as the topic itself. -/
def parentPath (topic : Str) : Str :=
  if (splitSlash topic).length < 2 then topic else joinSlash (splitSlash topic).dropLast

section Paths

theorem requireUnique_nodup {label parent : Str} {seen names : List Str}
    (h : requireUnique label parent seen names = .ok ()) : names.Nodup ∧ ∀ name ∈ names, name ∉ seen := by
  induction names generalizing seen with
  | nil => exact ⟨List.nodup_nil, fun _ hname => absurd hname List.not_mem_nil⟩
  | cons name names ih =>
      rw [requireUnique, check_ok, check_ok, refuse_ok] at h
      obtain ⟨hnodup, hnew⟩ := ih h.2.2
      refine ⟨List.nodup_cons.mpr ⟨fun hmem => hnew name hmem List.mem_cons_self, hnodup⟩, fun other hother => ?_⟩
      rcases List.mem_cons.mp hother with rfl | hother
      · exact h.2.1
      · exact fun hseen => hnew other hother (List.mem_cons_of_mem _ hseen)

/-- Siblings with different names have different paths below them. -/
theorem nodup_below {β : Type} {f : β → List (List Str)} {label : β → Str} {items : List β} (name : Str)
    (hlabel : (items.map label).Nodup) (hf : ∀ b ∈ items, (f b).Nodup)
    (hhead : ∀ b ∈ items, ∀ q ∈ f b, q.head? = some (label b)) : (below name (items.map f)).Nodup := by
  have hmap : ∀ paths : List (List Str), paths.Nodup → (paths.map (name :: ·)).Nodup := fun paths hpaths =>
    hpaths.map fun _ _ heq => (List.cons.inj heq).2
  rw [below, List.flatMap_map]
  refine List.nodup_cons.mpr ⟨fun hmem => ?_, List.nodup_flatMap.mpr ⟨fun b hb => hmap _ (hf b hb), ?_⟩⟩
  · obtain ⟨b, hb, hq⟩ := List.mem_flatMap.mp hmem
    obtain ⟨q, hq, heq⟩ := List.mem_map.mp hq
    have hnil : q = [] := (List.cons.inj heq).2
    have hlabelled := hhead b hb q hq
    rw [hnil] at hlabelled
    cases hlabelled
  · refine (List.pairwise_map.mp hlabel).imp_of_mem fun {b c} hb hc hne => ?_
    intro p hp hp'
    obtain ⟨q, hq, rfl⟩ := List.mem_map.mp hp
    obtain ⟨r, hr, heq⟩ := List.mem_map.mp hp'
    have hqr : r = q := (List.cons.inj heq).2
    have hboth := (hhead b hb q hq).symm.trans (hqr ▸ hhead c hc r hr)
    exact hne (Option.some.inj hboth)

theorem head_below {name : Str} {children : List (List (List Str))} {q : List Str} (h : q ∈ below name children) :
    q.head? = some name := by
  rcases mem_below.mp h with rfl | ⟨_, _, _, _, rfl⟩ <;> rfl

theorem length_below (name : Str) (children : List (List (List Str))) :
    (below name children).length = 1 + (children.map List.length).sum := by
  rw [below, List.length_cons, List.length_flatMap, Nat.add_comm]
  simp only [List.length_map]

theorem nodup_cellPaths {parent : Str} {cell : HierarchyCell} (h : validateCell parent cell = .ok ()) :
    cell.paths.Nodup := by
  have hlabel : (cell.machines.map fun machine => machine).Nodup := by
    rw [List.map_id']
    exact (requireUnique_nodup h).1
  refine @nodup_below Str (fun machine => [[machine]]) (fun machine => machine) cell.machines cell.name hlabel
    (fun _ _ => List.nodup_singleton _) fun machine _ q hq => ?_
  rw [List.mem_singleton.mp hq]
  rfl

theorem nodup_linePaths {parent : Str} {line : HierarchyLine} (h : validateLine parent line = .ok ()) :
    line.paths.Nodup := by
  rw [validateLine, check_ok, forM_ok] at h
  exact nodup_below line.name (requireUnique_nodup h.1).1 (fun cell hcell => nodup_cellPaths (h.2 cell hcell))
    fun _ _ _ hq => head_below hq

theorem nodup_areaPaths {parent : Str} {area : HierarchyArea} (h : validateArea parent area = .ok ()) :
    area.paths.Nodup := by
  rw [validateArea, check_ok, check_ok, forM_ok] at h
  exact nodup_below area.name (requireUnique_nodup h.2.1).1 (fun line hline => nodup_linePaths (h.2.2 line hline))
    fun _ _ _ hq => head_below hq

theorem nodup_sitePaths {parent : Str} {site : HierarchySite} (h : validateSite parent site = .ok ()) :
    site.paths.Nodup := by
  rw [validateSite, check_ok, forM_ok] at h
  exact nodup_below site.name (requireUnique_nodup h.1).1 (fun area harea => nodup_areaPaths (h.2 area harea))
    fun _ _ _ hq => head_below hq

theorem nodup_paths {tree : HierarchyTree} (h : validateTree tree = .ok ()) : tree.paths.Nodup := by
  rw [validateTree, check_ok, check_ok, check_ok, forM_ok] at h
  exact nodup_below tree.enterprise (requireUnique_nodup h.2.2.1).1
    (fun site hsite => nodup_sitePaths (h.2.2.2 site hsite)) fun _ _ _ hq => head_below hq

theorem length_paths (tree : HierarchyTree) : tree.paths.length = tree.nodeCount := by
  have hcell : ∀ cell : HierarchyCell, cell.paths.length = cell.nodeCount := by
    intro cell
    rw [HierarchyCell.paths, length_below, HierarchyCell.nodeCount, List.map_map]
    simp [Function.comp_def]
  have hline : ∀ line : HierarchyLine, line.paths.length = line.nodeCount := by
    intro line
    rw [HierarchyLine.paths, length_below, HierarchyLine.nodeCount, List.map_map]
    simp only [Function.comp_def, hcell]
  have harea : ∀ area : HierarchyArea, area.paths.length = area.nodeCount := by
    intro area
    rw [HierarchyArea.paths, length_below, HierarchyArea.nodeCount, List.map_map]
    simp only [Function.comp_def, hline]
  have hsite : ∀ site : HierarchySite, site.paths.length = site.nodeCount := by
    intro site
    rw [HierarchySite.paths, length_below, HierarchySite.nodeCount, List.map_map]
    simp only [Function.comp_def, harea]
  rw [HierarchyTree.paths, length_below, HierarchyTree.nodeCount, List.map_map]
  simp only [Function.comp_def, hsite]

/-- The nodes of a checked tree have different paths. -/
theorem nodup_allPrefixes {tree : HierarchyTree} (h : validateTree tree = .ok ()) : (allPrefixes tree).Nodup := by
  rw [allPrefixes_eq h]
  refine (nodup_paths h).map_on fun p hp q hq heq => ?_
  have hsplit : ∀ q ∈ tree.paths, splitSlash (joinSlash q) = q := fun q hq =>
    splitSlash_joinSlash (paths_ne_nil hq) fun name hname =>
      (validateSegment_ok.mp (validateTree_ok h q hq name hname)).2
  rw [← hsplit p hp, heq, hsplit q hq]

theorem parentPath_mem {tree : HierarchyTree} (h : validateTree tree = .ok ()) {p : Str} (hp : p ∈ allPrefixes tree) :
    parentPath p ∈ allPrefixes tree := by
  rw [parentPath]
  split
  · exact hp
  · next hlong =>
    rw [mem_allPrefixes h] at hp ⊢
    have hne : (splitSlash p).dropLast ≠ [] := by
      intro hnil
      have hlength := congrArg List.length hnil
      rw [List.length_dropLast, List.length_nil] at hlength
      omega
    rw [splitSlash_joinSlash hne fun name hname => not_mem_of_mem_splitSlash (List.mem_of_mem_dropLast hname)]
    exact tree.paths_prefixClosed _ hp _ (List.dropLast_prefix _) hne

theorem kind_ne_nil {tree : HierarchyTree} (h : validateTree tree = .ok ()) :
    ∀ site ∈ tree.sites, ∀ area ∈ site.areas, area.kind ≠ [] := by
  rw [validateTree, check_ok, check_ok, check_ok, forM_ok] at h
  intro site hsite area harea
  have hs := h.2.2.2 site hsite
  rw [validateSite, check_ok, forM_ok] at hs
  have ha := hs.2 area harea
  rw [validateArea, check_ok, check_ok, refuse_ok] at ha
  exact ha.1

end Paths

/-- A checked tree comes back from its mapping, its nodes have different paths, as many as nodes,
and the path above each is a path. -/
theorem tree_mapping_paths (printer : Printer) (tree : HierarchyTree) (h : validateTree tree = .ok ()) :
    treeFromMapping printer (treeToMapping tree) = some tree.loose ∧
      Function.Injective (allPrefixes tree).get ∧ (allPrefixes tree).toFinset.card = tree.nodeCount ∧
      ∀ p ∈ allPrefixes tree, parentPath p ∈ allPrefixes tree := by
  have hnodup := nodup_allPrefixes h
  refine ⟨treeFromMapping_mapping printer (kind_ne_nil h), List.nodup_iff_injective_get.mp hnodup, ?_,
    fun p hp => parentPath_mem h hp⟩
  rw [List.toFinset_card_of_nodup hnodup, allPrefixes_eq h, List.length_map, length_paths]

/-- Lists and mappings, which no name is, without a text. -/
def scalarPrinter : Printer where
  text
    | .str s => s
    | .scalar _ printed => printed
    | _ => []
  text_str _ := rfl
  text_scalar _ _ := rfl

/-- Two cells of one name, in different lines. -/
def twoLines : HierarchyTree :=
  ⟨lit "acme", [⟨lit "east", [⟨lit "hall", lit "production",
    [⟨lit "line-1", [⟨lit "cell", [lit "press"]⟩]⟩, ⟨lit "line-2", [⟨lit "cell", []⟩]⟩]⟩]⟩]⟩

theorem twoLines_mapping_paths : treeFromMapping scalarPrinter (treeToMapping twoLines) = some twoLines.loose ∧
    Function.Injective (allPrefixes twoLines).get ∧ (allPrefixes twoLines).toFinset.card = twoLines.nodeCount ∧
      ∀ p ∈ allPrefixes twoLines, parentPath p ∈ allPrefixes twoLines :=
  tree_mapping_paths scalarPrinter twoLines rfl

end Uns.Model
