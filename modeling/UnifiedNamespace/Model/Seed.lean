/-
# `Model.Seed` — the plan of a hierarchy tree, applied

`seed.py`.  A plan is read off the tree and the machines of the settings; applying it
upserts every branch, prunes the active Assets of the enterprise that the plan does not
name, and gives each Area its Access Group.  A plan knows no renames: `Applied` says what
becomes of an Asset of before, by its path alone.
-/
import UnifiedNamespace.Model.Assets
import UnifiedNamespace.Model.Hierarchy

namespace Uns.Model

open Py Lib

/-! ## The plan -/

def areaLevel : Str := lit "AREA"
def machineLevel : Str := lit "MACHINE"

def simulatorLevels : List Str :=
  [lit "ENTERPRISE", lit "SITE", areaLevel, lit "LINE", lit "WORK_CELL"]

def siteMachine : Str := lit "SCADA"
def lineMachine : Str := lit "HMI"

/-- `_prefix_branch`. -/
def prefixBranch (segments : List Str) : List AssetSpec := segments.zipWith AssetSpec.mk simulatorLevels

/-- `_authored_prefix_branches`: one branch for each node. -/
def authoredPrefixBranches (tree : HierarchyTree) : List (List AssetSpec) :=
  prefixBranch [tree.enterprise] :: tree.sites.flatMap fun site =>
    prefixBranch [tree.enterprise, site.name] :: site.areas.flatMap fun area =>
      prefixBranch [tree.enterprise, site.name, area.name] :: area.lines.flatMap fun line =>
        prefixBranch [tree.enterprise, site.name, area.name, line.name] :: line.cells.map fun cell =>
          prefixBranch [tree.enterprise, site.name, area.name, line.name, cell.name]

/-- The names down to a Work Cell, and the machines authored on it. -/
structure CellEntry where
  enterprise : Str
  site : Str
  area : Str
  line : Str
  cell : Str
  authored : List Str

/-- `_cell_entries`. -/
def cellEntries (tree : HierarchyTree) : List CellEntry :=
  tree.sites.flatMap fun site => site.areas.flatMap fun area => area.lines.flatMap fun line =>
    line.cells.map fun cell => ⟨tree.enterprise, site.name, area.name, line.name, cell.name, cell.machines⟩

def CellEntry.branch (entry : CellEntry) : List AssetSpec :=
  prefixBranch [entry.enterprise, entry.site, entry.area, entry.line, entry.cell]

/-- The machines of a Work Cell; the first of a Site has its SCADA, the first of a Line its HMI. -/
def CellEntry.machines (entry : CellEntry) (templates : List Str) (sitesSeen : List Str)
    (linesSeen : List (Str × Str × Str)) : List Str :=
  (if entry.authored ≠ [] then entry.authored else templates) ++
    (if entry.site ∈ sitesSeen then [] else [siteMachine]) ++
    (if (entry.site, entry.area, entry.line) ∈ linesSeen then [] else [lineMachine])

/-- The branches of the Work Cells, with the Sites and Lines seen so far. -/
def cellBranches (templates : List Str) :
    List Str → List (Str × Str × Str) → List CellEntry → List (List AssetSpec)
  | _, _, [] => []
  | sitesSeen, linesSeen, entry :: entries =>
      entry.branch ::
        (entry.machines templates sitesSeen linesSeen).map
          (fun machine => entry.branch ++ [⟨machine, machineLevel⟩]) ++
        cellBranches templates (entry.site :: sitesSeen)
          ((entry.site, entry.area, entry.line) :: linesSeen) entries

structure SeedPlan where
  branches : List (List AssetSpec)
  metrics : List Str
  enterprise : Str

/-- `plan_from_hierarchy_tree`; the machines of the settings come with their sensors. -/
def planFromHierarchyTree (tree : HierarchyTree) (machines : List (Str × List Str)) : SeedPlan where
  branches := authoredPrefixBranches tree ++ cellBranches (machines.map Prod.fst) [] [] (cellEntries tree)
  metrics := (machines.flatMap Prod.snd).map fun sensor => lit "ProcessValue/" ++ sensor ++ lit "/value"
  enterprise := tree.enterprise

/-- The paths that the plan would create. -/
def SeedPlan.assetPaths (plan : SeedPlan) : List Str := plan.branches.flatMap (branchPaths [])

/-! ## Applying it -/

/-- `_highest_paths`: fewest separators first, then by name. -/
def highestPaths (paths : List Str) : List Str :=
  (paths.insertionSort fun a b =>
      a.count separator < b.count separator ∨ a.count separator = b.count separator ∧ a ≤ b).foldl
    (fun roots path => if roots.any (covers path) then roots else roots ++ [path]) []

/-- The active Assets of the enterprise that the plan does not name. -/
def SeedPlan.prunePaths (plan : SeedPlan) (assets : AssetTable) : List Str :=
  (assets.rows.entries.filter fun row =>
    row.2.2.active && decide (row.1 ∉ plan.assetPaths) && covers row.1 plan.enterprise).map Prod.fst

/-- `_prune_removed_assets`. -/
def AssetModel.pruneRemovedAssets (m : AssetModel) (plan : SeedPlan) : AssetModel :=
  (highestPaths (plan.prunePaths m.assets)).foldl AssetModel.deleteAsset m

/-- The active Areas by path. -/
def AssetModel.areas (m : AssetModel) : List (Nat × AssetRow) :=
  ((m.assets.rows.entries.filter fun row =>
      row.2.2.active && decide (row.2.2.level = areaLevel)).insertionSort
    fun a b => a.1 ≤ b.1).map Prod.snd

/-- The branches in order. -/
def ensureBranches : AssetTable → List (List AssetSpec) → Option AssetTable
  | assets, [] => some assets
  | assets, branch :: branches =>
      (ensureBranch assets none [] branch).bind fun assets => ensureBranches assets branches

/-- `apply_plan`. -/
def AssetModel.applyPlan (m : AssetModel) (plan : SeedPlan) : Option AssetModel :=
  (ensureBranches m.assets plan.branches).bind fun assets =>
    let written := plan.metrics.foldl AssetModel.defineMetric { m with assets := assets }
    let pruned := written.pruneRemovedAssets plan
    (pruned.upsertAreaGroups pruned.areas).map fun saved => saved.1.applyDemoMembership saved.2

/-! ## The branches -/

theorem extends_ensureBranches {branches : List (List AssetSpec)} {assets after : AssetTable}
    (h : ensureBranches assets branches = some after) :
    Extends (branches.flatMap (branchPaths [])) assets after := by
  induction branches generalizing assets with
  | nil =>
      cases h
      exact .refl _
  | cons branch branches ih =>
      obtain ⟨mid, hbranch, hrest⟩ := Option.bind_eq_some_iff.mp h
      exact (extends_ensureBranch hbranch).trans (ih hrest)

theorem parentsAbove_ensureBranches {branches : List (List AssetSpec)} {assets after : AssetTable}
    (hparents : ParentsAbove assets) (h : ensureBranches assets branches = some after) :
    ParentsAbove after := by
  induction branches generalizing assets with
  | nil =>
      cases h
      exact hparents
  | cons branch branches ih =>
      obtain ⟨mid, hbranch, hrest⟩ := Option.bind_eq_some_iff.mp h
      exact ih (parentsAbove_ensureBranch hparents (fun _ hid => by cases hid) hbranch) hrest

/-! ## The pruned paths -/

theorem any_covers_highestPaths (paths : List Str) (key : Str) :
    (highestPaths paths).any (covers key) = true ↔ paths.any (covers key) = true := by
  have hfold : ∀ (paths roots : List Str),
      (paths.foldl (fun roots path => if roots.any (covers path) then roots else roots ++ [path])
        roots).any (covers key) = true ↔ roots.any (covers key) = true ∨ paths.any (covers key) = true := by
    intro paths
    induction paths with
    | nil => exact fun roots => (or_iff_left Bool.false_ne_true).symm
    | cons path paths ih =>
        intro roots
        rw [List.foldl_cons, ih, List.any_cons, Bool.or_eq_true]
        split
        · rename_i hcovered
          -- what the path covers, the root above it covers
          have hup : covers key path = true → roots.any (covers key) = true := by
            intro hkey
            obtain ⟨root, hroot, hcovers⟩ := List.any_eq_true.mp hcovered
            exact List.any_eq_true.mpr ⟨root, hroot, covers_trans hkey hcovers⟩
          rw [← or_assoc, or_iff_left_of_imp hup]
        · rw [List.any_append, Bool.or_eq_true, List.any_cons, List.any_nil, Bool.or_false, or_assoc]
  rw [highestPaths, hfold, List.any_nil, or_iff_right Bool.false_ne_true]
  simp only [List.any_eq_true, List.mem_insertionSort]

/-- An active Asset of the enterprise that the plan does not name is at or above the path. -/
def SeedPlan.Prunes (plan : SeedPlan) (assets : AssetTable) (path : Str) : Prop :=
  ∃ key row, assets.find? key = some row ∧ row.2.active = true ∧ key ∉ plan.assetPaths ∧
    covers key plan.enterprise = true ∧ covers path key = true

theorem prunePaths_any {plan : SeedPlan} {assets : AssetTable} {path : Str} :
    (plan.prunePaths assets).any (covers path) = true ↔ plan.Prunes assets path := by
  rw [SeedPlan.prunePaths, List.any_map, List.any_eq_true]
  constructor
  · rintro ⟨row, hrow, hcovers⟩
    obtain ⟨hmem, hkeep⟩ := List.mem_filter.mp hrow
    simp only [Bool.and_eq_true, decide_eq_true_iff] at hkeep
    exact ⟨row.1, row.2, Dict.get?_of_mem hmem, hkeep.1.1, hkeep.1.2, hkeep.2, hcovers⟩
  · rintro ⟨key, row, hfind, hactive, hkey, hunder, hcovers⟩
    refine ⟨(key, row), List.mem_filter.mpr ⟨Dict.mem_of_get? hfind, ?_⟩, hcovers⟩
    simp only [Bool.and_eq_true, decide_eq_true_iff]
    exact ⟨⟨hactive, hkey⟩, hunder⟩

/-- The branches are written before, and name none of the pruned Assets. -/
theorem prunes_extends {plan : SeedPlan} {before after : AssetTable}
    (h : Extends plan.assetPaths before after) {path : Str} :
    plan.Prunes after path ↔ plan.Prunes before path := by
  constructor
  · rintro ⟨key, row, hfind, hactive, hkey, hunder, hcovers⟩
    exact ⟨key, row, (h.others key hkey).symm.trans hfind, hactive, hkey, hunder, hcovers⟩
  · rintro ⟨key, row, hfind, hactive, hkey, hunder, hcovers⟩
    exact ⟨key, row, (h.others key hkey).trans hfind, hactive, hkey, hunder, hcovers⟩

/-! ## The names of the Areas -/

def HierarchyTree.areaNames (tree : HierarchyTree) : List Str :=
  tree.sites.flatMap fun site => site.areas.map (·.name)

/-- Areas have one of the names, and a segment with a slash is a machine's at least. -/
structure TableNamed (names : List Str) (assets : AssetTable) : Prop where
  areas : ∀ path row, assets.find? path = some row → row.2.level = areaLevel → row.2.segment ∈ names
  segments : ∀ path row, assets.find? path = some row →
    separator ∉ row.2.segment ∨ 6 ≤ (splitSlash path).length

/-- The same of a level of a branch. -/
structure LevelNamed (names : List Str) (above : List Str) (spec : AssetSpec) : Prop where
  area : spec.level = areaLevel → spec.segment ∈ names ∧ separator ∉ spec.segment ∧
    (splitSlash (joinSlash (above ++ [spec.segment]))).length < 6
  segment : separator ∉ spec.segment ∨ 6 ≤ (splitSlash (joinSlash (above ++ [spec.segment]))).length

def BranchNamed (names : List Str) : List Str → List AssetSpec → Prop
  | _, [] => True
  | above, spec :: specs => LevelNamed names above spec ∧ BranchNamed names (above ++ [spec.segment]) specs

/-- A segment without a slash is the last of its path. -/
theorem assetCheck_last {path : Str} {row : AssetRow} (h : assetCheck path row = true)
    (hslash : separator ∉ row.segment) : (splitSlash path).getLast? = some row.segment := by
  rw [assetCheck, Bool.and_eq_true, Bool.or_eq_true, decide_eq_true_iff, decide_eq_true_iff,
    List.isSuffixOf_iff_suffix] at h
  rcases h.2 with rfl | ⟨above, rfl⟩
  · rw [splitSlash_of_no_slash hslash]
    rfl
  · rw [splitSlash_append, splitSlash_of_no_slash hslash, List.getLast?_append]
    rfl

theorem tableNamed_upsert {names above : List Str} {spec : AssetSpec} {parentId : Option Nat}
    {assets after : AssetTable} (h : TableNamed names assets) (hlevel : LevelNamed names above spec)
    (hupsert : assets.upsert? (joinSlash (above ++ [spec.segment]))
      ⟨parentId, spec.segment, spec.level, true⟩
      (fun row => { row with level := spec.level, parentId := parentId }) = some after) :
    TableNamed names after := by
  obtain ⟨⟨id, hwritten, -⟩, hcheck, hothers⟩ := Table.find?_upsert? hupsert
  have hrow : ∀ path row, after.find? path = some row →
      (path ≠ joinSlash (above ++ [spec.segment]) ∧ assets.find? path = some row) ∨
        (path = joinSlash (above ++ [spec.segment]) ∧ row.2.level = spec.level ∧
          (row.2.segment = spec.segment ∨
            ∃ old, assets.find? path = some old ∧ row.2.segment = old.2.segment)) := by
    intro path row hfind
    by_cases hpath : path = joinSlash (above ++ [spec.segment])
    · refine .inr ⟨hpath, ?_⟩
      subst hpath
      rw [hwritten] at hfind
      cases hfind
      cases hold : assets.find? (joinSlash (above ++ [spec.segment])) with
      | none => exact ⟨rfl, .inl rfl⟩
      | some old => exact ⟨rfl, .inr ⟨old, rfl, rfl⟩⟩
    · exact .inl ⟨hpath, (hothers path hpath).symm.trans hfind⟩
  refine ⟨fun path row hfind harea => ?_, fun path row hfind => ?_⟩
  · rcases hrow path row hfind with ⟨-, hold⟩ | ⟨rfl, hlevel', hsegment⟩
    · exact h.areas path row hold harea
    · obtain ⟨hname, hslash, hdepth⟩ := hlevel.area (hlevel'.symm.trans harea)
      rcases hsegment with heq | ⟨old, hold, heq⟩
      · rwa [heq]
      · -- the row of before has the last name of the same path
        have hfree : separator ∉ old.2.segment :=
          (h.segments _ old hold).resolve_right (Nat.not_le.mpr hdepth)
        have hlast := assetCheck_last (Table.check_of_find? hold) hfree
        rw [assetCheck_last hcheck hslash] at hlast
        rw [heq, ← Option.some.inj hlast]
        exact hname
  · rcases hrow path row hfind with ⟨-, hold⟩ | ⟨rfl, -, hsegment⟩
    · exact h.segments path row hold
    · rcases hsegment with heq | ⟨old, hold, heq⟩
      · rw [heq]
        exact hlevel.segment
      · rw [heq]
        exact h.segments _ old hold

theorem tableNamed_ensureBranch {names : List Str} {specs : List AssetSpec}
    {assets after : AssetTable} {parentId : Option Nat} {above : List Str}
    (h : TableNamed names assets) (hbranch : BranchNamed names above specs)
    (hensure : ensureBranch assets parentId above specs = some after) : TableNamed names after := by
  induction specs generalizing assets parentId above with
  | nil =>
      cases hensure
      exact h
  | cons spec specs ih =>
      obtain ⟨mid, hupsert, hrest⟩ := Option.bind_eq_some_iff.mp hensure
      exact ih (tableNamed_upsert h hbranch.1 hupsert) hbranch.2 hrest

theorem tableNamed_ensureBranches {names : List Str} {branches : List (List AssetSpec)}
    {assets after : AssetTable} (h : TableNamed names assets)
    (hbranches : ∀ branch ∈ branches, BranchNamed names [] branch)
    (hensure : ensureBranches assets branches = some after) : TableNamed names after := by
  induction branches generalizing assets with
  | nil =>
      cases hensure
      exact h
  | cons branch branches ih =>
      obtain ⟨hbranch, hrest⟩ := List.forall_mem_cons.mp hbranches
      obtain ⟨mid, hfirst, hlater⟩ := Option.bind_eq_some_iff.mp hensure
      exact ih (tableNamed_ensureBranch h hbranch hfirst) hrest hlater

/-- A level of authored names. -/
theorem levelNamed_authored {names above : List Str} {segment level : Str}
    (hslash : ∀ name ∈ above ++ [segment], separator ∉ name) (hdepth : above.length < 5)
    (harea : level = areaLevel → segment ∈ names) : LevelNamed names above ⟨segment, level⟩ := by
  have hsegment : separator ∉ segment :=
    hslash segment (List.mem_append_right _ List.mem_cons_self)
  refine ⟨fun hlevel => ⟨harea hlevel, hsegment, ?_⟩, .inl hsegment⟩
  rw [splitSlash_joinSlash (List.append_ne_nil_of_right_ne_nil _ (List.cons_ne_nil _ _)) hslash,
    List.length_append]
  exact Nat.add_lt_add_right hdepth 1

/-- A machine of a Work Cell, whatever its name. -/
theorem levelNamed_machine {names above : List Str} (machine : Str)
    (hslash : ∀ name ∈ above, separator ∉ name) (hdepth : above.length = 5) :
    LevelNamed names above ⟨machine, machineLevel⟩ := by
  have hmachine : machineLevel ≠ areaLevel := by decide
  refine ⟨fun hlevel => absurd hlevel hmachine, .inr ?_⟩
  have hne : above ≠ [] := by
    rintro rfl
    cases hdepth
  rw [joinSlash_append hne (List.cons_ne_nil _ _), splitSlash_append,
    splitSlash_joinSlash hne hslash, List.length_append, hdepth, joinSlash_singleton]
  exact Nat.add_le_add_left (List.length_pos_iff.mpr (splitSlash_ne_nil machine)) 5

section

variable {tree : HierarchyTree}

/-- The names of a checked tree, level by level. -/
structure Plain (tree : HierarchyTree) : Prop where
  enterprise : separator ∉ tree.enterprise
  site : ∀ site ∈ tree.sites, separator ∉ site.name
  area : ∀ site ∈ tree.sites, ∀ area ∈ site.areas, separator ∉ area.name
  line : ∀ site ∈ tree.sites, ∀ area ∈ site.areas, ∀ line ∈ area.lines, separator ∉ line.name
  cell : ∀ site ∈ tree.sites, ∀ area ∈ site.areas, ∀ line ∈ area.lines, ∀ cell ∈ line.cells,
    separator ∉ cell.name

theorem plain_of_validateTree (h : validateTree tree = .ok ()) : Plain tree := by
  obtain ⟨henterprise, hsites⟩ := segments_below.mp (validateTree_ok h)
  have hsite : ∀ site ∈ tree.sites, validateSegment site.name = .ok () ∧
      ∀ paths ∈ site.areas.map HierarchyArea.paths, Segments paths := fun site hmem =>
    segments_below.mp (hsites _ (List.mem_map_of_mem hmem))
  have harea : ∀ site ∈ tree.sites, ∀ area ∈ site.areas, validateSegment area.name = .ok () ∧
      ∀ paths ∈ area.lines.map HierarchyLine.paths, Segments paths := fun site hmem area hmem' =>
    segments_below.mp ((hsite site hmem).2 _ (List.mem_map_of_mem hmem'))
  have hline : ∀ site ∈ tree.sites, ∀ area ∈ site.areas, ∀ line ∈ area.lines,
      validateSegment line.name = .ok () ∧
        ∀ paths ∈ line.cells.map HierarchyCell.paths, Segments paths :=
    fun site hmem area hmem' line hmem'' =>
      segments_below.mp ((harea site hmem area hmem').2 _ (List.mem_map_of_mem hmem''))
  refine ⟨(validateSegment_ok.mp henterprise).2, fun site hmem =>
    (validateSegment_ok.mp (hsite site hmem).1).2, fun site hmem area hmem' =>
    (validateSegment_ok.mp (harea site hmem area hmem').1).2, fun site hmem area hmem' line hmem'' =>
    (validateSegment_ok.mp (hline site hmem area hmem' line hmem'').1).2, ?_⟩
  intro site hmem area hmem' line hmem'' cell hcell
  obtain ⟨hname, -⟩ :=
    segments_below.mp ((hline site hmem area hmem' line hmem'').2 _ (List.mem_map_of_mem hcell))
  exact (validateSegment_ok.mp hname).2

/-- Authored names make a named branch. -/
theorem branchNamed_zipWith {names : List Str} {segments levels above : List Str}
    (hslash : ∀ name ∈ above ++ segments, separator ∉ name)
    (hdepth : above.length + levels.length ≤ 5)
    (harea : ∀ pair ∈ segments.zip levels, pair.2 = areaLevel → pair.1 ∈ names) :
    BranchNamed names above (segments.zipWith AssetSpec.mk levels) := by
  induction segments generalizing levels above with
  | nil =>
      rw [List.zipWith_nil_left]
      trivial
  | cons segment segments ih =>
      cases levels with
      | nil => trivial
      | cons level levels =>
          rw [List.append_cons] at hslash
          rw [List.length_cons] at hdepth
          obtain ⟨hhead, hrest⟩ := List.forall_mem_cons.mp harea
          refine ⟨levelNamed_authored (fun name hname => hslash name (List.mem_append_left _ hname))
            (by omega) hhead, ih hslash ?_ hrest⟩
          rw [List.length_append, List.length_singleton]
          omega

theorem branchNamed_prefix {names segments : List Str} (hslash : ∀ name ∈ segments, separator ∉ name)
    (harea : ∀ name ∈ segments[2]?, name ∈ names) : BranchNamed names [] (prefixBranch segments) := by
  refine branchNamed_zipWith hslash (by decide) fun pair hpair hlevel => ?_
  obtain ⟨i, hi⟩ := List.mem_iff_getElem?.mp hpair
  obtain ⟨hsegment, hlevel'⟩ := List.getElem?_zip_eq_some.mp hi
  rw [hlevel] at hlevel'
  -- the level of an Area stands at one place
  have hplace : ∀ i, simulatorLevels[i]? = some areaLevel → i = 2 := by
    intro i hi
    match i, hi with
    | 0, h => exact absurd h (by decide)
    | 1, h => exact absurd h (by decide)
    | 2, _ => rfl
    | 3, h => exact absurd h (by decide)
    | 4, h => exact absurd h (by decide)
    | n + 5, h => cases h
  rw [hplace i hlevel'] at hsegment
  exact harea _ hsegment

theorem branchNamed_append {names above : List Str} {specs later : List AssetSpec}
    (h : BranchNamed names above specs)
    (h' : BranchNamed names (above ++ specs.map (·.segment)) later) :
    BranchNamed names above (specs ++ later) := by
  induction specs generalizing above with
  | nil =>
      rw [List.map_nil, List.append_nil] at h'
      exact h'
  | cons spec specs ih =>
      rw [List.map_cons, List.append_cons] at h'
      exact ⟨h.1, ih h.2 h'⟩

theorem mem_cellEntries {entry : CellEntry} (h : entry ∈ cellEntries tree) :
    ∃ site ∈ tree.sites, ∃ area ∈ site.areas, ∃ line ∈ area.lines, ∃ cell ∈ line.cells,
      entry = ⟨tree.enterprise, site.name, area.name, line.name, cell.name, cell.machines⟩ := by
  simp only [cellEntries, List.mem_flatMap, List.mem_map] at h
  obtain ⟨site, hsite, area, harea, line, hline, cell, hcell, heq⟩ := h
  exact ⟨site, hsite, area, harea, line, hline, cell, hcell, heq.symm⟩

theorem mem_areaNames {site : HierarchySite} {area : HierarchyArea} (hsite : site ∈ tree.sites)
    (harea : area ∈ site.areas) : area.name ∈ tree.areaNames :=
  List.mem_flatMap.mpr ⟨site, hsite, List.mem_map_of_mem harea⟩

theorem entry_named (h : Plain tree) {names : List Str} (hnames : ∀ name ∈ tree.areaNames, name ∈ names)
    {entry : CellEntry} (hentry : entry ∈ cellEntries tree) :
    BranchNamed names [] entry.branch ∧
      ∀ machine, BranchNamed names [] (entry.branch ++ [⟨machine, machineLevel⟩]) := by
  obtain ⟨site, hsite, area, harea, line, hline, cell, hcell, rfl⟩ := mem_cellEntries hentry
  have hslash : ∀ name ∈ [tree.enterprise, site.name, area.name, line.name, cell.name],
      separator ∉ name := by
    simp only [List.forall_mem_cons]
    exact ⟨h.enterprise, h.site _ hsite, h.area _ hsite _ harea, h.line _ hsite _ harea _ hline,
      h.cell _ hsite _ harea _ hline _ hcell, fun _ hname => (nomatch hname)⟩
  have hbranch : BranchNamed names []
      (prefixBranch [tree.enterprise, site.name, area.name, line.name, cell.name]) := by
    refine branchNamed_prefix hslash ?_
    rintro name ⟨⟩
    exact hnames _ (mem_areaNames hsite harea)
  exact ⟨hbranch, fun machine => branchNamed_append hbranch
    ⟨levelNamed_machine machine hslash rfl, trivial⟩⟩

theorem cellBranches_named {names templates : List Str} {entries : List CellEntry}
    (h : ∀ entry ∈ entries, BranchNamed names [] entry.branch ∧
      ∀ machine, BranchNamed names [] (entry.branch ++ [⟨machine, machineLevel⟩]))
    (sitesSeen : List Str) (linesSeen : List (Str × Str × Str)) :
    ∀ branch ∈ cellBranches templates sitesSeen linesSeen entries, BranchNamed names [] branch := by
  induction entries generalizing sitesSeen linesSeen with
  | nil => exact fun _ hbranch => (nomatch hbranch)
  | cons entry entries ih =>
      obtain ⟨hentry, hrest⟩ := List.forall_mem_cons.mp h
      refine List.forall_mem_cons.mpr ⟨hentry.1, List.forall_mem_append.mpr ⟨?_, ih hrest _ _⟩⟩
      exact List.forall_mem_map.mpr fun machine _ => hentry.2 machine

theorem authoredPrefixBranches_named (h : Plain tree) {names : List Str}
    (hnames : ∀ name ∈ tree.areaNames, name ∈ names) :
    ∀ branch ∈ authoredPrefixBranches tree, BranchNamed names [] branch := by
  intro branch hbranch
  simp only [authoredPrefixBranches, List.mem_cons, List.mem_flatMap, List.mem_map] at hbranch
  rcases hbranch with rfl | ⟨site, hsite, rfl | ⟨area, harea, rfl | ⟨line, hline, rfl |
    ⟨cell, hcell, rfl⟩⟩⟩⟩
  all_goals
    refine branchNamed_prefix ?_ ?_
  · exact List.forall_mem_singleton.mpr h.enterprise
  · exact fun _ hname => (by cases hname)
  · simp only [List.forall_mem_cons]
    exact ⟨h.enterprise, h.site _ hsite, fun _ hname => absurd hname List.not_mem_nil⟩
  · exact fun _ hname => (by cases hname)
  · simp only [List.forall_mem_cons]
    exact ⟨h.enterprise, h.site _ hsite, h.area _ hsite _ harea, fun _ hname => absurd hname List.not_mem_nil⟩
  · rintro name ⟨⟩
    exact hnames _ (mem_areaNames hsite harea)
  · simp only [List.forall_mem_cons]
    exact ⟨h.enterprise, h.site _ hsite, h.area _ hsite _ harea, h.line _ hsite _ harea _ hline,
      fun _ hname => absurd hname List.not_mem_nil⟩
  · rintro name ⟨⟩
    exact hnames _ (mem_areaNames hsite harea)
  · simp only [List.forall_mem_cons]
    exact ⟨h.enterprise, h.site _ hsite, h.area _ hsite _ harea, h.line _ hsite _ harea _ hline,
      h.cell _ hsite _ harea _ hline _ hcell, fun _ hname => absurd hname List.not_mem_nil⟩
  · rintro name ⟨⟩
    exact hnames _ (mem_areaNames hsite harea)

end

/-! ## What applying a plan does to the Assets of before -/

/-- The Asset is pruned. -/
def SeedPlan.PrunesId (plan : SeedPlan) (assets : AssetTable) (id : Nat) : Prop :=
  ∃ path row, assets.find? path = some (id, row) ∧ plan.Prunes assets path

/-- Paths and identities stay; what is pruned goes, with what refers to it; groups of other names
than the Areas' are left alone. -/
structure Applied (plan : SeedPlan) (names : List Str) (m m' : AssetModel) : Prop where
  pruned : ∀ path, plan.Prunes m.assets path → m'.assets.find? path = none
  kept : ∀ path row, m.assets.find? path = some row → ¬ plan.Prunes m.assets path →
    ∃ row', m'.assets.find? path = some row' ∧ row'.1 = row.1
  path : ∀ path row path' row', m.assets.find? path = some row → m'.assets.find? path' = some row' →
    row'.1 = row.1 → path' = path
  groups : ∀ name, name ∉ names → m'.groups.find? name = m.groups.find? name
  members : ∀ name group, name ∉ names → m.groups.find? name = some group →
    ∀ subject, (group.1, subject) ∈ m'.members ↔ (group.1, subject) ∈ m.members
  roots : ∀ name group, name ∉ names → m.groups.find? name = some group →
    ∀ path row, m.assets.find? path = some row →
      ((group.1, row.1) ∈ m'.roots ↔ (group.1, row.1) ∈ m.roots ∧ ¬ plan.PrunesId m.assets row.1)
  given : ∀ name group, name ∉ names → m.groups.find? name = some group →
    ∀ id, (group.1, id) ∈ m'.roots → (group.1, id) ∈ m.roots
  definitions : ∀ key path row, m.assets.find? path = some row →
    ((some row.1, key) ∈ m'.definitions ↔ (some row.1, key) ∈ m.definitions ∧
      ¬ plan.PrunesId m.assets row.1)
  tags : ∀ key path row, m.assets.find? path = some row →
    ((key, some row.1) ∈ m'.tags ↔ (key, some row.1) ∈ m.tags ∧ ¬ plan.PrunesId m.assets row.1)

theorem prunesId_iff {plan : SeedPlan} {assets : AssetTable} {path : Str} {row : Nat × AssetRow}
    (h : assets.find? path = some row) : plan.PrunesId assets row.1 ↔ plan.Prunes assets path := by
  constructor
  · rintro ⟨path', row', hfind, hprunes⟩
    rwa [Table.key_of_id h hfind rfl]
  · exact fun hprunes => ⟨path, row.2, h, hprunes⟩

/-- The plant-wide definitions change nothing that has an Asset. -/
theorem foldl_defineMetric (metrics : List Str) (m : AssetModel) :
    ∃ definitions, metrics.foldl AssetModel.defineMetric m = { m with definitions := definitions } ∧
      ∀ id key, (some id, key) ∈ definitions ↔ (some id, key) ∈ m.definitions := by
  induction metrics generalizing m with
  | nil => exact ⟨m.definitions, rfl, fun _ _ => Iff.rfl⟩
  | cons metric metrics ih =>
      obtain ⟨definitions, heq, hmem⟩ := ih (m.defineMetric metric)
      rw [List.foldl_cons, heq, AssetModel.defineMetric]
      split
      · rename_i hthere
        refine ⟨definitions, rfl, fun id key => (hmem id key).trans ?_⟩
        rw [AssetModel.defineMetric, if_pos hthere]
      · rename_i hnew
        refine ⟨definitions, rfl, fun id key => (hmem id key).trans ?_⟩
        rw [AssetModel.defineMetric, if_neg hnew, List.mem_append, List.mem_singleton]
        exact or_iff_left fun h => (nomatch congrArg Prod.fst h)

/-- The names of the groups that the seeding manages: of the Areas there are, and of the tree's. -/
def areaGroupNames (tree : HierarchyTree) (m : AssetModel) : List Str :=
  (((m.assets.rows.entries.filter fun row => decide (row.2.2.level = areaLevel)).map
      fun row => row.2.2.segment) ++ tree.areaNames).map strip

/-- Parents are above their children, a segment is one topic segment, and what refers to an Asset
refers to one there is. -/
structure AssetModel.Sound (m : AssetModel) : Prop where
  parents : ParentsAbove m.assets
  segments : ∀ path row, m.assets.find? path = some row → separator ∉ row.2.segment
  roots : ∀ root ∈ m.roots, ∃ path row, m.assets.find? path = some row ∧ row.1 = root.2
  definitions : ∀ id key, (some id, key) ∈ m.definitions →
    ∃ path row, m.assets.find? path = some row ∧ row.1 = id
  tags : ∀ key id, (key, some id) ∈ m.tags → ∃ path row, m.assets.find? path = some row ∧ row.1 = id

theorem tableNamed_of_sound {tree : HierarchyTree} {m : AssetModel} (h : m.Sound) :
    TableNamed ((m.assets.rows.entries.filter fun row => decide (row.2.2.level = areaLevel)).map
      (fun row => row.2.2.segment) ++ tree.areaNames) m.assets := by
  refine ⟨fun path row hfind hlevel => List.mem_append_left _ ?_, fun path row hfind =>
    .inl (h.segments path row hfind)⟩
  exact List.mem_map.mpr ⟨(path, row), List.mem_filter.mpr ⟨Dict.mem_of_get? hfind,
    decide_eq_true hlevel⟩, rfl⟩

theorem mem_areas {m : AssetModel} {area : Nat × AssetRow} (h : area ∈ m.areas) :
    ∃ path, m.assets.find? path = some area ∧ area.2.level = areaLevel := by
  obtain ⟨row, hrow, rfl⟩ := List.mem_map.mp h
  obtain ⟨hmem, hkeep⟩ := List.mem_filter.mp ((List.mem_insertionSort _).mp hrow)
  rw [Bool.and_eq_true, decide_eq_true_iff] at hkeep
  exact ⟨row.1, Dict.get?_of_mem hmem, hkeep.2⟩

/-- What the pruning of the written table takes, in terms of the table of before. -/
theorem lost_iff {plan : SeedPlan} {before after : AssetTable}
    (h : Extends plan.assetPaths before after) {path : Str} {row : Nat × AssetRow}
    (hrow : before.find? path = some row) :
    Lost after (highestPaths (plan.prunePaths after)) row.1 ↔ plan.PrunesId before row.1 := by
  obtain ⟨row', hrow', hid, -⟩ := h.kept path row hrow
  rw [prunesId_iff hrow]
  constructor
  · rintro ⟨key, found, hfind, hany⟩
    have hkey : key = path := Table.key_of_id hfind hrow' hid.symm
    rwa [any_covers_highestPaths, prunePaths_any, prunes_extends h, hkey] at hany
  · intro hprunes
    refine ⟨path, row'.2, ?_, ?_⟩
    · rw [hrow', ← hid]
    · rwa [any_covers_highestPaths, prunePaths_any, prunes_extends h]

/-- `apply_plan` of a checked tree. -/
theorem applied_applyPlan {tree : HierarchyTree} {machines : List (Str × List Str)}
    {m m' : AssetModel} (htree : validateTree tree = .ok ()) (hm : m.Sound)
    (h : m.applyPlan (planFromHierarchyTree tree machines) = some m') :
    Applied (planFromHierarchyTree tree machines) (areaGroupNames tree m) m m' := by
  obtain ⟨after, hensure, h⟩ := Option.bind_eq_some_iff.mp h
  obtain ⟨saved, hsaved, rfl⟩ := Option.map_eq_some_iff.mp h
  have hextends : Extends (planFromHierarchyTree tree machines).assetPaths m.assets after :=
    extends_ensureBranches hensure
  have hparents := parentsAbove_ensureBranches hm.parents hensure
  have hnamed := tableNamed_ensureBranches (tableNamed_of_sound hm) (fun branch hbranch => by
    have hplain := plain_of_validateTree htree
    have hnames : ∀ name ∈ tree.areaNames, name ∈
        (m.assets.rows.entries.filter fun row => decide (row.2.2.level = areaLevel)).map
          (fun row => row.2.2.segment) ++ tree.areaNames := fun _ hname => List.mem_append_right _ hname
    rcases List.mem_append.mp hbranch with hbranch | hbranch
    · exact authoredPrefixBranches_named hplain hnames branch hbranch
    · exact cellBranches_named (fun entry hentry => entry_named hplain hnames hentry) [] [] branch
        hbranch) hensure
  obtain ⟨definitions, hwritten, hdefinitions⟩ :=
    foldl_defineMetric (planFromHierarchyTree tree machines).metrics { m with assets := after }
  rw [hwritten] at hsaved
  -- the pruning, on the written table
  have hdeleted := deleted_foldl
    (highestPaths ((planFromHierarchyTree tree machines).prunePaths after))
    (m := { m with assets := after, definitions := definitions }) hparents
  have hpruned : ∀ key, (highestPaths ((planFromHierarchyTree tree machines).prunePaths after)).any
      (covers key) = true ↔ (planFromHierarchyTree tree machines).Prunes m.assets key := fun key => by
    rw [any_covers_highestPaths, prunePaths_any, prunes_extends hextends]
  have hareas : ∀ area ∈ (AssetModel.pruneRemovedAssets { m with assets := after, definitions := definitions }
      (planFromHierarchyTree tree machines)).areas, strip area.2.segment ∈ areaGroupNames tree m := by
    intro area harea
    obtain ⟨path, hfind, hlevel⟩ := mem_areas harea
    have hfind' := hfind.symm.trans (hdeleted.assets path)
    split at hfind'
    · cases hfind'
    · exact List.mem_map_of_mem (hnamed.areas path area hfind'.symm hlevel)
  -- the groups, on the pruned tables
  obtain ⟨hseeded, hgroups⟩ := seeded_upsertAreaGroups hareas hsaved
  have hall := hseeded.trans (seeded_applyDemoMembership hgroups)
  have hassets : ∀ key, (saved.1.applyDemoMembership saved.2).assets.find? key =
      if (highestPaths ((planFromHierarchyTree tree machines).prunePaths after)).any (covers key) = true
      then none else after.find? key := fun key => by
    rw [hall.assets]
    exact hdeleted.assets key
  refine ⟨fun path hprunes => ?_, fun path row hfind hprunes => ?_, ?_, fun name hname => ?_,
    fun name group hname hgroup subject => ?_, fun name group hname hgroup path row hfind => ?_,
    fun name group hname hgroup id hroot => ?_, fun key path row hfind => ?_,
    fun key path row hfind => ?_⟩
  · rw [hassets, if_pos ((hpruned path).mpr hprunes)]
  · obtain ⟨row', hrow', hid, -⟩ := hextends.kept path row hfind
    exact ⟨row', by rw [hassets, if_neg fun h => hprunes ((hpruned path).mp h)]; exact hrow', hid⟩
  · intro path row path' row' hfind hfind' hid
    rw [hassets] at hfind'
    split at hfind'
    · cases hfind'
    · obtain ⟨row'', hrow'', hid', -⟩ := hextends.kept path row hfind
      exact Table.key_of_id hfind' hrow'' (hid.trans hid'.symm)
  · rw [hall.others name hname]
    exact congrArg (fun groups => Table.find? groups name) hdeleted.groups
  · have hgroup' : (AssetModel.pruneRemovedAssets
        { m with assets := after, definitions := definitions }
        (planFromHierarchyTree tree machines)).groups.find? name = some group :=
      (congrArg (fun groups => Table.find? groups name) hdeleted.groups).trans hgroup
    rw [hall.members name group hname hgroup' subject]
    exact iff_of_eq (congrArg (fun members => (group.1, subject) ∈ members) hdeleted.members)
  · have hgroup' : (AssetModel.pruneRemovedAssets
        { m with assets := after, definitions := definitions }
        (planFromHierarchyTree tree machines)).groups.find? name = some group :=
      (congrArg (fun groups => Table.find? groups name) hdeleted.groups).trans hgroup
    rw [hall.roots name group hname hgroup' row.1, ← lost_iff hextends hfind]
    exact hdeleted.roots (group.1, row.1)
  · have hgroup' : (AssetModel.pruneRemovedAssets
        { m with assets := after, definitions := definitions }
        (planFromHierarchyTree tree machines)).groups.find? name = some group :=
      (congrArg (fun groups => Table.find? groups name) hdeleted.groups).trans hgroup
    exact ((hdeleted.roots _).mp ((hall.roots name group hname hgroup' id).mp hroot)).1
  · rw [hall.definitions, ← lost_iff hextends hfind]
    exact (hdeleted.definitions row.1 key).trans (and_congr_left' (hdefinitions row.1 key))
  · rw [hall.tags, ← lost_iff hextends hfind]
    exact hdeleted.tags key row.1

end Uns.Model
