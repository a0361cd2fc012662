/-
# `Model.Assets` — the Asset tree and the tables that refer to it

`tables.py` and the statements of `repositories.py` and `access_repository.py` that a
reseed sends.  An Asset is found by its path and keeps the identity it was inserted with;
an upsert by path never changes a path.  Deleting an Asset takes what is under it, and the
foreign keys take its Access Group roots and Metric Definitions along, and set its
connectivity tags to null.
-/
import UnifiedNamespace.Lib.Table
import UnifiedNamespace.Model.TopicPath

namespace Uns.Model

open Py Lib

/-! ## Tables -/

structure AssetRow where
  parentId : Option Nat
  segment : Str
  level : Str
  active : Bool

/-- `ck_asset_segment_not_empty` and `ck_asset_path_ends_with_segment`. -/
def assetCheck (path : Str) (row : AssetRow) : Bool :=
  decide (row.segment ≠ []) &&
    (decide (path = row.segment) || (separator :: row.segment).isSuffixOf path)

abbrev AssetTable := Table Str AssetRow assetCheck

/-- The Assets, the Access Groups by name with their roots and members, and the Assets that
Metric Definitions (by key) and connectivity tags (by server and node) refer to. -/
structure AssetModel where
  assets : AssetTable
  groups : Table Str Unit fun _ _ => true
  roots : List (Nat × Nat)
  members : List (Nat × Str)
  definitions : List (Option Nat × Str)
  tags : List ((Str × Str) × Option Nat)

structure AssetSpec where
  segment : Str
  level : Str
deriving DecidableEq

/-! ## Upserts -/

/-- `ensure_branch`: each level is upserted by its path, under the one before. -/
def ensureBranch : AssetTable → Option Nat → List Str → List AssetSpec → Option AssetTable
  | assets, _, _, [] => some assets
  | assets, parentId, above, spec :: specs =>
      let path := joinSlash (above ++ [spec.segment])
      (assets.upsert? path ⟨parentId, spec.segment, spec.level, true⟩
        fun row => { row with level := spec.level, parentId := parentId }).bind fun assets =>
          ensureBranch assets ((assets.find? path).map Prod.fst) (above ++ [spec.segment]) specs

/-- The paths of a branch. -/
def branchPaths : List Str → List AssetSpec → List Str
  | _, [] => []
  | above, spec :: specs =>
      joinSlash (above ++ [spec.segment]) :: branchPaths (above ++ [spec.segment]) specs

/-- `define_metric` without an Asset. -/
def AssetModel.defineMetric (m : AssetModel) (key : Str) : AssetModel :=
  if (none, key) ∈ m.definitions then m else { m with definitions := m.definitions ++ [(none, key)] }

/-! ## Deletes -/

/-- The row is at or below the path, or its parent goes. -/
def cascades (assets : AssetTable) (path : Str) : Nat → Str × Nat × AssetRow → Bool
  | 0, row => covers row.1 path
  | depth + 1, row =>
      covers row.1 path || assets.rows.entries.any fun parent =>
        decide (row.2.2.parentId = some parent.2.1) && cascades assets path depth parent

/-- The rows that a delete of the path takes. -/
def goes (assets : AssetTable) (path : Str) (row : Str × Nat × AssetRow) : Bool :=
  cascades assets path assets.rows.entries.length row

/-- The identities of these rows. -/
def gone (assets : AssetTable) (path : Str) : List Nat :=
  (assets.rows.entries.filter (goes assets path)).map fun row => row.2.1

/-- `delete_asset`, with the actions of the foreign keys. -/
def AssetModel.deleteAsset (m : AssetModel) (path : Str) : AssetModel :=
  { m with
    assets := m.assets.filter fun key row => !goes m.assets path (key, row)
    roots := m.roots.filter fun root => decide (root.2 ∉ gone m.assets path)
    definitions := m.definitions.filter fun definition =>
      definition.1.all fun id => decide (id ∉ gone m.assets path)
    tags := m.tags.map fun tag => (tag.1, tag.2.filter fun id => decide (id ∉ gone m.assets path)) }

/-! ## Access Groups -/

/-- `str.isspace` of one code point. -/
def whitespace (c : Nat) : Bool :=
  decide (9 ≤ c ∧ c ≤ 13 ∨ 28 ≤ c ∧ c ≤ 32 ∨ c = 133 ∨ c = 160 ∨ c = 5760 ∨ 8192 ≤ c ∧ c ≤ 8202 ∨
    c = 8232 ∨ c = 8233 ∨ c = 8239 ∨ c = 8287 ∨ c = 12288)

/-- `str.strip`. -/
def strip (s : Str) : Str := ((s.dropWhile whitespace).reverse.dropWhile whitespace).reverse

/-- `validate_group_save` with one root. -/
def validateGroupSave (name : Str) : Option Str := if strip name = [] then none else some (strip name)

/-- One Area of `upsert_area_groups`: the group of its name has this root only. -/
def AssetModel.upsertAreaGroup (m : AssetModel) (area : Nat × AssetRow) : Option (AssetModel × Nat) :=
  (validateGroupSave area.2.segment).bind fun name =>
    (m.groups.upsert? name () id).bind fun groups =>
      (groups.find? name).map fun group =>
        ({ m with
            groups := groups
            roots := m.roots.filter (fun root => root.1 ≠ group.1) ++ [(group.1, area.1)] },
          group.1)

/-- `upsert_area_groups`, with the groups in order and the segment of each one's root. -/
def AssetModel.upsertAreaGroups : AssetModel → List (Nat × AssetRow) → Option (AssetModel × List (Nat × Str))
  | m, [] => some (m, [])
  | m, area :: areas =>
      (m.upsertAreaGroup area).bind fun saved =>
        (saved.1.upsertAreaGroups areas).map fun rest => (rest.1, (saved.2, area.2.segment) :: rest.2)

def demoEngineer : Str := lit "00000000-0000-4000-a000-000000000002"
def demoOperator : Str := lit "00000000-0000-4000-a000-000000000003"
def demoAuditor : Str := lit "00000000-0000-4000-a000-000000000004"
def demoViewer : Str := lit "00000000-0000-4000-a000-000000000005"

def operatorAreaSegment : Str := lit "Filtration"
def viewerAreaSegment : Str := lit "Distribution"

/-- The demo subjects of a group. -/
def demoSubjects (segment : Str) : List Str :=
  [demoEngineer, demoAuditor] ++ (if segment = operatorAreaSegment then [demoOperator] else []) ++
    (if segment = viewerAreaSegment then [demoViewer] else [])

/-- `apply_demo_membership`: rows that are there stay. -/
def AssetModel.applyDemoMembership (m : AssetModel) (groups : List (Nat × Str)) : AssetModel :=
  { m with
    members := groups.foldl
      (fun members group => (demoSubjects group.2).foldl
        (fun members subject =>
          if (group.1, subject) ∈ members then members else members ++ [(group.1, subject)]) members)
      m.members }

/-! ## What an upsert keeps -/

/-- A parent is there, above its children. -/
def ParentsAbove (assets : AssetTable) : Prop :=
  ∀ path row, assets.find? path = some row → ∀ id, row.2.parentId = some id →
    ∃ above parent, assets.find? above = some parent ∧ parent.1 = id ∧ covers path above = true

/-- Every Asset keeps its path and identity, its segment and whether it is active; only the given
paths are written. -/
structure Extends (paths : List Str) (before after : AssetTable) : Prop where
  kept : ∀ path row, before.find? path = some row → ∃ row', after.find? path = some row' ∧
    row'.1 = row.1 ∧ row'.2.segment = row.2.segment ∧ row'.2.active = row.2.active
  others : ∀ path, path ∉ paths → after.find? path = before.find? path

theorem Extends.refl (assets : AssetTable) : Extends [] assets assets :=
  ⟨fun _ row h => ⟨row, h, rfl, rfl, rfl⟩, fun _ _ => rfl⟩

theorem Extends.trans {ps qs : List Str} {a b c : AssetTable} (h : Extends ps a b)
    (h' : Extends qs b c) : Extends (ps ++ qs) a c := by
  refine ⟨fun path row hrow => ?_, fun path hpath => ?_⟩
  · obtain ⟨row', hrow', hid, hsegment, hactive⟩ := h.kept path row hrow
    obtain ⟨row'', hrow'', hid', hsegment', hactive'⟩ := h'.kept path row' hrow'
    exact ⟨row'', hrow'', hid'.trans hid, hsegment'.trans hsegment, hactive'.trans hactive⟩
  · rw [List.mem_append, not_or] at hpath
    exact (h'.others path hpath.2).trans (h.others path hpath.1)

/-- One level of a branch. -/
theorem extends_upsert {assets after : AssetTable} {path : Str} {row : AssetRow}
    {merge : AssetRow → AssetRow} (hmerge : ∀ row, (merge row).segment = row.segment ∧
      (merge row).active = row.active)
    (h : assets.upsert? path row merge = some after) : Extends [path] assets after := by
  obtain ⟨⟨id, hpath, hid⟩, -, hothers⟩ := Table.find?_upsert? h
  refine ⟨fun p r hr => ?_, fun p hp => hothers p (fun heq => hp (heq ▸ List.mem_cons_self))⟩
  by_cases heq : p = path
  · subst heq
    rw [hr] at hpath
    exact ⟨_, hpath, (hid r hr).symm, hmerge r.2⟩
  · exact ⟨r, (hothers p heq).trans hr, rfl, rfl, rfl⟩

theorem extends_ensureBranch {specs : List AssetSpec} {assets after : AssetTable}
    {parentId : Option Nat} {above : List Str}
    (h : ensureBranch assets parentId above specs = some after) :
    Extends (branchPaths above specs) assets after := by
  induction specs generalizing assets parentId above with
  | nil =>
      cases h
      exact .refl _
  | cons spec specs ih =>
      obtain ⟨mid, hupsert, hrest⟩ := Option.bind_eq_some_iff.mp h
      refine (extends_upsert ?_ hupsert).trans (ih hrest)
      exact fun _ => ⟨rfl, rfl⟩

/-- The parent that a branch goes on from. -/
def IsParent (assets : AssetTable) (parentId : Option Nat) (above : List Str) : Prop :=
  ∀ id, parentId = some id → above ≠ [] ∧ ∃ row, assets.find? (joinSlash above) = some row ∧ row.1 = id

theorem covers_joinSlash {above : List Str} (h : above ≠ []) (segment : Str) :
    covers (joinSlash (above ++ [segment])) (joinSlash above) = true := by
  rw [joinSlash_append h (List.cons_ne_nil _ _)]
  exact covers_cases.mpr (.inr ⟨_, rfl⟩)

theorem parentsAbove_upsert {assets after : AssetTable} {parentId : Option Nat} {above : List Str}
    {spec : AssetSpec} (h : ParentsAbove assets) (hparent : IsParent assets parentId above)
    (hupsert : assets.upsert? (joinSlash (above ++ [spec.segment]))
      ⟨parentId, spec.segment, spec.level, true⟩
      (fun row => { row with level := spec.level, parentId := parentId }) = some after) :
    ParentsAbove after := by
  have hextends : Extends [joinSlash (above ++ [spec.segment])] assets after := by
    refine extends_upsert ?_ hupsert
    exact fun _ => ⟨rfl, rfl⟩
  obtain ⟨⟨id, hwritten, -⟩, -, -⟩ := Table.find?_upsert? hupsert
  intro path row hrow pid hpid
  have hold : ∃ up parent, assets.find? up = some parent ∧ parent.1 = pid ∧ covers path up = true := by
    by_cases hpath : path = joinSlash (above ++ [spec.segment])
    · subst hpath
      rw [hwritten] at hrow
      cases hrow
      have hrowParent : parentId = some pid := by
        rw [← hpid]
        cases assets.find? (joinSlash (above ++ [spec.segment])) <;> rfl
      obtain ⟨hne, parent, hfind, hid⟩ := hparent pid hrowParent
      exact ⟨joinSlash above, parent, hfind, hid, covers_joinSlash hne _⟩
    · rw [hextends.others path (by rwa [List.mem_singleton])] at hrow
      exact h path row hrow pid hpid
  obtain ⟨up, parent, hfind, hid, hcovers⟩ := hold
  obtain ⟨parent', hfind', hid', -, -⟩ := hextends.kept up parent hfind
  exact ⟨up, parent', hfind', hid'.trans hid, hcovers⟩

theorem parentsAbove_ensureBranch {specs : List AssetSpec} {assets after : AssetTable}
    {parentId : Option Nat} {above : List Str} (h : ParentsAbove assets)
    (hparent : IsParent assets parentId above)
    (hbranch : ensureBranch assets parentId above specs = some after) : ParentsAbove after := by
  induction specs generalizing assets parentId above with
  | nil =>
      cases hbranch
      exact h
  | cons spec specs ih =>
      obtain ⟨mid, hupsert, hrest⟩ := Option.bind_eq_some_iff.mp hbranch
      refine ih (parentsAbove_upsert h hparent hupsert) ?_ hrest
      intro id hid
      obtain ⟨row, hrow, rfl⟩ := Option.map_eq_some_iff.mp hid
      exact ⟨List.append_ne_nil_of_right_ne_nil _ (List.cons_ne_nil _ _), row, hrow, rfl⟩

/-! ## What a delete takes -/

theorem covers_trans {a b c : Str} (h : covers a b = true) (h' : covers b c = true) :
    covers a c = true := covers_iff.mpr ((covers_iff.mp h').trans (covers_iff.mp h))

/-- Where parents are above their children, a delete takes what is at or below the path. -/
theorem goes_iff {assets : AssetTable} (h : ParentsAbove assets) {path : Str}
    {row : Str × Nat × AssetRow} (hrow : row ∈ assets.rows.entries) :
    goes assets path row = true ↔ covers row.1 path = true := by
  have hall : ∀ depth, ∀ row ∈ assets.rows.entries,
      cascades assets path depth row = true ↔ covers row.1 path = true := by
    intro depth
    induction depth with
    | zero => exact fun _ _ => Iff.rfl
    | succ depth ih =>
        intro row hrow
        rw [cascades, Bool.or_eq_true, List.any_eq_true]
        refine ⟨?_, .inl⟩
        rintro (hcovers | ⟨parent, hparent, hup⟩)
        · exact hcovers
        · rw [Bool.and_eq_true, decide_eq_true_iff] at hup
          obtain ⟨above, found, hfound, hid, hcovers⟩ :=
            h row.1 row.2 (Dict.get?_of_mem hrow) _ hup.1
          have hsame : above = parent.1 :=
            Table.key_of_id hfound (Dict.get?_of_mem hparent) hid
          rw [hsame] at hcovers
          exact covers_trans hcovers ((ih parent hparent).mp hup.2)
  exact hall _ row hrow

theorem mem_gone {assets : AssetTable} (h : ParentsAbove assets) {path : Str} {id : Nat} :
    id ∈ gone assets path ↔
      ∃ key row, assets.find? key = some (id, row) ∧ covers key path = true := by
  rw [gone, List.mem_map]
  constructor
  · rintro ⟨row, hrow, rfl⟩
    obtain ⟨hmem, hgoes⟩ := List.mem_filter.mp hrow
    exact ⟨row.1, row.2.2, Dict.get?_of_mem hmem, (goes_iff h hmem).mp hgoes⟩
  · rintro ⟨key, row, hfind, hcovers⟩
    have hmem := Dict.mem_of_get? hfind
    exact ⟨(key, id, row), List.mem_filter.mpr ⟨hmem, (goes_iff h hmem).mpr hcovers⟩, rfl⟩

theorem find?_deleteAsset {m : AssetModel} (h : ParentsAbove m.assets) (path key : Str) :
    (m.deleteAsset path).assets.find? key =
      if covers key path = true then none else m.assets.find? key := by
  have hfilter : (m.deleteAsset path).assets.find? key =
      (m.assets.find? key).filter fun row => !goes m.assets path (key, row) :=
    Table.find?_filter key
  rw [hfilter]
  cases hfind : m.assets.find? key with
  | none =>
      rw [Option.filter_none]
      split <;> rfl
  | some row =>
      have hiff : goes m.assets path (key, row) = true ↔ covers key path = true :=
        goes_iff h (Dict.mem_of_get? hfind)
      by_cases hcovers : covers key path = true
      · rw [if_pos hcovers, Option.filter_some, hiff.mpr hcovers]
        rfl
      · rw [if_neg hcovers, Option.filter_some, (Bool.not_eq_true _).mp fun hgoes => hcovers (hiff.mp hgoes)]
        rfl

theorem parentsAbove_deleteAsset {m : AssetModel} (h : ParentsAbove m.assets) (path : Str) :
    ParentsAbove (m.deleteAsset path).assets := by
  intro key row hrow id hid
  rw [find?_deleteAsset h] at hrow
  split at hrow
  · cases hrow
  · rename_i hkept
    obtain ⟨above, parent, hfind, hpid, hcovers⟩ := h key row hrow id hid
    refine ⟨above, parent, ?_, hpid, hcovers⟩
    rw [find?_deleteAsset h, if_neg (fun hup => hkept (covers_trans hcovers hup))]
    exact hfind

/-- The Asset is at or below one of the paths. -/
def Lost (assets : AssetTable) (paths : List Str) (id : Nat) : Prop :=
  ∃ key row, assets.find? key = some (id, row) ∧ paths.any (covers key) = true

/-- The Assets at or below the paths are deleted, and what refers to them lets go. -/
structure Deleted (paths : List Str) (m m' : AssetModel) : Prop where
  assets : ∀ key, m'.assets.find? key =
    if paths.any (covers key) = true then none else m.assets.find? key
  parents : ParentsAbove m'.assets
  groups : m'.groups = m.groups
  members : m'.members = m.members
  roots : ∀ root, root ∈ m'.roots ↔ root ∈ m.roots ∧ ¬ Lost m.assets paths root.2
  definitions : ∀ id key, (some id, key) ∈ m'.definitions ↔
    (some id, key) ∈ m.definitions ∧ ¬ Lost m.assets paths id
  tags : ∀ key id, (key, some id) ∈ m'.tags ↔ (key, some id) ∈ m.tags ∧ ¬ Lost m.assets paths id

theorem deleted_nil {m : AssetModel} (h : ParentsAbove m.assets) : Deleted [] m m := by
  have hlost : ∀ id, ¬ Lost m.assets [] id := fun _ ⟨_, _, _, hany⟩ => (nomatch hany)
  exact ⟨fun _ => rfl, h, rfl, rfl, fun root => ⟨fun hr => ⟨hr, hlost _⟩, And.left⟩,
    fun id _ => ⟨fun hd => ⟨hd, hlost id⟩, And.left⟩, fun _ id => ⟨fun ht => ⟨ht, hlost id⟩, And.left⟩⟩

theorem lost_singleton {assets : AssetTable} (h : ParentsAbove assets) {path : Str} {id : Nat} :
    Lost assets [path] id ↔ id ∈ gone assets path := by
  rw [mem_gone h, Lost]
  simp only [List.any_cons, List.any_nil, Bool.or_false]

theorem deleted_deleteAsset {m : AssetModel} (h : ParentsAbove m.assets) (path : Str) :
    Deleted [path] m (m.deleteAsset path) where
  assets key := by
    rw [find?_deleteAsset h, List.any_cons, List.any_nil, Bool.or_false]
  parents := parentsAbove_deleteAsset h path
  groups := rfl
  members := rfl
  roots root := by
    rw [lost_singleton h, AssetModel.deleteAsset, List.mem_filter, decide_eq_true_iff]
  definitions id key := by
    rw [lost_singleton h, AssetModel.deleteAsset, List.mem_filter, Option.all_some,
      decide_eq_true_iff]
  tags key id := by
    rw [lost_singleton h, AssetModel.deleteAsset, List.mem_map]
    constructor
    · rintro ⟨tag, htag, heq⟩
      obtain ⟨hkey, hid⟩ := Prod.mk.inj heq
      obtain ⟨hsome, hkept⟩ := Option.filter_eq_some_iff.mp hid
      exact ⟨by rw [← hkey, ← hsome]; exact htag, of_decide_eq_true hkept⟩
    · rintro ⟨htag, hkept⟩
      exact ⟨_, htag, by rw [Option.filter_some, decide_eq_true hkept]; rfl⟩

/-- What the later paths take of what the first left. -/
theorem lost_cons {m m' : AssetModel} {path : Str} (paths : List Str) (h : Deleted [path] m m')
    (id : Nat) :
    ¬ Lost m.assets (path :: paths) id ↔ ¬ Lost m.assets [path] id ∧ ¬ Lost m'.assets paths id := by
  rw [← not_or, not_iff_not]
  constructor
  · rintro ⟨key, row, hfind, hany⟩
    by_cases hfirst : [path].any (covers key) = true
    · exact .inl ⟨key, row, hfind, hfirst⟩
    · rw [List.any_cons, Bool.or_eq_true] at hany
      refine .inr ⟨key, row, ?_, hany.resolve_left fun hcovers => hfirst ?_⟩
      · rw [h.assets, if_neg hfirst]
        exact hfind
      · rw [List.any_cons, hcovers, Bool.true_or]
  · rintro (⟨key, row, hfind, hany⟩ | ⟨key, row, hfind, hany⟩)
    · rw [List.any_cons, List.any_nil, Bool.or_false] at hany
      exact ⟨key, row, hfind, by rw [List.any_cons, hany, Bool.true_or]⟩
    · rw [h.assets] at hfind
      split at hfind
      · cases hfind
      · exact ⟨key, row, hfind, by rw [List.any_cons, hany, Bool.or_true]⟩

/-- One delete after another. -/
theorem deleted_foldl (paths : List Str) {m : AssetModel} (h : ParentsAbove m.assets) :
    Deleted paths m (paths.foldl AssetModel.deleteAsset m) := by
  induction paths generalizing m with
  | nil => exact deleted_nil h
  | cons path paths ih =>
      have hfirst := deleted_deleteAsset h path
      have hrest := ih hfirst.parents
      rw [List.foldl_cons]
      refine ⟨fun key => ?_, hrest.parents, hrest.groups, hrest.members, fun root => ?_,
        fun id key => ?_, fun key id => ?_⟩
      · rw [hrest.assets, hfirst.assets]
        have hcons : (path :: paths).any (covers key) = true ↔
            [path].any (covers key) = true ∨ paths.any (covers key) = true := by
          rw [List.any_cons, List.any_cons, List.any_nil, Bool.or_false, Bool.or_eq_true]
        by_cases hhere : [path].any (covers key) = true
        · rw [if_pos hhere, ite_self, if_pos (hcons.mpr (.inl hhere))]
        · rw [if_neg hhere]
          by_cases hlater : paths.any (covers key) = true
          · rw [if_pos hlater, if_pos (hcons.mpr (.inr hlater))]
          · rw [if_neg hlater, if_neg fun h => (hcons.mp h).elim hhere hlater]
      · rw [hrest.roots, hfirst.roots, lost_cons paths hfirst, and_assoc]
      · rw [hrest.definitions, hfirst.definitions, lost_cons paths hfirst, and_assoc]
      · rw [hrest.tags, hfirst.tags, lost_cons paths hfirst, and_assoc]

/-! ## What the Area groups leave alone -/

/-- Groups of other names keep their identity, roots and members. -/
structure Seeded (names : List Str) (m m' : AssetModel) : Prop where
  assets : m'.assets = m.assets
  definitions : m'.definitions = m.definitions
  tags : m'.tags = m.tags
  groups : ∀ name group, m.groups.find? name = some group →
    ∃ group', m'.groups.find? name = some group' ∧ group'.1 = group.1
  others : ∀ name, name ∉ names → m'.groups.find? name = m.groups.find? name
  roots : ∀ name group, name ∉ names → m.groups.find? name = some group →
    ∀ id, (group.1, id) ∈ m'.roots ↔ (group.1, id) ∈ m.roots
  members : ∀ name group, name ∉ names → m.groups.find? name = some group →
    ∀ subject, (group.1, subject) ∈ m'.members ↔ (group.1, subject) ∈ m.members

theorem Seeded.refl (names : List Str) (m : AssetModel) : Seeded names m m :=
  ⟨rfl, rfl, rfl, fun _ group h => ⟨group, h, rfl⟩, fun _ _ => rfl, fun _ _ _ _ _ => Iff.rfl,
    fun _ _ _ _ _ => Iff.rfl⟩

theorem Seeded.trans {names : List Str} {a b c : AssetModel} (h : Seeded names a b)
    (h' : Seeded names b c) : Seeded names a c where
  assets := h'.assets.trans h.assets
  definitions := h'.definitions.trans h.definitions
  tags := h'.tags.trans h.tags
  groups name group hgroup := by
    obtain ⟨group', hgroup', hid⟩ := h.groups name group hgroup
    obtain ⟨group'', hgroup'', hid'⟩ := h'.groups name group' hgroup'
    exact ⟨group'', hgroup'', hid'.trans hid⟩
  others name hname := (h'.others name hname).trans (h.others name hname)
  roots name group hname hgroup id :=
    (h'.roots name group hname ((h.others name hname).trans hgroup) id).trans
      (h.roots name group hname hgroup id)
  members name group hname hgroup subject :=
    (h'.members name group hname ((h.others name hname).trans hgroup) subject).trans
      (h.members name group hname hgroup subject)

/-- A group of one of the names. -/
def Named (names : List Str) (m : AssetModel) (id : Nat) : Prop :=
  ∃ name ∈ names, ∃ group, m.groups.find? name = some group ∧ group.1 = id

theorem Named.seeded {names : List Str} {m m' : AssetModel} {id : Nat} (h : Named names m id)
    (hseeded : Seeded names m m') : Named names m' id := by
  obtain ⟨name, hname, group, hgroup, rfl⟩ := h
  obtain ⟨group', hgroup', hid⟩ := hseeded.groups name group hgroup
  exact ⟨name, hname, group', hgroup', hid⟩

/-- Another name is another group. -/
theorem Named.ne {names : List Str} {m : AssetModel} {id : Nat} (h : Named names m id) {name : Str}
    {group : Nat × Unit} (hname : name ∉ names) (hgroup : m.groups.find? name = some group) :
    group.1 ≠ id := by
  obtain ⟨seeded, hseeded, found, hfound, rfl⟩ := h
  intro heq
  exact hname (Table.key_of_id hgroup hfound heq ▸ hseeded)

theorem seeded_upsertAreaGroup {names : List Str} {m : AssetModel} {area : Nat × AssetRow}
    {saved : AssetModel × Nat} (harea : strip area.2.segment ∈ names)
    (h : m.upsertAreaGroup area = some saved) :
    Seeded names m saved.1 ∧ Named names saved.1 saved.2 := by
  obtain ⟨name, hvalid, h⟩ := Option.bind_eq_some_iff.mp h
  obtain ⟨groups, hupsert, h⟩ := Option.bind_eq_some_iff.mp h
  obtain ⟨group, hgroup, rfl⟩ := Option.map_eq_some_iff.mp h
  have hname : name = strip area.2.segment := by
    rw [validateGroupSave] at hvalid
    split at hvalid
    · cases hvalid
    · exact (Option.some.inj hvalid).symm
  have hmem : name ∈ names := hname ▸ harea
  obtain ⟨⟨id, hsaved, hid⟩, -, hothers⟩ := Table.find?_upsert? hupsert
  have hother : ∀ other, other ∉ names → groups.find? other = m.groups.find? other :=
    fun other hout => hothers other fun heq => hout (heq ▸ hmem)
  have hnamed : Named names ⟨m.assets, groups, m.roots, m.members, m.definitions, m.tags⟩ group.1 :=
    ⟨name, hmem, group, hgroup, rfl⟩
  refine ⟨⟨rfl, rfl, rfl, ?_, hother, ?_, fun _ _ _ _ _ => Iff.rfl⟩, name, hmem, group, hgroup, rfl⟩
  · intro found row hfound
    by_cases heq : found = name
    · subst heq
      exact ⟨_, hsaved, (hid row hfound).symm⟩
    · exact ⟨row, (hothers found heq).trans hfound, rfl⟩
  · intro other row hout hrow id'
    have hne : row.1 ≠ group.1 := hnamed.ne hout ((hother other hout).trans hrow)
    rw [List.mem_append, List.mem_filter, List.mem_singleton, decide_eq_true_iff]
    constructor
    · rintro (⟨hroot, -⟩ | heq)
      · exact hroot
      · exact absurd (congrArg Prod.fst heq) hne
    · exact fun hroot => .inl ⟨hroot, hne⟩

theorem seeded_upsertAreaGroups {names : List Str} {areas : List (Nat × AssetRow)} {m : AssetModel}
    {saved : AssetModel × List (Nat × Str)} (hareas : ∀ area ∈ areas, strip area.2.segment ∈ names)
    (h : m.upsertAreaGroups areas = some saved) :
    Seeded names m saved.1 ∧ ∀ group ∈ saved.2, Named names saved.1 group.1 := by
  induction areas generalizing m saved with
  | nil =>
      cases h
      exact ⟨.refl _ _, fun _ hgroup => (nomatch hgroup)⟩
  | cons area areas ih =>
      obtain ⟨harea, hrest⟩ := List.forall_mem_cons.mp hareas
      obtain ⟨first, hfirst, h⟩ := Option.bind_eq_some_iff.mp h
      obtain ⟨rest, hareas', rfl⟩ := Option.map_eq_some_iff.mp h
      obtain ⟨hseeded, hnamed⟩ := seeded_upsertAreaGroup harea hfirst
      obtain ⟨hseeded', hnamed'⟩ := ih hrest hareas'
      exact ⟨hseeded.trans hseeded', List.forall_mem_cons.mpr ⟨hnamed.seeded hseeded', hnamed'⟩⟩

/-- Rows are added for the groups only. -/
theorem mem_addMembers {groups : List (Nat × Str)} {members : List (Nat × Str)} {id : Nat}
    {subject : Str} (h : ∀ group ∈ groups, id ≠ group.1) :
    (id, subject) ∈ groups.foldl
        (fun members group => (demoSubjects group.2).foldl
          (fun members subject =>
            if (group.1, subject) ∈ members then members else members ++ [(group.1, subject)])
          members)
        members ↔ (id, subject) ∈ members := by
  have hone : ∀ (group : Nat × Str), id ≠ group.1 → ∀ (subjects : List Str) (members : List (Nat × Str)),
      (id, subject) ∈ subjects.foldl
        (fun members subject =>
          if (group.1, subject) ∈ members then members else members ++ [(group.1, subject)]) members ↔
      (id, subject) ∈ members := by
    intro group hne subjects
    induction subjects with
    | nil => exact fun _ => Iff.rfl
    | cons added subjects ih =>
        intro members
        rw [List.foldl_cons, ih]
        split
        · exact Iff.rfl
        · rw [List.mem_append, List.mem_singleton]
          exact or_iff_left fun heq => hne (congrArg Prod.fst heq)
  induction groups generalizing members with
  | nil => exact Iff.rfl
  | cons group groups ih =>
      obtain ⟨hgroup, hrest⟩ := List.forall_mem_cons.mp h
      exact (ih hrest).trans (hone group hgroup _ _)

theorem seeded_applyDemoMembership {names : List Str} {m : AssetModel} {groups : List (Nat × Str)}
    (h : ∀ group ∈ groups, Named names m group.1) :
    Seeded names m (m.applyDemoMembership groups) where
  assets := rfl
  definitions := rfl
  tags := rfl
  groups _ group hgroup := ⟨group, hgroup, rfl⟩
  others _ _ := rfl
  roots _ _ _ _ _ := Iff.rfl
  members _ _ hname hgroup _ := mem_addMembers fun group hmem => (h group hmem).ne hname hgroup

end Uns.Model
