/-
# `Graphql.Reseed` — renamed prefixes and the Asset tables

`_reseed` of `mutations/hierarchy.py`: the only step of a save that writes the Assets, and
it is not told of the renames.  An Asset of a renamed prefix is pruned and a new one is
inserted at the new path, so access follows an accepted batch exactly when the batch renames
nothing and the pruning takes nothing that is needed (`access_follows_iff`).
-/
import UnifiedNamespace.Graphql.Migrate
import UnifiedNamespace.Model.Seed

namespace Uns.Graphql

open Py Lib Model

/-- `_reseed`, with the machines that the settings give. -/
def reseed (tree : HierarchyTree) (machines : List (Str × List Str)) (m : AssetModel) :
    Option AssetModel :=
  m.applyPlan (planFromHierarchyTree tree machines)

/-- `root_paths_for_subject`, through the groups of other names. -/
def rootPaths (names : List Str) (m : AssetModel) (subject : Str) : Set Str :=
  {path | ∃ name group row, name ∉ names ∧ m.groups.find? name = some group ∧
    (group.1, subject) ∈ m.members ∧ (group.1, row.1) ∈ m.roots ∧ m.assets.find? path = some row}

/-- An Asset keeps its identity at the rewritten path, and what refers to it follows. -/
structure AccessFollows (names : List Str) (renames : List PrefixRename) (m m' : AssetModel) :
    Prop where
  assets : ∀ r ∈ renames, ∀ path row, m.assets.find? path = some row →
    covers path r.oldPrefix = true →
      ∃ row', m'.assets.find? (rewriteTopic r.oldPrefix r.newPrefix path) = some row' ∧ row'.1 = row.1
  roots : ∀ subject, rootPaths names m' subject = rewriteTopics renames '' rootPaths names m subject
  definitions : ∀ id key, (some id, key) ∈ m.definitions → (some id, key) ∈ m'.definitions
  tags : ∀ key id, (key, some id) ∈ m.tags → (key, some id) ∈ m'.tags

/-- What the pruning must not take. -/
inductive Needed (names : List Str) (renames : List PrefixRename) (m : AssetModel) (path : Str)
    (id : Nat) : Prop where
  | renamed (r : PrefixRename) : r ∈ renames → covers path r.oldPrefix = true →
      Needed names renames m path id
  | root (name : Str) (group : Nat × Unit) (subject : Str) : name ∉ names →
      m.groups.find? name = some group → (group.1, subject) ∈ m.members → (group.1, id) ∈ m.roots →
      Needed names renames m path id
  | definition (key : Str) : (some id, key) ∈ m.definitions → Needed names renames m path id
  | tag (key : Str × Str) : (key, some id) ∈ m.tags → Needed names renames m path id

theorem rewriteTopic_same (p topic : Str) : rewriteTopic p p topic = topic := by
  rw [rewriteTopic]
  split
  · rename_i hcovers
    rcases covers_cases.mp hcovers with rfl | ⟨rest, rfl⟩
    · rw [List.drop_length, List.append_nil]
    · rw [List.drop_left]
  · rfl

theorem rewriteTopics_same {renames : List PrefixRename}
    (h : ∀ r ∈ renames, r.oldPrefix = r.newPrefix) : rewriteTopics renames = id := by
  funext topic
  induction renames generalizing topic with
  | nil => rfl
  | cons r renames ih =>
      obtain ⟨hr, hrest⟩ := List.forall_mem_cons.mp h
      have hhead : rewriteTopics (r :: renames) topic =
          rewriteTopics renames (rewriteTopic r.oldPrefix r.newPrefix topic) := rfl
      rw [hhead, ih hrest, hr, rewriteTopic_same]

section

variable {tree previous : HierarchyTree} {renames : List PrefixRename}
  {machines : List (Str × List Str)} {m m' : AssetModel}

/-- The root paths of before that are not pruned. -/
theorem mem_rootPaths (h : Applied (planFromHierarchyTree tree machines) (areaGroupNames tree m) m m')
    {subject path : Str} (hpath : ∃ row, m.assets.find? path = some row) :
    path ∈ rootPaths (areaGroupNames tree m) m' subject ↔
      path ∈ rootPaths (areaGroupNames tree m) m subject ∧
        ¬ (planFromHierarchyTree tree machines).Prunes m.assets path := by
  obtain ⟨row, hrow⟩ := hpath
  constructor
  · rintro ⟨name, group, row', hname, hgroup, hmember, hroot, hfind⟩
    have hprunes : ¬ (planFromHierarchyTree tree machines).Prunes m.assets path := by
      intro hprunes
      rw [h.pruned path hprunes] at hfind
      cases hfind
    obtain ⟨row'', hfind', hid⟩ := h.kept path row hrow hprunes
    rw [hfind] at hfind'
    cases hfind'
    rw [h.groups name hname] at hgroup
    rw [h.members name group hname hgroup] at hmember
    rw [hid, h.roots name group hname hgroup path row hrow] at hroot
    exact ⟨⟨name, group, row, hname, hgroup, hmember, hroot.1, hrow⟩, hprunes⟩
  · rintro ⟨⟨name, group, found, hname, hgroup, hmember, hroot, hfind⟩, hprunes⟩
    obtain ⟨row', hfind', hid⟩ := h.kept path found hfind hprunes
    refine ⟨name, group, row', hname, (h.groups name hname).trans hgroup,
      (h.members name group hname hgroup subject).mpr hmember, ?_, hfind'⟩
    rw [hid, h.roots name group hname hgroup path found hfind, prunesId_iff hfind]
    exact ⟨hroot, hprunes⟩

/-- A granted Asset goes to no path that it was not at. -/
theorem rootPaths_before (hm : m.Sound)
    (h : Applied (planFromHierarchyTree tree machines) (areaGroupNames tree m) m m')
    {subject path : Str} (hpath : path ∈ rootPaths (areaGroupNames tree m) m' subject) :
    ∃ row, m.assets.find? path = some row := by
  obtain ⟨name, group, row', hname, hgroup, -, hroot, hfind⟩ := hpath
  rw [h.groups name hname] at hgroup
  obtain ⟨path', row, hrow, hid⟩ := hm.roots _ (h.given name group hname hgroup _ hroot)
  rw [h.path path' row path row' hrow hfind hid.symm]
  exact ⟨row, hrow⟩

theorem mem_of_rootPaths {names : List Str} {subject path : Str}
    (h : path ∈ rootPaths names m subject) : ∃ row, m.assets.find? path = some row := by
  obtain ⟨_, _, row, _, _, _, _, hfind⟩ := h
  exact ⟨row, hfind⟩

/-- When a batch renames nothing, access follows exactly when the pruning takes nothing needed. -/
theorem accessFollows_of_kept (hm : m.Sound)
    (h : Applied (planFromHierarchyTree tree machines) (areaGroupNames tree m) m m')
    (hsame : ∀ r ∈ renames, r.oldPrefix = r.newPrefix)
    (hkept : ∀ path row, m.assets.find? path = some row →
      (planFromHierarchyTree tree machines).Prunes m.assets path →
        ¬ Needed (areaGroupNames tree m) renames m path row.1) :
    AccessFollows (areaGroupNames tree m) renames m m' where
  assets r hr path row hrow hcovers := by
    rw [hsame r hr, rewriteTopic_same]
    exact h.kept path row hrow fun hprunes => hkept path row hrow hprunes (.renamed r hr hcovers)
  roots subject := by
    rw [rewriteTopics_same hsame, Set.image_id]
    ext path
    constructor
    · exact fun hpath => ((mem_rootPaths h (rootPaths_before hm h hpath)).mp hpath).1
    · intro hpath
      refine (mem_rootPaths h (mem_of_rootPaths hpath)).mpr ⟨hpath, fun hprunes => ?_⟩
      obtain ⟨name, group, row, hname, hgroup, hmember, hroot, hfind⟩ := hpath
      exact hkept path row hfind hprunes (.root name group subject hname hgroup hmember hroot)
  definitions id key hmem := by
    obtain ⟨path, row, hrow, rfl⟩ := hm.definitions id key hmem
    refine (h.definitions key path row hrow).mpr ⟨hmem, fun hprunes => ?_⟩
    exact hkept path row hrow ((prunesId_iff hrow).mp hprunes) (.definition key hmem)
  tags key id hmem := by
    obtain ⟨path, row, hrow, rfl⟩ := hm.tags key id hmem
    refine (h.tags key path row hrow).mpr ⟨hmem, fun hprunes => ?_⟩
    exact hkept path row hrow ((prunesId_iff hrow).mp hprunes) (.tag key hmem)

/-- Access follows an accepted batch exactly when the batch renames nothing and no Asset is pruned
that is below a prefix of it, or that a group of another name, a definition or a tag refers to. -/
theorem access_follows_iff (htree : validateTree tree = .ok ())
    (haccepted : validateRenames tree previous renames = .ok ()) (hm : m.Sound)
    (hmirror : ∀ p ∈ allPrefixes previous, ∃ row, m.assets.find? p = some row)
    (hreseed : reseed tree machines m = some m') :
    AccessFollows (areaGroupNames tree m) renames m m' ↔
      (∀ r ∈ renames, r.oldPrefix = r.newPrefix) ∧
        ∀ path row, m.assets.find? path = some row →
          (planFromHierarchyTree tree machines).Prunes m.assets path →
            ¬ Needed (areaGroupNames tree m) renames m path row.1 := by
  have happlied := applied_applyPlan htree hm hreseed
  constructor
  · intro h
    have hsame : ∀ r ∈ renames, r.oldPrefix = r.newPrefix := by
      intro r hr
      obtain ⟨row, hrow⟩ := hmirror _ (validateRenames_each haccepted hr).1
      obtain ⟨row', hrow', hid⟩ := h.assets r hr _ row hrow (covers_iff.mpr (List.prefix_refl _))
      have hmoved : rewriteTopic r.oldPrefix r.newPrefix r.oldPrefix = r.newPrefix := by
        rw [rewriteTopic, if_pos (covers_iff.mpr (List.prefix_refl _)), List.drop_length,
          List.append_nil]
      rw [hmoved] at hrow'
      exact (happlied.path _ row _ row' hrow hrow' hid).symm
    refine ⟨hsame, fun path row hrow hprunes hneeded => ?_⟩
    have hgone := happlied.pruned path hprunes
    have hlost : (planFromHierarchyTree tree machines).PrunesId m.assets row.1 :=
      (prunesId_iff hrow).mpr hprunes
    cases hneeded with
    | renamed r hr hcovers =>
        obtain ⟨row', hrow', -⟩ := h.assets r hr path row hrow hcovers
        rw [hsame r hr, rewriteTopic_same, hgone] at hrow'
        cases hrow'
    | root name group subject hname hgroup hmember hroot =>
        have hbefore : path ∈ rootPaths (areaGroupNames tree m) m subject :=
          ⟨name, group, row, hname, hgroup, hmember, hroot, hrow⟩
        have hafter := h.roots subject
        rw [rewriteTopics_same hsame, Set.image_id] at hafter
        rw [← hafter] at hbefore
        exact ((mem_rootPaths happlied ⟨row, hrow⟩).mp hbefore).2 hprunes
    | definition key hmem =>
        exact ((happlied.definitions key path row hrow).mp (h.definitions _ key hmem)).2 hlost
    | tag key hmem => exact ((happlied.tags key path row hrow).mp (h.tags key _ hmem)).2 hlost
  · rintro ⟨hsame, hkept⟩
    exact accessFollows_of_kept hm happlied hsame hkept

end

/-! ## A renamed site -/

/-- The Assets of a plant of one site. -/
def sampleAssets : AssetTable where
  rows := ⟨[(lit "Acme", 0, ⟨none, lit "Acme", lit "ENTERPRISE", true⟩),
    (lit "Acme/North", 1, ⟨some 0, lit "North", lit "SITE", true⟩)], by decide⟩
  next := 2
  below := by decide
  ids := by decide
  checked := by decide

/-- A subject is in a group with the site as its root. -/
def sampleModel : AssetModel where
  assets := sampleAssets
  groups := ⟨⟨[(lit "Night shift", 0, ())], by decide⟩, 1, by decide, by decide, by decide⟩
  roots := [(0, 1)]
  members := [(0, lit "subject-1")]
  definitions := []
  tags := []

theorem mem_sampleAssets {path : Str} {row : Nat × AssetRow}
    (h : sampleAssets.find? path = some row) : (path, row) ∈ sampleAssets.rows.entries :=
  Dict.mem_of_get? h

theorem sampleModel_sound : sampleModel.Sound where
  parents path row h id hid := by
    have hmem := mem_sampleAssets h
    simp only [sampleAssets, List.mem_cons, List.not_mem_nil, or_false, Prod.mk.injEq] at hmem
    rcases hmem with ⟨rfl, rfl⟩ | ⟨rfl, rfl⟩
    · cases hid
    · cases hid
      exact ⟨lit "Acme", _, rfl, rfl, by decide⟩
  segments path row h := by
    have hall : ∀ e ∈ sampleAssets.rows.entries, separator ∉ e.2.2.segment := by decide
    exact hall _ (mem_sampleAssets h)
  roots root h := by
    rw [sampleModel, List.mem_singleton] at h
    exact ⟨lit "Acme/North", _, rfl, by rw [h]⟩
  definitions _ _ h := nomatch h
  tags _ _ h := nomatch h

theorem sampleModel_mirrors :
    ∀ p ∈ allPrefixes (samplePlant (lit "North")), ∃ row, sampleModel.assets.find? p = some row := by
  have hall : ∀ p ∈ allPrefixes (samplePlant (lit "North")), (sampleModel.assets.find? p).isSome = true := by
    decide
  exact fun p hp => Option.isSome_iff_exists.mp (hall p hp)

/-- The tables after the tree is saved with its site under a name. -/
def reseeded (site : Str) : AssetModel := (reseed (samplePlant site) [] sampleModel).getD sampleModel

theorem reseed_north :
    reseed (samplePlant (lit "North")) [] sampleModel = some (reseeded (lit "North")) := by rfl

theorem reseed_south :
    reseed (samplePlant (lit "South")) [] sampleModel = some (reseeded (lit "South")) := by rfl

/-- The tree saved as it was. -/
theorem north_access_follows :
    AccessFollows (areaGroupNames (samplePlant (lit "North")) sampleModel)
      [⟨lit "Acme/North", lit "Acme/North"⟩] sampleModel (reseeded (lit "North")) := by
  have htree : validateTree (samplePlant (lit "North")) = .ok () := rfl
  have haccepted : validateRenames (samplePlant (lit "North")) (samplePlant (lit "North"))
      [⟨lit "Acme/North", lit "Acme/North"⟩] = .ok () := rfl
  refine (access_follows_iff htree haccepted sampleModel_sound sampleModel_mirrors
    reseed_north).mpr ⟨by decide, ?_⟩
  rintro path row - ⟨key, found, hfind, -, hkey, -⟩
  have hall : ∀ e ∈ sampleAssets.rows.entries,
      e.1 ∈ (planFromHierarchyTree (samplePlant (lit "North")) []).assetPaths := by decide
  exact absurd (hall _ (mem_sampleAssets hfind)) hkey

/-- A renamed site is another Asset, and the group has no root left. -/
theorem renamed_site_loses_access :
    validateTree (samplePlant (lit "South")) = .ok () ∧
      validateRenames (samplePlant (lit "South")) (samplePlant (lit "North"))
        [⟨lit "Acme/North", lit "Acme/South"⟩] = .ok () ∧
      sampleModel.Sound ∧
      (∀ p ∈ allPrefixes (samplePlant (lit "North")), ∃ row, sampleModel.assets.find? p = some row) ∧
      reseed (samplePlant (lit "South")) [] sampleModel = some (reseeded (lit "South")) ∧
      (reseeded (lit "South")).roots = [] ∧
      ¬ AccessFollows (areaGroupNames (samplePlant (lit "South")) sampleModel)
        [⟨lit "Acme/North", lit "Acme/South"⟩] sampleModel (reseeded (lit "South")) := by
  refine ⟨rfl, rfl, sampleModel_sound, sampleModel_mirrors, reseed_south, by decide, fun h => ?_⟩
  obtain ⟨row', hrow', hid⟩ := h.assets ⟨lit "Acme/North", lit "Acme/South"⟩ List.mem_cons_self
    (lit "Acme/North") (1, ⟨some 0, lit "North", lit "SITE", true⟩) rfl (by decide)
  have hnew : ((reseeded (lit "South")).assets.find? (rewriteTopic (lit "Acme/North")
      (lit "Acme/South") (lit "Acme/North"))).map Prod.fst = some 2 := by decide
  rw [hrow', Option.map_some, hid] at hnew
  cases hnew

end Uns.Graphql
