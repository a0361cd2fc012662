/-
# `Model.AreaGroups` — the Access Groups of the Areas

`upsert_area_groups` goes through the Areas, upserts the group of each one's segment and
replaces its roots by this Area.  Segments are unique below one parent only, so the Areas of two
sites can have one group, and the last of them is left in it.  A group that an admin made under
the name is taken over.  `areasCovered_iff`: it works exactly when no name is used twice.
-/
import UnifiedNamespace.Model.Assets

namespace Uns.Model

open Py Lib

/-! ## `upsert_area_groups` with its check of the Assets -/

/-- `_require_assets` of one Asset. -/
def AssetModel.hasAsset (m : AssetModel) (id : Nat) : Bool :=
  m.assets.rows.entries.any fun row => decide (row.2.1 = id)

def AssetModel.saveAreaGroups : AssetModel → List (Nat × AssetRow) → Option (AssetModel × List (Nat × Str))
  | m, [] => some (m, [])
  | m, area :: areas =>
      if m.hasAsset area.1 = true then
        (m.upsertAreaGroup area).bind fun saved =>
          (saved.1.saveAreaGroups areas).map fun rest => (rest.1, (saved.2, area.2.segment) :: rest.2)
      else none

def AssetModel.rootsOf (m : AssetModel) (group : Nat) : List Nat :=
  (m.roots.filter fun root => decide (root.1 = group)).map Prod.snd

def AssetModel.membersOf (m : AssetModel) (group : Nat) : List Str :=
  (m.members.filter fun member => decide (member.1 = group)).map Prod.snd

/-- The name of an Area's group. -/
def groupName (area : Nat × AssetRow) : Str := strip area.2.segment

/-! ## One Area -/

/-- The group of the name has the Area as its root, all others are as before. -/
structure AreaSaved (m m' : AssetModel) (area : Nat × AssetRow) (id : Nat) : Prop where
  assets : m'.assets = m.assets
  members : m'.members = m.members
  group : ∃ row, m'.groups.find? (groupName area) = some row ∧ row.1 = id
  kept : ∀ row, m.groups.find? (groupName area) = some row → row.1 = id
  others : ∀ name, name ≠ groupName area → m'.groups.find? name = m.groups.find? name
  root : m'.rootsOf id = [area.1]
  otherRoots : ∀ other, other ≠ id → m'.rootsOf other = m.rootsOf other

theorem validateGroupSave_of_ne {name : Str} (h : strip name ≠ []) : validateGroupSave name = some (strip name) :=
  if_neg h

theorem areaSaved_upsertAreaGroup {m : AssetModel} {area : Nat × AssetRow} {saved : AssetModel × Nat}
    (h : m.upsertAreaGroup area = some saved) : groupName area ≠ [] ∧ AreaSaved m saved.1 area saved.2 := by
  obtain ⟨name, hvalid, h⟩ := Option.bind_eq_some_iff.mp h
  obtain ⟨groups, hupsert, h⟩ := Option.bind_eq_some_iff.mp h
  obtain ⟨group, hgroup, rfl⟩ := Option.map_eq_some_iff.mp h
  rw [validateGroupSave] at hvalid
  split at hvalid
  · cases hvalid
  rename_i hne
  obtain rfl := Option.some.inj hvalid
  obtain ⟨⟨id, hsaved, hid⟩, -, hothers⟩ := Table.find?_upsert? hupsert
  have hsame : group.1 = id := by
    rw [hsaved] at hgroup
    rw [← Option.some.inj hgroup]
  refine ⟨hne, rfl, rfl, ⟨group, hgroup, rfl⟩, fun row hrow => (hid row hrow).trans hsame.symm, hothers, ?_, ?_⟩
  · rw [AssetModel.rootsOf, List.filter_append, List.filter_filter]
    have hnone : m.roots.filter (fun root => decide (root.1 = group.1) && decide (root.1 ≠ group.1)) = [] :=
      List.filter_eq_nil_iff.mpr fun root _ => by simp
    rw [hnone, List.nil_append, List.filter_singleton]
    simp
  · intro other hother
    rw [AssetModel.rootsOf, AssetModel.rootsOf, List.filter_append, List.filter_filter, List.filter_singleton]
    have hout : decide (group.1 = other) = false := decide_eq_false (Ne.symm hother)
    rw [hout, cond_false, List.append_nil]
    refine congrArg (List.map Prod.snd) (List.filter_congr fun root _ => ?_)
    by_cases hroot : root.1 = other
    · simp [hroot, hother]
    · simp [hroot]

/-- An upsert without check and without columns. -/
theorem upsert?_unchecked (groups : Table Str Unit fun _ _ => true) (name : Str) :
    ∃ after, groups.upsert? name () id = some after := by
  unfold Table.upsert?
  split
  · rename_i hnone
    rw [Table.insert?, dif_pos ⟨hnone, rfl⟩]
    exact ⟨_, rfl⟩
  · rw [if_pos rfl, Table.modify?, dif_pos fun _ _ => rfl]
    exact ⟨_, rfl⟩

theorem upsertAreaGroup_isSome {m : AssetModel} {area : Nat × AssetRow} (h : groupName area ≠ []) :
    ∃ saved, m.upsertAreaGroup area = some saved := by
  obtain ⟨groups, hgroups⟩ := upsert?_unchecked m.groups (groupName area)
  obtain ⟨⟨i, hfind, -⟩, -, -⟩ := Table.find?_upsert? hgroups
  have hbind : m.upsertAreaGroup area = (m.groups.upsert? (groupName area) () id).bind fun groups =>
      (groups.find? (groupName area)).map fun group =>
        ({ m with
            groups := groups
            roots := m.roots.filter (fun root => root.1 ≠ group.1) ++ [(group.1, area.1)] }, group.1) := by
    rw [AssetModel.upsertAreaGroup, validateGroupSave_of_ne h]
    rfl
  rw [hbind, hgroups, Option.bind_some, hfind]
  exact ⟨_, rfl⟩

/-! ## All Areas -/

theorem hasAsset_iff {m : AssetModel} {id : Nat} :
    m.hasAsset id = true ↔ ∃ path row, m.assets.find? path = some row ∧ row.1 = id := by
  rw [AssetModel.hasAsset, List.any_eq_true]
  constructor
  · rintro ⟨row, hrow, hid⟩
    exact ⟨row.1, row.2, Dict.get?_of_mem hrow, of_decide_eq_true hid⟩
  · rintro ⟨path, row, hrow, hid⟩
    exact ⟨(path, row), Dict.mem_of_get? hrow, decide_eq_true hid⟩

/-- After the loop each name's group has the last Area of that name as its root. -/
structure AreasSaved (m m' : AssetModel) (areas : List (Nat × AssetRow)) (returned : List (Nat × Str)) : Prop where
  named : ∀ area ∈ areas, groupName area ≠ []
  members : m'.members = m.members
  kept : ∀ name row, m.groups.find? name = some row → ∃ row', m'.groups.find? name = some row' ∧ row'.1 = row.1
  others : ∀ name, (∀ area ∈ areas, groupName area ≠ name) → m'.groups.find? name = m.groups.find? name
  otherRoots : ∀ name row, (∀ area ∈ areas, groupName area ≠ name) → m.groups.find? name = some row →
    m'.rootsOf row.1 = m.rootsOf row.1
  last : ∀ area ∈ areas, ∃ final ∈ areas, groupName final = groupName area ∧
    ∃ row, m'.groups.find? (groupName area) = some row ∧ m'.rootsOf row.1 = [final.1] ∧ row.1 ∈ returned.map Prod.fst
  returned : ∀ group ∈ returned, ∃ area ∈ areas, ∃ row, m'.groups.find? (groupName area) = some row ∧ row.1 = group.1

theorem areasSaved_saveAreaGroups {areas : List (Nat × AssetRow)} {m : AssetModel}
    {saved : AssetModel × List (Nat × Str)} (h : m.saveAreaGroups areas = some saved) :
    AreasSaved m saved.1 areas saved.2 := by
  induction areas generalizing m saved with
  | nil =>
      cases h
      exact ⟨fun _ ha => absurd ha List.not_mem_nil, rfl, fun _ row hrow => ⟨row, hrow, rfl⟩, fun _ _ => rfl,
        fun _ _ _ _ => rfl, fun _ ha => absurd ha List.not_mem_nil, fun _ hg => absurd hg List.not_mem_nil⟩
  | cons area areas ih =>
      rw [AssetModel.saveAreaGroups] at h
      split at h
      · obtain ⟨first, hfirst, h⟩ := Option.bind_eq_some_iff.mp h
        obtain ⟨rest, hrest, rfl⟩ := Option.map_eq_some_iff.mp h
        obtain ⟨hname, hsaved⟩ := areaSaved_upsertAreaGroup hfirst
        have hlater := ih hrest
        obtain ⟨row, hrow, hid⟩ := hsaved.group
        obtain ⟨row', hrow', hid'⟩ := hlater.kept _ _ hrow
        refine ⟨List.forall_mem_cons.mpr ⟨hname, hlater.named⟩, hlater.members.trans hsaved.members, ?_, ?_, ?_, ?_, ?_⟩
        · intro name old hold
          by_cases heq : name = groupName area
          · subst heq
            exact ⟨row', hrow', hid'.trans (hid.trans (hsaved.kept old hold).symm)⟩
          · exact hlater.kept name old ((hsaved.others name heq).trans hold)
        · intro name hall
          obtain ⟨hne, hall⟩ := List.forall_mem_cons.mp hall
          exact (hlater.others name hall).trans (hsaved.others name (Ne.symm hne))
        · intro name old hall hold
          obtain ⟨hne, hall⟩ := List.forall_mem_cons.mp hall
          have hmid := (hsaved.others name (Ne.symm hne)).trans hold
          refine (hlater.otherRoots name old hall hmid).trans (hsaved.otherRoots old.1 fun heq => hne ?_)
          exact Table.key_of_id hrow hmid (hid.trans heq.symm)
        · intro chosen hchosen
          by_cases hagain : ∃ later ∈ areas, groupName later = groupName chosen
          · obtain ⟨later, hlatermem, hsame⟩ := hagain
            obtain ⟨final, hfinal, hfinalname, found, hfound, hroot, hreturned⟩ := hlater.last later hlatermem
            rw [hsame] at hfinalname hfound
            exact ⟨final, List.mem_cons_of_mem _ hfinal, hfinalname, found, hfound, hroot,
              List.mem_cons_of_mem _ hreturned⟩
          · -- the first Area's name does not come again, so its group is left alone
            rcases List.mem_cons.mp hchosen with rfl | hmem
            · have hnone : ∀ later ∈ areas, groupName later ≠ groupName chosen :=
                fun later hl heq => hagain ⟨later, hl, heq⟩
              refine ⟨chosen, List.mem_cons_self, rfl, row', hrow', ?_, ?_⟩
              · rw [hid', hlater.otherRoots _ row hnone hrow, hid]
                exact hsaved.root
              · rw [hid', hid]
                exact List.mem_cons_self
            · exact absurd ⟨chosen, hmem, rfl⟩ hagain
        · refine List.forall_mem_cons.mpr ⟨⟨area, List.mem_cons_self, row', hrow', hid'.trans hid⟩, fun group hgroup => ?_⟩
          obtain ⟨later, hl, found⟩ := hlater.returned group hgroup
          exact ⟨later, List.mem_cons_of_mem _ hl, found⟩
      · cases h

theorem saveAreaGroups_isSome {areas : List (Nat × AssetRow)} {m : AssetModel}
    (hassets : ∀ area ∈ areas, m.hasAsset area.1 = true) (hnames : ∀ area ∈ areas, groupName area ≠ []) :
    ∃ saved, m.saveAreaGroups areas = some saved := by
  induction areas generalizing m with
  | nil => exact ⟨_, rfl⟩
  | cons area areas ih =>
      obtain ⟨hasset, hassets⟩ := List.forall_mem_cons.mp hassets
      obtain ⟨hname, hnames⟩ := List.forall_mem_cons.mp hnames
      obtain ⟨first, hfirst⟩ := upsertAreaGroup_isSome (m := m) hname
      have hsame := (areaSaved_upsertAreaGroup hfirst).2.assets
      obtain ⟨rest, hrest⟩ := ih (m := first.1)
        (fun later hl => by rw [AssetModel.hasAsset, hsame]; exact hassets later hl) hnames
      rw [AssetModel.saveAreaGroups, if_pos hasset, hfirst, Option.bind_some, hrest]
      exact ⟨_, rfl⟩

/-! ## The law -/

/-- The group has roots that no Area of its name would give it. -/
def OtherRoots (m : AssetModel) (areas : List (Nat × AssetRow)) (name : Str) (group : Nat) : Prop :=
  ∀ area ∈ areas, groupName area = name → m.rootsOf group ≠ [area.1]

/-- The call returns; each Area is the only root of a returned group, these have roots of their name
only, and the groups that `admin` made with other roots keep roots and members. -/
def AreasCovered (admin : List Nat) (m : AssetModel) (areas : List (Nat × AssetRow)) : Prop :=
  ∃ m' returned, m.saveAreaGroups areas = some (m', returned) ∧
    (∀ area ∈ areas, ∃ group ∈ returned, m'.rootsOf group.1 = [area.1]) ∧
    (∀ group ∈ returned, ∀ id ∈ m'.rootsOf group.1, ∃ area ∈ areas, area.1 = id ∧
      ∃ row, m'.groups.find? (groupName area) = some row ∧ row.1 = group.1) ∧
    ∀ name row, m.groups.find? name = some row → row.1 ∈ admin → OtherRoots m areas name row.1 →
      m'.rootsOf row.1 = m.rootsOf row.1 ∧ m'.membersOf row.1 = m.membersOf row.1

/-- Every Area has a group name of its own that no admin's group has, but one with this root. -/
structure NamesFree (admin : List Nat) (m : AssetModel) (areas : List (Nat × AssetRow)) : Prop where
  named : ∀ area ∈ areas, groupName area ≠ []
  distinct : (areas.map groupName).Nodup
  unclaimed : ∀ area ∈ areas, ∀ row, m.groups.find? (groupName area) = some row → row.1 ∈ admin →
    m.rootsOf row.1 = [area.1]

section

variable {admin : List Nat} {m m' : AssetModel} {areas : List (Nat × AssetRow)} {returned : List (Nat × Str)}

/-- A group that is returned is the one of some name and has the last Area of it; so an Area with a
group of its own is the last of its name. -/
theorem root_of_covered (hset : (areas.map Prod.fst).Nodup) (hall : AreasSaved m m' areas returned)
    (hcovered : ∀ area ∈ areas, ∃ group ∈ returned, m'.rootsOf group.1 = [area.1]) {area : Nat × AssetRow}
    (harea : area ∈ areas) {row : Nat × Unit} (hrow : m'.groups.find? (groupName area) = some row) :
    m'.rootsOf row.1 = [area.1] := by
  obtain ⟨group, hgroup, hroot⟩ := hcovered area harea
  obtain ⟨b, hb, found, hfound, hid⟩ := hall.returned group hgroup
  obtain ⟨final, hfinal, hname, found', hfound', hlast, -⟩ := hall.last b hb
  have hsame : found' = found := Option.some.inj (hfound'.symm.trans hfound)
  rw [hsame, hid, hroot] at hlast
  have heq : final = area := List.inj_on_of_nodup_map hset hfinal harea (List.cons.inj hlast).1.symm
  rw [heq] at hname
  rw [hname, hfound] at hrow
  rw [← Option.some.inj hrow, hid]
  exact hroot

theorem names_of_covered (hset : (areas.map Prod.fst).Nodup) (hall : AreasSaved m m' areas returned)
    (hcovered : ∀ area ∈ areas, ∃ group ∈ returned, m'.rootsOf group.1 = [area.1]) :
    (areas.map groupName).Nodup := by
  refine List.pairwise_map.mpr ((List.pairwise_map.mp hset).imp_of_mem fun {a b} ha hb hne hsame => ?_)
  obtain ⟨final, hfinal, hname, row, hrow, -, -⟩ := hall.last a ha
  have hroots := (root_of_covered hset hall hcovered ha hrow).symm.trans
    (root_of_covered hset hall hcovered hb (hsame ▸ hrow))
  exact hne (List.cons.inj hroots).1

/-- The law holds exactly when no name is used twice or already taken. -/
theorem areasCovered_iff (hrows : ∀ area ∈ areas, ∃ path, m.assets.find? path = some area)
    (hset : (areas.map Prod.fst).Nodup) : AreasCovered admin m areas ↔ NamesFree admin m areas := by
  have hassets : ∀ area ∈ areas, m.hasAsset area.1 = true := fun area harea =>
    let ⟨path, hpath⟩ := hrows area harea
    hasAsset_iff.mpr ⟨path, area, hpath, rfl⟩
  constructor
  · rintro ⟨m', returned, hsaved, hcovered, -, hkept⟩
    have hall := areasSaved_saveAreaGroups hsaved
    have hone : ∀ area ∈ areas, ∀ row, m'.groups.find? (groupName area) = some row → m'.rootsOf row.1 = [area.1] :=
      fun _ harea _ hrow => root_of_covered hset hall hcovered harea hrow
    refine ⟨hall.named, names_of_covered hset hall hcovered, ?_⟩
    intro area harea row hrow hadmin
    by_contra hroots
    obtain ⟨row', hrow', hid⟩ := hall.kept _ row hrow
    have hnow := hone area harea row' hrow'
    rw [hid] at hnow
    by_cases hother : OtherRoots m areas (groupName area) row.1
    · exact hroots ((hkept _ row hrow hadmin hother).1.symm.trans hnow)
    · obtain ⟨b, hb, hname, hrootsb⟩ : ∃ b ∈ areas, groupName b = groupName area ∧ m.rootsOf row.1 = [b.1] := by
        by_contra hnone
        exact hother fun b hb hname hrootsb => hnone ⟨b, hb, hname, hrootsb⟩
      have hnow' := hone b hb row' (hname ▸ hrow')
      rw [hid] at hnow'
      exact hroots (hrootsb.trans (hnow'.symm.trans hnow))
  · intro hfree
    obtain ⟨⟨m', returned⟩, hsaved⟩ := saveAreaGroups_isSome hassets hfree.named
    have hall := areasSaved_saveAreaGroups hsaved
    have hunique : ∀ a ∈ areas, ∀ b ∈ areas, groupName a = groupName b → a = b := fun a ha b hb hname =>
      List.inj_on_of_nodup_map hfree.distinct ha hb hname
    have hone : ∀ a ∈ areas, ∃ row, m'.groups.find? (groupName a) = some row ∧ m'.rootsOf row.1 = [a.1] ∧
        row.1 ∈ returned.map Prod.fst := by
      intro a ha
      obtain ⟨final, hfinal, hname, row, hrow, hroot, hreturned⟩ := hall.last a ha
      rw [hunique final hfinal a ha hname] at hroot
      exact ⟨row, hrow, hroot, hreturned⟩
    refine ⟨m', returned, hsaved, fun area harea => ?_, fun group hgroup id hid => ?_, fun name row hrow hadmin hother => ?_⟩
    · obtain ⟨row, -, hroot, hreturned⟩ := hone area harea
      obtain ⟨group, hgroup, hid⟩ := List.mem_map.mp hreturned
      exact ⟨group, hgroup, hid ▸ hroot⟩
    · obtain ⟨area, harea, row, hrow, hrowid⟩ := hall.returned group hgroup
      obtain ⟨row', hrow', hroot, -⟩ := hone area harea
      have hsame : row' = row := Option.some.inj (hrow'.symm.trans hrow)
      rw [hsame, hrowid] at hroot
      rw [hroot, List.mem_singleton] at hid
      exact ⟨area, harea, hid.symm, row, hrow, hrowid⟩
    · have hmembers : m'.membersOf row.1 = m.membersOf row.1 := by
        rw [AssetModel.membersOf, hall.members, AssetModel.membersOf]
      have hnone : ∀ area ∈ areas, groupName area ≠ name := by
        rintro area harea rfl
        exact hother area harea rfl (hfree.unclaimed area harea row hrow hadmin)
      exact ⟨hall.otherRoots name row hnone hrow, hmembers⟩

end

/-! ## Two halls -/

/-- A hall in each of two sites, and a group that an admin rooted at the first. -/
def twoHalls (adminGroup : Str) : AssetModel where
  assets := (ensureBranch .empty none [] [⟨lit "acme", lit "ENTERPRISE"⟩, ⟨lit "north", lit "SITE"⟩,
    ⟨lit "hall", lit "AREA"⟩]).bind (fun assets => ensureBranch assets none [] [⟨lit "acme", lit "ENTERPRISE"⟩,
      ⟨lit "south", lit "SITE"⟩, ⟨lit "hall", lit "AREA"⟩]) |>.getD .empty
  groups := (Table.empty.insert? adminGroup ()).getD .empty
  roots := [(0, 2)]
  members := [(0, lit "auditor")]
  definitions := []
  tags := []

def hallAt (m : AssetModel) (path : Str) : List (Nat × AssetRow) := (m.assets.find? path).toList

/-- The Area of one site, and a group of another name. -/
theorem one_hall_covered :
    AreasCovered [0] (twoHalls (lit "night shift")) (hallAt (twoHalls (lit "night shift")) (lit "acme/north/hall")) := by
  refine (areasCovered_iff ?_ ?_).mpr ⟨?_, ?_, ?_⟩
  · intro area harea
    exact ⟨_, Option.mem_toList.mp harea⟩
  · decide +kernel
  · decide +kernel
  · decide +kernel
  · have hnone : ∀ area ∈ hallAt (twoHalls (lit "night shift")) (lit "acme/north/hall"),
        (twoHalls (lit "night shift")).groups.find? (groupName area) = none := by decide +kernel
    intro area harea row hrow
    rw [hnone area harea] at hrow
    cases hrow

/-- The second hall takes the group of the first. -/
theorem second_hall_takes_group : ¬ ∀ (admin : List Nat) (m : AssetModel) (areas : List (Nat × AssetRow)),
    (∀ area ∈ areas, ∃ path, m.assets.find? path = some area) → (areas.map Prod.fst).Nodup →
      AreasCovered admin m areas := by
  intro h
  obtain ⟨m', returned, hsaved, hcovered, -⟩ := h [0] (twoHalls (lit "night shift"))
    (hallAt (twoHalls (lit "night shift")) (lit "acme/north/hall") ++
      hallAt (twoHalls (lit "night shift")) (lit "acme/south/hall")) (by
        intro area harea
        rcases List.mem_append.mp harea with harea | harea <;> exact ⟨_, Option.mem_toList.mp harea⟩)
    (by decide +kernel)
  have hnames := names_of_covered (by decide +kernel) (areasSaved_saveAreaGroups hsaved) hcovered
  revert hnames
  decide +kernel

end Uns.Model
