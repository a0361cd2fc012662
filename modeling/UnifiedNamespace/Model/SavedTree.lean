/-
# `Model.SavedTree` — a tree written to the settings and read back

`save_plant_tree`, `write_enterprise_settings` and `load_plant_tree`.  The settings are written
by one library and read by another: `ruamel.yaml` leaves a string unquoted when the core rules
of YAML 1.2 read it as a string, `yaml.safe_load` reads it by the rules of YAML 1.1, so `yes`
comes back as `True`.  A file of the plant alone is written by the library that reads it, and
loses nothing.  Documents are nodes: comments and the layout are left out, and every scalar is
a string or follows its library's rules.
-/
import UnifiedNamespace.Model.TreeMapping
import UnifiedNamespace.Config.UnsIngest

namespace Uns.Model

open Py Lib

/-! ## Documents -/

/-- A node of a document; a quoted scalar is a string. -/
inductive Node where
  | plain (text : Str)
  | quoted (text : Str)
  | list (items : List Node)
  | dict (items : List (Node × Node))

/-- The value each plain scalar has. -/
abbrev ScalarRules := Str → Raw

/-- The plain scalar is a string. -/
def ScalarRules.Leaves (resolve : ScalarRules) (s : Str) : Prop := ∃ t, resolve s = .str t

section Documents

variable (resolve : ScalarRules)

mutual
def Node.load : Node → Raw
  | .plain s => resolve s
  | .quoted s => .str s
  | .list items => .list (loadList items)
  | .dict items => .dict (loadDict items)

def loadList : List Node → List Raw
  | [] => []
  | item :: items => item.load :: loadList items

def loadDict : List (Node × Node) → List (Raw × Raw)
  | [] => []
  | (key, value) :: items => (key.load, value.load) :: loadDict items
end

/-- A new string: unquoted when it resolves to a string. -/
def dumpStr (s : Str) : Node :=
  match resolve s with
  | .str _ => .plain s
  | _ => .quoted s

mutual
/-- `dump` of a new value. -/
def dump : Raw → Node
  | .none => .plain []
  | .str s => dumpStr resolve s
  | .scalar _ printed => .plain printed
  | .list items => .list (dumpList items)
  | .dict items => .dict (dumpDict items)

def dumpList : List Raw → List Node
  | [] => []
  | item :: items => dump item :: dumpList items

def dumpDict : List (Raw × Raw) → List (Node × Node)
  | [] => []
  | (key, value) :: items => (dump key, dump value) :: dumpDict items
end

end Documents

/-- A key of the settings, quoted or not. -/
def Node.isKey (key : Str) : Node → Bool
  | .plain s => decide (s = key)
  | .quoted s => decide (s = key)
  | _ => false

abbrev Items := List (Node × Node)

def getKey (key : Str) (items : Items) : Option Node := (items.find? fun e => e.1.isKey key).map Prod.snd

/-- `items[key] = value`. -/
def setKey (resolve : ScalarRules) (key : Str) (value : Node) : Items → Items
  | [] => [(dumpStr resolve key, value)]
  | e :: items => if e.1.isKey key then (e.1, value) :: items else e :: setKey resolve key value items

/-- `del items[key]`. -/
def eraseKey (key : Str) (items : Items) : Items := items.eraseP fun e => e.1.isKey key

def dictItems : Option Node → Option Items
  | some (.dict items) => some items
  | _ => none

def listItems : Option Node → Option (List Node)
  | some (.list items) => some items
  | _ => none

/-! ## The two libraries -/

/-- The keys that a loaded document is asked for. -/
def settingKeys : List Str :=
  [lit "default", lit "simulator", lit "hierarchy", lit "enterprise", lit "sites", lit "name", lit "areas",
    lit "kind", lit "lines", lit "cells", lit "machines"]

/-- What `ruamel.yaml` and `yaml.safe_load` make of a plain scalar, by the core rules of 1.2 and
by those of 1.1.  A plain scalar that is a string is its own text, the keys are strings, and the
words of 1.1 for no value are words of 1.2 for it. -/
structure Yaml where
  core : ScalarRules
  old : ScalarRules
  old_str : ∀ s t, old s = .str t → t = s
  old_key : ∀ key ∈ settingKeys, old key = .str key
  old_none : ∀ s, old s = .none → core s = .none

/-! ## Saving -/

/-- The files of the configuration directory that hold a tree. -/
structure ConfDir where
  settings : Option Node
  plant : Option Node
  simulatorPlant : Option Node

/-- A value that is false. -/
def Raw.falsy : Raw → Bool
  | .none => true
  | .str s => decide (s = [])
  | .scalar .bool printed => decide (printed = lit "False")
  | .scalar .int printed => decide (printed = lit "0")
  | .scalar .float printed => decide (printed = lit "0.0" ∨ printed = lit "-0.0")
  | .scalar .timestamp _ => false
  | .list items => items.isEmpty
  | .dict items => items.isEmpty

section Save

variable (yaml : Yaml) (printer : Printer)

/-- `yaml_rt.load(text) or {}`; `none` is the `ValueError`. -/
def settingsItems : Node → Option Items
  | .dict items => some items
  | doc => if (doc.load yaml.core).falsy then some [] else none

/-- The document with its tree set, and the old place of it cleared. -/
def withHierarchy (mapped : Node) (items : Items) : Items :=
  let default := (dictItems (getKey (lit "default") items)).getD []
  let items := setKey yaml.core (lit "default") (.dict (setKey yaml.core (lit "hierarchy") mapped default)) items
  match dictItems (getKey (lit "simulator") items) with
  | some simulator =>
      if (getKey (lit "hierarchy") simulator).isSome then
        setKey yaml.core (lit "simulator") (.dict (eraseKey (lit "hierarchy") simulator)) items
      else items
  | none => items

/-- `save_plant_tree`. -/
def savePlantTree (dir : ConfDir) (tree : HierarchyTree) : Option ConfDir :=
  let mapped : Raw := .dict (treeToMapping tree)
  match dir.settings with
  | some doc => (settingsItems yaml doc).map fun items =>
      { dir with settings := some (.dict (withHierarchy yaml (dump yaml.core mapped) items)) }
  | none => some { dir with plant := some (dump yaml.old mapped) }

def unsWildcard : Str := lit "#"

def testUnsFilter : Str := lit "test/uns/#"

/-- `_SPARKPLUG_PREFIX`, without the slash of a message's topic. -/
def sparkplugFilterPrefix : Str := lit "spBv1.0"

def mapperEnvs : List Str := [lit "graphdb", lit "historian", lit "kafka_mapper"]

/-- A filter of the kind that names an enterprise gives way to the new one. -/
def rewriteTopicFilter (newFilter topic : Str) : Str :=
  if topic = unsWildcard ∨ topic = testUnsFilter ∨ startsWith topic sparkplugFilterPrefix then topic
  else if (lit "/#").isSuffixOf topic then newFilter
  else topic

/-- The first of each. -/
def firstSeen : List Str → List Str → List Str
  | _, [] => []
  | seen, topic :: topics =>
      if topic ∈ seen then firstSeen seen topics else topic :: firstSeen (topic :: seen) topics

/-- `_rewrite_topic_filters`, of the topics' texts. -/
def rewriteTopicFilters (topics : List Str) (newFilter : Str) : List Str :=
  firstSeen [] (topics.map (rewriteTopicFilter newFilter))

def Raw.string? : Raw → Option Str
  | .str s => some s
  | _ => Option.none

/-- The topics as they are, or the rewritten ones when these differ. -/
def rewriteTopics (newFilter : Str) (topics : List Node) : List Node :=
  let values := topics.map (Node.load yaml.core)
  let rewritten := rewriteTopicFilters (values.map printer.text) newFilter
  if values.map Raw.string? = rewritten.map some then topics else rewritten.map (dumpStr yaml.core)

/-- The block of one mapper with its filters rewritten. -/
def rewriteMapper (newFilter : Str) (items : Items) (env : Str) : Items :=
  (do
    let block ← dictItems (getKey env items)
    let mqtt ← dictItems (getKey (lit "mqtt") block)
    let topics ← listItems (getKey (lit "topics") mqtt)
    let topics := rewriteTopics yaml printer newFilter topics
    let mqtt := setKey yaml.core (lit "topics") (.list topics) mqtt
    return setKey yaml.core env (.dict (setKey yaml.core (lit "mqtt") (.dict mqtt) block)) items).getD items

/-- The names of the platform, below `default`. -/
def withPlatform (enterprise : Str) (items : Items) : Items :=
  match dictItems (getKey (lit "default") items) with
  | some default =>
      let platform := (dictItems (getKey (lit "platform") default)).getD []
      let platform := setKey yaml.core (lit "organization_name") (dumpStr yaml.core enterprise) platform
      let platform :=
        setKey yaml.core (lit "display_name") (dumpStr yaml.core (enterprise ++ lit " UNS")) platform
      setKey yaml.core (lit "default") (.dict (setKey yaml.core (lit "platform") (.dict platform) default)) items
  | none => items

/-- `apply_enterprise_to_settings`. -/
def applyEnterpriseToSettings (enterprise : Str) (doc : Node) : Option Node := do
  let items ← settingsItems yaml doc
  let items := withPlatform yaml enterprise items
  return .dict (mapperEnvs.foldl (rewriteMapper yaml printer (enterprise ++ lit "/#")) items)

/-- `write_enterprise_settings`. -/
def writeEnterpriseSettings (dir : ConfDir) (enterprise : Str) : Option ConfDir := do
  let doc ← applyEnterpriseToSettings yaml printer enterprise (← dir.settings)
  return { dir with settings := some doc }

/-- The two writes of `save_hierarchy`. -/
def saveHierarchy (dir : ConfDir) (tree : HierarchyTree) : Option ConfDir := do
  writeEnterpriseSettings yaml printer (← savePlantTree yaml dir tree) tree.enterprise

end Save

/-! ## Loading -/

/-- `_hierarchy_mapping`. -/
def hierarchyMapping : Option Raw → Option (List (Raw × Raw))
  | some (.dict block) =>
      match Raw.get? block (lit "enterprise") with
      | none => none
      | some .none => none
      | some _ => some block
  | _ => none

/-- The tree below one key of the document. -/
def hierarchyUnder (key : Str) (items : List (Raw × Raw)) : Option (List (Raw × Raw)) :=
  match Raw.get? items key with
  | some (.dict block) => hierarchyMapping (Raw.get? block (lit "hierarchy"))
  | _ => none

/-- `_hierarchy_from_settings_doc`. -/
def hierarchyFromSettingsDoc : Raw → Option (List (Raw × Raw))
  | .dict items => (hierarchyUnder (lit "default") items).orElse fun _ => hierarchyUnder (lit "simulator") items
  | _ => none

/-- The entries of the plant file; what is no mapping is refused as an empty one is. -/
def plantItems : Raw → List (Raw × Raw)
  | .dict items => items
  | _ => []

/-- `load_plant_tree`; `none` is what is raised. -/
def loadPlantTree (yaml : Yaml) (printer : Printer) (dir : ConfDir) : Option LooseTree :=
  match dir.settings.bind fun doc => hierarchyFromSettingsDoc (doc.load yaml.old) with
  | some hierarchy => treeFromMapping printer hierarchy
  | none => do
      let doc ← dir.plant.orElse fun _ => dir.simulatorPlant
      treeFromMapping printer (plantItems (doc.load yaml.old))

/-! ## Documents read back -/

section Read

theorem loadList_eq (resolve : ScalarRules) (items : List Node) :
    loadList resolve items = items.map (Node.load resolve) := by
  induction items with
  | nil => rfl
  | cons item items ih => rw [loadList, ih, List.map_cons]

theorem dumpList_eq (resolve : ScalarRules) (items : List Raw) :
    dumpList resolve items = items.map (dump resolve) := by
  induction items with
  | nil => rfl
  | cons item items ih => rw [dumpList, ih, List.map_cons]

variable (w r : ScalarRules)

/-- What a new string comes back as. -/
def readBack (s : Str) : Raw := (dumpStr w s).load r

/-- What a new value comes back as. -/
def reread (value : Raw) : Raw := (dump w value).load r

variable {w r}

theorem readBack_of_leaves {s : Str} (h : w.Leaves s) : readBack w r s = r s := by
  obtain ⟨t, ht⟩ := h
  rw [readBack, dumpStr, ht]
  rfl

theorem readBack_of_not_leaves {s : Str} (h : ¬ w.Leaves s) : readBack w r s = .str s := by
  rw [readBack, dumpStr]
  cases hs : w s with
  | str t => exact absurd ⟨t, hs⟩ h
  | _ => rfl

/-- A property that a string itself has is one of its reading when the reader's rules keep it. -/
theorem readBack_iff {P : Raw → Prop} {s : Str} (h : P (.str s)) : P (readBack w r s) ↔ (w.Leaves s → P (r s)) := by
  by_cases hs : w.Leaves s
  · rw [readBack_of_leaves hs]
    exact ⟨fun hp _ => hp, fun hp => hp hs⟩
  · rw [readBack_of_not_leaves hs]
    exact ⟨fun _ hl => absurd hl hs, fun _ => h⟩

theorem reread_list (items : List Raw) : reread w r (.list items) = .list (items.map (reread w r)) := by
  have hread : reread w r (.list items) = .list (loadList r (dumpList w items)) := rfl
  rw [hread, loadList_eq, dumpList_eq, List.map_map]
  rfl

end Read

section Keys

variable (yaml : Yaml)

theorem getKey_setKey (resolve : ScalarRules) (key : Str) (value : Node) (items : Items) :
    getKey key (setKey resolve key value items) = some value := by
  induction items with
  | nil =>
      have hself : (dumpStr resolve key).isKey key = true := by
        rw [dumpStr]
        split <;> exact decide_eq_true rfl
      simp only [setKey, getKey, List.find?_cons, hself, Option.map_some]
  | cons e items ih =>
      cases he : e.1.isKey key with
      | true => simp only [setKey, getKey, List.find?_cons, he, if_true, Option.map_some]
      | false =>
          simp only [setKey, getKey, List.find?_cons, he, Bool.false_eq_true, if_false]
          exact ih

theorem isKey_ne {key other : Str} (hne : key ≠ other) {node : Node} (h : node.isKey other = true) :
    node.isKey key = false := by
  cases node with
  | plain s => exact decide_eq_false fun hs => hne (hs.symm.trans (of_decide_eq_true h))
  | quoted s => exact decide_eq_false fun hs => hne (hs.symm.trans (of_decide_eq_true h))
  | _ => rfl

theorem getKey_setKey_ne (resolve : ScalarRules) {key other : Str} (hne : key ≠ other) (value : Node) (items : Items) :
    getKey key (setKey resolve other value items) = getKey key items := by
  induction items with
  | nil =>
      have hother : (dumpStr resolve other).isKey key = false := by
        refine isKey_ne hne ?_
        rw [dumpStr]
        split <;> exact decide_eq_true rfl
      simp only [setKey, getKey, List.find?_cons, hother, List.find?_nil]
  | cons e items ih =>
      cases he : e.1.isKey other with
      | true =>
          have hkey := isKey_ne hne he
          simp only [setKey, getKey, List.find?_cons, he, hkey, if_true]
      | false =>
          simp only [setKey, he, Bool.false_eq_true, if_false]
          cases hkey : e.1.isKey key with
          | true => simp only [getKey, List.find?_cons, hkey]
          | false =>
              simp only [getKey, List.find?_cons, hkey]
              exact ih

end Keys

/-! ## Trees as they come back -/

section AsRead

variable (printer : Printer) (read : Str → Raw)

def HierarchyCell.asRead (cell : HierarchyCell) : HierarchyCell :=
  ⟨printer.text (read cell.name), cell.machines.map fun machine => printer.text (read machine)⟩

def HierarchyLine.asRead (line : HierarchyLine) : LooseLine :=
  ⟨read line.name, line.cells.map (HierarchyCell.asRead printer read)⟩

def HierarchyArea.asRead (area : HierarchyArea) : LooseArea :=
  ⟨read area.name, read area.kind, area.lines.map (HierarchyLine.asRead printer read)⟩

def HierarchySite.asRead (site : HierarchySite) : LooseSite :=
  ⟨read site.name, site.areas.map (HierarchyArea.asRead printer read)⟩

/-- The tree with each name as it is read: through `str` for the enterprise, cells and machines. -/
def HierarchyTree.asRead (tree : HierarchyTree) : LooseTree :=
  ⟨printer.text (read tree.enterprise), tree.sites.map (HierarchySite.asRead printer read)⟩

end AsRead

section Reread

variable (yaml : Yaml) (w : ScalarRules) (printer : Printer)

theorem readBack_key (key : String) (hkey : lit key ∈ settingKeys) :
    readBack w yaml.old (lit key) = .str (lit key) :=
  (readBack_iff (P := fun value => value = .str (lit key)) rfl).mpr fun _ => yaml.old_key (lit key) hkey

theorem reread_cell (cell : HierarchyCell) : reread w yaml.old (cellMapping cell) =
    .dict [field "name" (readBack w yaml.old cell.name),
      field "machines" (.list (cell.machines.map (readBack w yaml.old)))] := by
  have hread : reread w yaml.old (cellMapping cell) =
      .dict [(readBack w yaml.old (lit "name"), readBack w yaml.old cell.name),
        (readBack w yaml.old (lit "machines"), reread w yaml.old (.list (cell.machines.map .str)))] := rfl
  rw [hread, readBack_key yaml w "name" (by decide), readBack_key yaml w "machines" (by decide), reread_list,
    List.map_map]
  rfl

theorem reread_line (line : HierarchyLine) : reread w yaml.old (lineMapping line) =
    .dict [field "name" (readBack w yaml.old line.name),
      field "cells" (.list (line.cells.map fun cell => reread w yaml.old (cellMapping cell)))] := by
  have hread : reread w yaml.old (lineMapping line) =
      .dict [(readBack w yaml.old (lit "name"), readBack w yaml.old line.name),
        (readBack w yaml.old (lit "cells"), reread w yaml.old (.list (line.cells.map cellMapping)))] := rfl
  rw [hread, readBack_key yaml w "name" (by decide), readBack_key yaml w "cells" (by decide), reread_list, List.map_map]
  rfl

theorem reread_area {area : HierarchyArea} (h : area.kind ≠ []) : reread w yaml.old (areaMapping area) =
    .dict [field "name" (readBack w yaml.old area.name), field "kind" (readBack w yaml.old area.kind),
      field "lines" (.list (area.lines.map fun line => reread w yaml.old (lineMapping line)))] := by
  have hread : reread w yaml.old (areaMapping area) =
      .dict [(readBack w yaml.old (lit "name"), readBack w yaml.old area.name),
        (readBack w yaml.old (lit "kind"),
          readBack w yaml.old (if area.kind = [] then defaultAreaKind else area.kind)),
        (readBack w yaml.old (lit "lines"), reread w yaml.old (.list (area.lines.map lineMapping)))] := rfl
  rw [hread, if_neg h, readBack_key yaml w "name" (by decide), readBack_key yaml w "kind" (by decide),
    readBack_key yaml w "lines" (by decide), reread_list, List.map_map]
  rfl

theorem reread_site (site : HierarchySite) : reread w yaml.old (siteMapping site) =
    .dict [field "name" (readBack w yaml.old site.name),
      field "areas" (.list (site.areas.map fun area => reread w yaml.old (areaMapping area)))] := by
  have hread : reread w yaml.old (siteMapping site) =
      .dict [(readBack w yaml.old (lit "name"), readBack w yaml.old site.name),
        (readBack w yaml.old (lit "areas"), reread w yaml.old (.list (site.areas.map areaMapping)))] := rfl
  rw [hread, readBack_key yaml w "name" (by decide), readBack_key yaml w "areas" (by decide), reread_list, List.map_map]
  rfl

/-- The entries of a tree's mapping, read back. -/
def rereadTree (tree : HierarchyTree) : List (Raw × Raw) :=
  [field "enterprise" (readBack w yaml.old tree.enterprise),
    field "sites" (.list (tree.sites.map fun site => reread w yaml.old (siteMapping site)))]

theorem reread_tree (tree : HierarchyTree) :
    reread w yaml.old (.dict (treeToMapping tree)) = .dict (rereadTree yaml w tree) := by
  have hread : reread w yaml.old (.dict (treeToMapping tree)) =
      .dict [(readBack w yaml.old (lit "enterprise"), readBack w yaml.old tree.enterprise),
        (readBack w yaml.old (lit "sites"), reread w yaml.old (.list (tree.sites.map siteMapping)))] := rfl
  rw [hread, readBack_key yaml w "enterprise" (by decide), readBack_key yaml w "sites" (by decide), reread_list,
    List.map_map]
  rfl

theorem coerceCell_reread (cell : HierarchyCell) :
    coerceCell printer (reread w yaml.old (cellMapping cell)) = some (cell.asRead printer (readBack w yaml.old)) := by
  have hcoerced : coerceCell printer (.dict [field "name" (readBack w yaml.old cell.name),
        field "machines" (.list (cell.machines.map (readBack w yaml.old)))]) =
      some ⟨printer.text (readBack w yaml.old cell.name),
        (cell.machines.map (readBack w yaml.old)).map printer.text⟩ := rfl
  rw [reread_cell, hcoerced, List.map_map]
  rfl

theorem coerceLines_reread (lines : List HierarchyLine) :
    coerceLines printer (.list (lines.map fun line => reread w yaml.old (lineMapping line))) =
      some (lines.map (HierarchyLine.asRead printer (readBack w yaml.old))) := by
  have hitems := @namedItems_list _ (fun line => reread w yaml.old (lineMapping line))
    (fun line => readBack w yaml.old line.name) lines fun line _ => ⟨_, reread_line yaml w line, rfl⟩
  rw [coerceLines, hitems]
  refine mapM_map_some _ fun line _ => ?_
  have hcells := mapM_map_some _ fun cell (_ : cell ∈ line.cells) => coerceCell_reread yaml w printer cell
  rw [reread_line]
  change (List.mapM (coerceCell printer) (line.cells.map fun cell => reread w yaml.old (cellMapping cell))).bind
    (fun cells => some (⟨readBack w yaml.old line.name, cells⟩ : LooseLine)) = _
  rw [hcells]
  rfl

theorem coerceAreas_reread {areas : List HierarchyArea} (h : ∀ area ∈ areas, area.kind ≠ []) :
    coerceAreas printer (.list (areas.map fun area => reread w yaml.old (areaMapping area))) =
      some (areas.map (HierarchyArea.asRead printer (readBack w yaml.old))) := by
  have hitems := @namedItems_list _ (fun area => reread w yaml.old (areaMapping area))
    (fun area => readBack w yaml.old area.name) areas fun area harea => ⟨_, reread_area yaml w (h area harea), rfl⟩
  rw [coerceAreas, hitems]
  refine mapM_map_some _ fun area harea => ?_
  rw [reread_area yaml w (h area harea)]
  change (coerceLines printer (.list (area.lines.map fun line => reread w yaml.old (lineMapping line)))).bind
    (fun lines => some (⟨readBack w yaml.old area.name, readBack w yaml.old area.kind, lines⟩ : LooseArea)) = _
  rw [coerceLines_reread]
  rfl

/-- The tree that a saved mapping is read as. -/
theorem treeFromMapping_reread {tree : HierarchyTree}
    (h : ∀ site ∈ tree.sites, ∀ area ∈ site.areas, area.kind ≠ []) :
    treeFromMapping printer (rereadTree yaml w tree) = some (tree.asRead printer (readBack w yaml.old)) := by
  have hitems := @namedItems_list _ (fun site => reread w yaml.old (siteMapping site))
    (fun site => readBack w yaml.old site.name) tree.sites fun site _ => ⟨_, reread_site yaml w site, rfl⟩
  have hsites : coerceSites printer (.list (tree.sites.map fun site => reread w yaml.old (siteMapping site))) =
      some (tree.sites.map (HierarchySite.asRead printer (readBack w yaml.old))) := by
    rw [coerceSites, hitems]
    refine mapM_map_some _ fun site hsite => ?_
    rw [reread_site]
    change (coerceAreas printer (.list (site.areas.map fun area => reread w yaml.old (areaMapping area)))).bind
      (fun areas => some (⟨readBack w yaml.old site.name, areas⟩ : LooseSite)) = _
    rw [coerceAreas_reread yaml w printer (h site hsite)]
    rfl
  change (coerceSites printer (.list (tree.sites.map fun site => reread w yaml.old (siteMapping site)))).bind
    (fun sites => some (⟨printer.text (readBack w yaml.old tree.enterprise), sites⟩ : LooseTree)) = _
  rw [hsites]
  rfl

end Reread

/-- `asString` of each name that is taken as it is, and `asText` of each that goes through `str`. -/
def HierarchyTree.Names (asString asText : Str → Prop) (tree : HierarchyTree) : Prop :=
  asText tree.enterprise ∧ ∀ site ∈ tree.sites, asString site.name ∧
    ∀ area ∈ site.areas, asString area.name ∧ asString area.kind ∧
      ∀ line ∈ area.lines, asString line.name ∧
        ∀ cell ∈ line.cells, asText cell.name ∧ ∀ machine ∈ cell.machines, asText machine

section SameTree

variable (printer : Printer) (read : Str → Raw)

theorem map_eq_self_iff {α : Type} {f : α → α} {as : List α} : as.map f = as ↔ ∀ a ∈ as, f a = a := by
  have h := @List.map_inj_left α α as f id
  rwa [List.map_id] at h

theorem cell_asRead_iff (cell : HierarchyCell) : cell.asRead printer read = cell ↔
    printer.text (read cell.name) = cell.name ∧
      ∀ machine ∈ cell.machines, printer.text (read machine) = machine := by
  obtain ⟨name, machines⟩ := cell
  rw [HierarchyCell.asRead, HierarchyCell.mk.injEq, map_eq_self_iff]

theorem line_asRead_iff (line : HierarchyLine) : line.asRead printer read = line.loose ↔
    read line.name = .str line.name ∧ ∀ cell ∈ line.cells, cell.asRead printer read = cell := by
  rw [HierarchyLine.asRead, HierarchyLine.loose, LooseLine.mk.injEq, map_eq_self_iff]

theorem area_asRead_iff (area : HierarchyArea) : area.asRead printer read = area.loose ↔
    read area.name = .str area.name ∧ read area.kind = .str area.kind ∧
      ∀ line ∈ area.lines, line.asRead printer read = line.loose := by
  rw [HierarchyArea.asRead, HierarchyArea.loose, LooseArea.mk.injEq, List.map_inj_left]

theorem site_asRead_iff (site : HierarchySite) : site.asRead printer read = site.loose ↔
    read site.name = .str site.name ∧ ∀ area ∈ site.areas, area.asRead printer read = area.loose := by
  rw [HierarchySite.asRead, HierarchySite.loose, LooseSite.mk.injEq, List.map_inj_left]

theorem tree_asRead_iff (tree : HierarchyTree) : tree.asRead printer read = tree.loose ↔
    tree.Names (fun s => read s = .str s) fun s => printer.text (read s) = s := by
  rw [HierarchyTree.asRead, HierarchyTree.loose, LooseTree.mk.injEq, List.map_inj_left]
  simp only [site_asRead_iff, area_asRead_iff, line_asRead_iff, cell_asRead_iff, HierarchyTree.Names]

end SameTree

/-! ## A tree saved and loaded -/

/-- The document has the tree in its place. -/
def Stored (mapped : Node) (items : Items) : Prop :=
  ∃ default, getKey (lit "default") items = some (.dict default) ∧ getKey (lit "hierarchy") default = some mapped

section Stored

variable {mapped : Node}

theorem Stored.setKey {items : Items} (h : Stored mapped items) (resolve : ScalarRules) {key : Str}
    (hne : lit "default" ≠ key) (value : Node) : Stored mapped (setKey resolve key value items) := by
  obtain ⟨default, hdefault, hhierarchy⟩ := h
  exact ⟨default, (getKey_setKey_ne resolve hne value items).trans hdefault, hhierarchy⟩

variable (yaml : Yaml) (printer : Printer)

theorem Stored.withPlatform {items : Items} (h : Stored mapped items) (enterprise : Str) :
    Stored mapped (withPlatform yaml enterprise items) := by
  obtain ⟨default, hdefault, hhierarchy⟩ := h
  rw [Model.withPlatform, hdefault]
  exact ⟨_, getKey_setKey _ _ _ _, (getKey_setKey_ne _ (by decide) _ _).trans hhierarchy⟩

theorem Stored.rewriteMapper {items : Items} (h : Stored mapped items) (newFilter : Str) {env : Str}
    (hne : lit "default" ≠ env) : Stored mapped (rewriteMapper yaml printer newFilter items env) := by
  rw [Model.rewriteMapper]
  cases dictItems (getKey env items) with
  | none => exact h
  | some block =>
      cases hmqtt : dictItems (getKey (lit "mqtt") block) with
      | none => simpa only [Option.bind_eq_bind, Option.bind_some, hmqtt, Option.bind_none, Option.getD_none] using h
      | some mqtt =>
          cases htopics : listItems (getKey (lit "topics") mqtt) with
          | none =>
              simpa only [Option.bind_eq_bind, Option.bind_some, hmqtt, htopics, Option.bind_none,
                Option.getD_none] using h
          | some topics =>
              simpa only [Option.bind_eq_bind, Option.bind_some, hmqtt, htopics, Option.pure_def,
                Option.getD_some] using h.setKey yaml.core hne _

end Stored

/-! ## What the next save compares with -/

section Printed

variable (printer : Printer)

def LooseLine.printed (line : LooseLine) : HierarchyLine := ⟨printer.text line.name, line.cells⟩

def LooseArea.printed (area : LooseArea) : HierarchyArea :=
  ⟨printer.text area.name, printer.text area.kind, area.lines.map (LooseLine.printed printer)⟩

def LooseSite.printed (site : LooseSite) : HierarchySite :=
  ⟨printer.text site.name, site.areas.map (LooseArea.printed printer)⟩

/-- The tree with the text of each name, as it stands in a path. -/
def LooseTree.printed (tree : LooseTree) : HierarchyTree :=
  ⟨tree.enterprise, tree.sites.map (LooseSite.printed printer)⟩

theorem printed_loose (tree : HierarchyTree) : tree.loose.printed printer = tree := by
  have hline : ∀ line : HierarchyLine, line.loose.printed printer = line := fun line => by
    rw [HierarchyLine.loose, LooseLine.printed, printer.text_str]
  have harea : ∀ area : HierarchyArea, area.loose.printed printer = area := fun area => by
    have hlines : area.lines.map (LooseLine.printed printer ∘ HierarchyLine.loose) = area.lines :=
      map_eq_self_iff.mpr fun line _ => hline line
    rw [HierarchyArea.loose, LooseArea.printed, printer.text_str, printer.text_str, List.map_map, hlines]
  have hsite : ∀ site : HierarchySite, site.loose.printed printer = site := fun site => by
    have hareas : site.areas.map (LooseArea.printed printer ∘ HierarchyArea.loose) = site.areas :=
      map_eq_self_iff.mpr fun area _ => harea area
    rw [HierarchySite.loose, LooseSite.printed, printer.text_str, List.map_map, hareas]
  have hsites : tree.sites.map (LooseSite.printed printer ∘ HierarchySite.loose) = tree.sites :=
    map_eq_self_iff.mpr fun site _ => hsite site
  rw [HierarchyTree.loose, LooseTree.printed, List.map_map, hsites]

end Printed

/-! ## Names that come back -/

/-- An unquoted string is the same string by the rules of 1.1. -/
def Yaml.KeepsString (yaml : Yaml) (s : Str) : Prop := yaml.core.Leaves s → yaml.old s = .str s

/-- An unquoted string prints as itself. -/
def Yaml.KeepsText (yaml : Yaml) (printer : Printer) (s : Str) : Prop :=
  yaml.core.Leaves s → printer.text (yaml.old s) = s

/-- The rules of 1.1 keep each unquoted name. -/
def HierarchyTree.Kept (yaml : Yaml) (printer : Printer) (tree : HierarchyTree) : Prop :=
  tree.Names yaml.KeepsString (yaml.KeepsText printer)

/-- The tree is loaded, with the prefixes that were stored. -/
def Restored (yaml : Yaml) (printer : Printer) (tree : HierarchyTree) (dir : ConfDir) : Prop :=
  loadPlantTree yaml printer dir = some tree.loose ∧
    ∀ loaded, loadPlantTree yaml printer dir = some loaded →
      allPrefixes (loaded.printed printer) = allPrefixes tree

section Restore

variable (yaml : Yaml) (printer : Printer)

theorem restored_iff (tree : HierarchyTree) (dir : ConfDir) :
    Restored yaml printer tree dir ↔ loadPlantTree yaml printer dir = some tree.loose := by
  refine ⟨And.left, fun hload => ⟨hload, fun loaded hloaded => ?_⟩⟩
  rw [← Option.some.inj (hload.symm.trans hloaded), printed_loose]

/-- Without settings the plant has a file of its own, which loses nothing: one library writes and reads it. -/
theorem savePlantTree_restored {tree : HierarchyTree} (h : validateTree tree = .ok ()) {dir : ConfDir}
    (hdir : dir.settings = none) :
    ∃ after, savePlantTree yaml dir tree = some after ∧ Restored yaml printer tree after := by
  have hread : ∀ s, readBack yaml.old yaml.old s = .str s := fun s =>
    (readBack_iff (P := fun value => value = .str s) rfl).mpr fun ⟨t, ht⟩ => yaml.old_str s t ht ▸ ht
  have hloose : tree.asRead printer (readBack yaml.old yaml.old) = tree.loose := by
    rw [tree_asRead_iff]
    simp only [hread, printer.text_str, HierarchyTree.Names, implies_true, and_self]
  refine ⟨{ dir with plant := some (dump yaml.old (.dict (treeToMapping tree))) }, ?_, (restored_iff _ _ _ _).mpr ?_⟩
  · rw [savePlantTree, hdir]
  · have hitems : plantItems ((dump yaml.old (.dict (treeToMapping tree))).load yaml.old) =
        rereadTree yaml yaml.old tree := congrArg plantItems (reread_tree yaml yaml.old tree)
    rw [loadPlantTree, hdir]
    change treeFromMapping printer (plantItems ((dump yaml.old (.dict (treeToMapping tree))).load yaml.old)) = _
    rw [hitems, treeFromMapping_reread yaml yaml.old printer (kind_ne_nil h), hloose]

end Restore

end Uns.Model
