/-
# `Model.TopicResolution` — the Asset of a topic, in Python and in SQL

A topic belongs to the deepest Asset whose path is a prefix of it, segment by segment.
`match_asset_path` and `TopicContextResolver._load` look for the ancestor paths of the topic;
`_BIND_TOPIC_SQL` looks for the longest path the topic starts with, among the active Assets.
They agree exactly when the deepest Asset is active and its path is not followed by an empty
segment with something after it (`resolutions_agree_iff`).
-/
import UnifiedNamespace.Model.Assets

namespace Uns.Model

open Py Lib

/-! ## Python -/

/-- `split_topic`. -/
def splitTopic (topic : Str) : List Str := if topic = [] then [] else splitSlash topic

/-- `ancestor_paths`: the prefixes of a topic, the deepest first. -/
def ancestorPaths (topic : Str) : List Str :=
  (List.range (splitTopic topic).length).reverse.map fun depth => joinSlash ((splitTopic topic).take (depth + 1))

structure TopicMatch where
  assetPath : Str
  metricPath : Str
  deriving DecidableEq

/-- `topic[len(path):].lstrip("/")`. -/
def metricPathBelow (topic path : Str) : Str := (topic.drop path.length).dropWhile fun c => decide (c = separator)

def matchAssetPath (topic : Str) (assetPaths : List Str) : Option TopicMatch :=
  ((ancestorPaths topic).find? fun candidate => decide (candidate ∈ assetPaths)).map fun candidate =>
    ⟨candidate, metricPathBelow topic candidate⟩

/-- `ancestors_of`: the Assets on the path to a topic, the coarsest first. -/
def ancestorsOf (assets : AssetTable) (topic : Str) : List (Str × Nat × AssetRow) :=
  (assets.rows.entries.filter fun e => decide (e.1 ∈ ancestorPaths topic)).mergeSort fun a b =>
    decide (a.1.length ≤ b.1.length)

/-- What the context of a topic says about where it belongs. -/
structure TopicContext where
  assetId : Nat
  assetPath : Str
  metricPath : Str
  deriving DecidableEq

/-- `_load`. -/
def loadContext (assets : AssetTable) (topic : Str) : Option TopicContext :=
  (ancestorsOf assets topic).getLast?.map fun asset => ⟨asset.2.1, asset.1, metricPathBelow topic asset.1⟩

/-! ## SQL -/

/-- `_BEST_ASSET_SQL`. -/
def bestAsset (assets : AssetTable) (topic : Str) : Option (Str × Nat × AssetRow) :=
  ((assets.rows.entries.filter fun e => e.2.2.active && covers topic e.1).mergeSort fun a b =>
    decide (b.1.length ≤ a.1.length)).head?

/-- `_BIND_TOPIC_SQL`: the `asset_id` and the `metric_path` that are stored. -/
def bindTopic (assets : AssetTable) (topic : Str) : Option Nat × Str :=
  match bestAsset assets topic with
  | none => (none, [])
  | some asset => (some asset.2.1, if asset.1 = topic then [] else topic.drop (asset.1.length + 1))

/-- The context as a binding. -/
def bindingOf (context : Option TopicContext) : Option Nat × Str :=
  (context.map (·.assetId), (context.map (·.metricPath)).getD [])

/-! ## Prefixes -/

theorem prefix_of_covers {topic path : Str} (h : covers topic path = true) : path <+: topic := by
  rcases covers_cases.mp h with rfl | ⟨rest, rfl⟩
  · exact List.prefix_refl _
  · exact List.prefix_append _ _

/-- The paths above a topic are told apart by their lengths. -/
theorem path_eq_of_length {topic a b : Str} (ha : covers topic a = true) (hb : covers topic b = true)
    (h : a.length = b.length) : a = b :=
  (List.prefix_of_prefix_length_le (prefix_of_covers ha) (prefix_of_covers hb) h.le).eq_of_length h

/-- The ancestor paths of a topic are the paths above it. -/
theorem mem_ancestorPaths {topic path : Str} (hpath : path ≠ []) :
    path ∈ ancestorPaths topic ↔ covers topic path = true := by
  rw [ancestorPaths, splitTopic]
  split
  · next hempty =>
      refine iff_of_false List.not_mem_nil fun h => ?_
      rw [hempty] at h
      exact hpath (List.prefix_nil.mp (prefix_of_covers h))
  · simp only [List.mem_map, List.mem_reverse, List.mem_range]
    rw [covers_iff]
    constructor
    · rintro ⟨depth, hdepth, rfl⟩
      rw [splitSlash_joinSlash]
      · exact List.take_prefix _ _
      · intro hnil
        have hlength := congrArg List.length hnil
        rw [List.length_take, List.length_nil] at hlength
        omega
      · exact fun segment hmem => not_mem_of_mem_splitSlash (List.mem_of_mem_take hmem)
    · intro h
      have hpos := List.length_pos_iff.mpr (splitSlash_ne_nil path)
      have hle := h.length_le
      refine ⟨(splitSlash path).length - 1, by omega, ?_⟩
      rw [Nat.sub_add_cancel hpos, ← List.prefix_iff_eq_take.mp h, joinSlash_splitSlash]

theorem length_joinSlash_take {segments : List Str} (hslash : ∀ segment ∈ segments, separator ∉ segment) {i j : Nat}
    (hij : i ≤ j) (hi : i < segments.length) :
    (joinSlash (segments.take (i + 1))).length ≤ (joinSlash (segments.take (j + 1))).length := by
  have hsplit : ∀ n, splitSlash (joinSlash (segments.take (n + 1))) = segments.take (n + 1) := by
    intro n
    refine splitSlash_joinSlash ?_ fun segment hmem => hslash segment (List.mem_of_mem_take hmem)
    intro hnil
    have hlength := congrArg List.length hnil
    rw [List.length_take, List.length_nil] at hlength
    omega
  have hcovers : covers (joinSlash (segments.take (j + 1))) (joinSlash (segments.take (i + 1))) = true := by
    rw [covers_iff, hsplit, hsplit]
    exact List.take_prefix_take_left (by omega)
  exact (prefix_of_covers hcovers).length_le

/-- The deepest comes first. -/
theorem pairwise_ancestorPaths (topic : Str) : (ancestorPaths topic).Pairwise fun a b => b.length ≤ a.length := by
  have hslash : ∀ segment ∈ splitTopic topic, separator ∉ segment := by
    intro segment hmem
    rw [splitTopic] at hmem
    split at hmem
    · cases hmem
    · exact not_mem_of_mem_splitSlash hmem
  rw [ancestorPaths, List.pairwise_map, List.pairwise_reverse]
  refine List.pairwise_lt_range.imp_of_mem ?_
  intro i j hi _ hij
  exact length_joinSlash_take hslash hij.le (List.mem_range.mp hi)

/-! ## The deepest Asset -/

theorem pairwise_sorted {α : Type} {r : α → α → Prop} [DecidableRel r] (htrans : ∀ a b c, r a b → r b c → r a c)
    (htotal : ∀ a b, r a b ∨ r b a) (l : List α) : (l.mergeSort fun a b => decide (r a b)).Pairwise r := by
  refine (List.pairwise_mergeSort ?_ ?_ l).imp of_decide_eq_true
  · intro a b c hab hbc
    exact decide_eq_true (htrans a b c (of_decide_eq_true hab) (of_decide_eq_true hbc))
  · intro a b
    rw [Bool.or_eq_true, decide_eq_true_iff, decide_eq_true_iff]
    exact htotal a b

/-- The Asset is above the topic, and no other Asset above it is deeper. -/
def IsDeepest (assets : AssetTable) (topic : Str) (e : Str × Nat × AssetRow) : Prop :=
  e ∈ assets.rows.entries ∧ covers topic e.1 = true ∧
    ∀ e' ∈ assets.rows.entries, covers topic e'.1 = true → e'.1.length ≤ e.1.length

variable {assets : AssetTable} {topic : Str} {e : Str × Nat × AssetRow}

theorem path_ne_nil (he : e ∈ assets.rows.entries) : e.1 ≠ [] := by
  intro hnil
  have hcheck := assets.checked e he
  rw [assetCheck, hnil] at hcheck
  cases hsegment : e.2.2.segment with
  | nil =>
      rw [hsegment] at hcheck
      cases hcheck
  | cons c segment =>
      rw [hsegment] at hcheck
      simp at hcheck

theorem entry_eq_of_path {e' : Str × Nat × AssetRow} (he : e ∈ assets.rows.entries) (he' : e' ∈ assets.rows.entries)
    (h : e.1 = e'.1) : e = e' := List.inj_on_of_nodup_map assets.rows.nodup he he' h

theorem entry_eq_of_id {e' : Str × Nat × AssetRow} (he : e ∈ assets.rows.entries) (he' : e' ∈ assets.rows.entries)
    (h : e.2.1 = e'.2.1) : e = e' := List.inj_on_of_nodup_map assets.ids he he' h

theorem mem_ancestors : e ∈ ancestorsOf assets topic ↔ e ∈ assets.rows.entries ∧ covers topic e.1 = true := by
  rw [ancestorsOf, List.mem_mergeSort, List.mem_filter, decide_eq_true_iff]
  exact and_congr_right fun he => mem_ancestorPaths (path_ne_nil he)

/-- The last ancestor is the deepest Asset. -/
theorem getLast?_ancestorsOf : (ancestorsOf assets topic).getLast? = some e ↔ IsDeepest assets topic e := by
  have hsorted : (ancestorsOf assets topic).Pairwise fun a b => a.1.length ≤ b.1.length := by
    exact pairwise_sorted (fun _ _ _ hab hbc => hab.trans hbc) (fun a b => Nat.le_total a.1.length b.1.length) _
  have hlast : ∀ a, (ancestorsOf assets topic).getLast? = some a → IsDeepest assets topic a := by
    intro a ha
    obtain ⟨above, habove⟩ := List.getLast?_eq_some_iff.mp ha
    obtain ⟨hmem, hcovers⟩ := mem_ancestors.mp (List.mem_of_getLast? ha)
    refine ⟨hmem, hcovers, ?_⟩
    intro b hb hbcovers
    have hin := mem_ancestors.mpr ⟨hb, hbcovers⟩
    rw [habove] at hin hsorted
    rcases List.mem_append.mp hin with hin | hin
    · exact (List.pairwise_append.mp hsorted).2.2 b hin a (List.mem_singleton_self a)
    · rw [List.mem_singleton.mp hin]
  constructor
  · exact hlast e
  · rintro ⟨he, hcovers, hdeepest⟩
    cases hfound : (ancestorsOf assets topic).getLast? with
    | none =>
        rw [List.getLast?_eq_none_iff] at hfound
        have hin := mem_ancestors.mpr ⟨he, hcovers⟩
        rw [hfound] at hin
        cases hin
    | some a =>
        obtain ⟨ha, hacovers, hadeepest⟩ := hlast a hfound
        have hlength := le_antisymm (hdeepest a ha hacovers) (hadeepest e he hcovers)
        rw [entry_eq_of_path ha he (path_eq_of_length hacovers hcovers hlength)]

/-- The Asset is the deepest of the active ones above the topic. -/
def IsBest (assets : AssetTable) (topic : Str) (e : Str × Nat × AssetRow) : Prop :=
  e ∈ assets.rows.entries ∧ e.2.2.active = true ∧ covers topic e.1 = true ∧
    ∀ e' ∈ assets.rows.entries, e'.2.2.active = true → covers topic e'.1 = true → e'.1.length ≤ e.1.length

theorem mem_candidates : e ∈ (assets.rows.entries.filter fun e => e.2.2.active && covers topic e.1) ↔
    e ∈ assets.rows.entries ∧ e.2.2.active = true ∧ covers topic e.1 = true := by
  rw [List.mem_filter, Bool.and_eq_true]

/-- The first row of `_BEST_ASSET_SQL` is the deepest active Asset. -/
theorem bestAsset_eq_some : bestAsset assets topic = some e ↔ IsBest assets topic e := by
  have hsorted : ((assets.rows.entries.filter fun e => e.2.2.active && covers topic e.1).mergeSort fun a b =>
      decide (b.1.length ≤ a.1.length)).Pairwise fun a b => b.1.length ≤ a.1.length := by
    exact pairwise_sorted (fun _ _ _ hab hbc => hbc.trans hab) (fun a b => Nat.le_total b.1.length a.1.length) _
  have hfirst : ∀ a, bestAsset assets topic = some a → IsBest assets topic a := by
    intro a ha
    rw [bestAsset] at ha
    obtain ⟨below, hbelow⟩ := List.head?_eq_some_iff.mp ha
    obtain ⟨hmem, hactive, hcovers⟩ := mem_candidates.mp (List.mem_mergeSort.mp (List.mem_of_mem_head? ha))
    refine ⟨hmem, hactive, hcovers, ?_⟩
    intro b hb hbactive hbcovers
    have hin := mem_candidates.mpr ⟨hb, hbactive, hbcovers⟩
    rw [← List.mem_mergeSort, hbelow] at hin
    rw [hbelow] at hsorted
    rcases List.mem_cons.mp hin with rfl | hin
    · exact le_refl _
    · exact List.rel_of_pairwise_cons hsorted hin
  constructor
  · exact hfirst e
  · rintro ⟨he, hactive, hcovers, hdeepest⟩
    cases hfound : bestAsset assets topic with
    | none =>
        rw [bestAsset, List.head?_eq_none_iff] at hfound
        have hin := mem_candidates.mpr ⟨he, hactive, hcovers⟩
        rw [← List.mem_mergeSort, hfound] at hin
        cases hin
    | some a =>
        obtain ⟨ha, haactive, hacovers, hadeepest⟩ := hfirst a hfound
        have hlength := le_antisymm (hdeepest a ha haactive hacovers) (hadeepest e he hactive hcovers)
        rw [entry_eq_of_path ha he (path_eq_of_length hacovers hcovers hlength)]

/-! ## Agreement -/

/-- `match_asset_path` on the paths of all Assets finds the Asset of `_load`. -/
theorem matchAssetPath_eq : matchAssetPath topic assets.rows.keys =
    (loadContext assets topic).map fun context => ⟨context.assetPath, context.metricPath⟩ := by
  rw [matchAssetPath, loadContext, Option.map_map]
  cases hlast : (ancestorsOf assets topic).getLast? with
  | none =>
      rw [List.getLast?_eq_none_iff] at hlast
      have hnone : (ancestorPaths topic).find? (fun candidate => decide (candidate ∈ assets.rows.keys)) = none := by
        refine List.find?_eq_none.mpr fun path hpath hkey => ?_
        obtain ⟨e, he, rfl⟩ := List.mem_map.mp (of_decide_eq_true hkey)
        have hin := mem_ancestors.mpr ⟨he, (mem_ancestorPaths (path_ne_nil he)).mp hpath⟩
        rw [hlast] at hin
        cases hin
      rw [hnone]
      rfl
  | some e =>
      obtain ⟨he, hcovers, hdeepest⟩ := getLast?_ancestorsOf.mp hlast
      cases hfound : (ancestorPaths topic).find? fun candidate => decide (candidate ∈ assets.rows.keys) with
      | none =>
          have hno := List.find?_eq_none.mp hfound e.1 ((mem_ancestorPaths (path_ne_nil he)).mpr hcovers)
          exact absurd (decide_eq_true (List.mem_map_of_mem he)) hno
      | some path =>
          obtain ⟨hkey, before, after, happend, hbefore⟩ := List.find?_eq_some_iff_append.mp hfound
          obtain ⟨f, hf, rfl⟩ := List.mem_map.mp (of_decide_eq_true hkey)
          have hfcovers := (mem_ancestorPaths (path_ne_nil hf)).mp (List.mem_of_find?_eq_some hfound)
          have hle := hdeepest f hf hfcovers
          -- the deepest Asset does not come before the one that is found
          have hge : e.1.length ≤ f.1.length := by
            have hin := (mem_ancestorPaths (path_ne_nil he)).mpr hcovers
            have hpairwise := pairwise_ancestorPaths topic
            rw [happend] at hin hpairwise
            rcases List.mem_append.mp hin with hin | hin
            · have hnot : e.1 ∉ assets.rows.keys := by simpa using hbefore _ hin
              exact absurd (List.mem_map_of_mem he) hnot
            · rcases List.mem_cons.mp hin with heq | hin
              · rw [heq]
              · exact List.rel_of_pairwise_cons (List.pairwise_append.mp hpairwise).2.1 hin
          have hpath := path_eq_of_length hfcovers hcovers (le_antisymm hle hge)
          rw [Option.map_some, Option.map_some, hpath]
          rfl

theorem dropWhile_slash (rest : Str) :
    (separator :: rest).dropWhile (fun c => decide (c = separator)) = rest ↔ ¬ [separator] <+: rest := by
  have hdrop : ∀ s : Str, (separator :: s).dropWhile (fun c => decide (c = separator)) =
      s.dropWhile fun c => decide (c = separator) := fun s => List.dropWhile_cons_of_pos (p := fun c => decide (c = separator)) rfl
  rw [hdrop]
  cases rest with
  | nil => exact iff_of_true rfl fun h => by cases List.prefix_nil.mp h
  | cons c rest =>
      rcases eq_or_ne c separator with rfl | hc
      · rw [hdrop]
        refine iff_of_false ?_ fun h => h ⟨rest, rfl⟩
        intro heq
        have hlength := (List.dropWhile_sublist (fun c => decide (c = separator)) (l := rest)).length_le
        rw [heq, List.length_cons] at hlength
        omega
      · rw [List.dropWhile_cons_of_neg (by simpa using hc)]
        refine iff_of_true rfl fun h => hc ?_
        obtain ⟨_, heq⟩ := h
        injection heq with hhead
        exact hhead.symm

/-- The metric paths agree unless an empty segment follows the path. -/
theorem metricPath_eq_iff {path : Str} (h : covers topic path = true) :
    metricPathBelow topic path = (if path = topic then [] else topic.drop (path.length + 1)) ↔
      ¬ path ++ [separator, separator] <+: topic := by
  rw [metricPathBelow]
  rcases covers_cases.mp h with rfl | ⟨rest, rfl⟩
  · rw [if_pos rfl, List.drop_length]
    refine iff_of_true rfl fun hprefix => ?_
    have hlength := hprefix.length_le
    rw [List.length_append] at hlength
    exact absurd hlength (by simp)
  · have hne : path ≠ path ++ separator :: rest := by simp
    have hdrop : (path ++ separator :: rest).drop (path.length + 1) = rest := by
      rw [← List.drop_drop, List.drop_left]
      rfl
    rw [if_neg hne, List.drop_left, hdrop, dropWhile_slash, List.prefix_append_right_inj]
    exact not_congr (List.prefix_cons_inj separator).symm

/-- `_load` finds the Asset of `match_asset_path`, and its binding is the stored one exactly when the
deepest Asset above the topic is active and no empty segment follows its path. -/
theorem resolutions_agree_iff (assets : AssetTable) (topic : Str) :
    matchAssetPath topic assets.rows.keys =
        (loadContext assets topic).map (fun context => ⟨context.assetPath, context.metricPath⟩) ∧
      (bindingOf (loadContext assets topic) = bindTopic assets topic ↔
        ∀ e, IsDeepest assets topic e → e.2.2.active = true ∧ ¬ e.1 ++ [separator, separator] <+: topic) := by
  refine ⟨matchAssetPath_eq, ?_⟩
  rw [loadContext, bindTopic]
  cases hlast : (ancestorsOf assets topic).getLast? with
  | none =>
      have hnone : ∀ e, ¬ IsDeepest assets topic e := by
        intro e he
        rw [getLast?_ancestorsOf.mpr he] at hlast
        cases hlast
      refine iff_of_true ?_ fun e he => absurd he (hnone e)
      cases hbest : bestAsset assets topic with
      | none => rfl
      | some e =>
          obtain ⟨he, -, hcovers, -⟩ := bestAsset_eq_some.mp hbest
          rw [List.getLast?_eq_none_iff] at hlast
          have hin := mem_ancestors.mpr ⟨he, hcovers⟩
          rw [hlast] at hin
          cases hin
  | some e =>
      have hdeepest := getLast?_ancestorsOf.mp hlast
      have honly : ∀ f, IsDeepest assets topic f → f = e := by
        intro f hf
        rw [getLast?_ancestorsOf.mpr hf] at hlast
        exact Option.some.inj hlast
      have hcondition : (∀ f, IsDeepest assets topic f → f.2.2.active = true ∧
          ¬ f.1 ++ [separator, separator] <+: topic) ↔
            e.2.2.active = true ∧ ¬ e.1 ++ [separator, separator] <+: topic :=
        ⟨fun h => h e hdeepest, fun h f hf => honly f hf ▸ h⟩
      rw [hcondition, ← metricPath_eq_iff hdeepest.2.1]
      cases hbest : bestAsset assets topic with
      | none =>
          refine iff_of_false (fun h => by cases congrArg Prod.fst h) fun h => ?_
          have hisBest : IsBest assets topic e :=
            ⟨hdeepest.1, h.1, hdeepest.2.1, fun f hf _ hcovers => hdeepest.2.2 f hf hcovers⟩
          rw [bestAsset_eq_some.mpr hisBest] at hbest
          cases hbest
      | some f =>
          obtain ⟨hf, hfactive, hfcovers, hfbest⟩ := bestAsset_eq_some.mp hbest
          constructor
          · intro h
            have hid : e.2.1 = f.2.1 := Option.some.inj (congrArg Prod.fst h)
            obtain rfl := entry_eq_of_id hdeepest.1 hf hid
            exact ⟨hfactive, congrArg Prod.snd h⟩
          · rintro ⟨hactive, hmetric⟩
            have hlength := le_antisymm (hfbest e hdeepest.1 hactive hdeepest.2.1) (hdeepest.2.2 f hf hfcovers)
            obtain rfl := entry_eq_of_path hdeepest.1 hf (path_eq_of_length hdeepest.2.1 hfcovers hlength)
            exact Prod.ext rfl hmetric

/-- One Asset, which is not active. -/
def retiredPlant : AssetTable where
  rows := ⟨[(lit "Plant", 0, ⟨none, lit "Plant", lit "SITE", false⟩)], List.nodup_singleton _⟩
  next := 1
  below := by decide
  ids := List.nodup_singleton _
  checked := by decide

/-- A topic below the retired plant has its context and a binding to nothing. -/
theorem retired_plant_disagrees :
    ¬ ∀ assets topic, bindingOf (loadContext assets topic) = bindTopic assets topic := by
  intro h
  have hplant := h retiredPlant (lit "Plant/Line1")
  have hloaded : (ancestorsOf retiredPlant (lit "Plant/Line1")).getLast? =
      some (lit "Plant", 0, ⟨none, lit "Plant", lit "SITE", false⟩) :=
    getLast?_ancestorsOf.mpr ⟨List.mem_singleton_self _, by decide, fun e' he' _ => by
      rw [List.mem_singleton.mp he']⟩
  have hunbound : bestAsset retiredPlant (lit "Plant/Line1") = none := by
    cases hbest : bestAsset retiredPlant (lit "Plant/Line1") with
    | none => rfl
    | some e =>
        obtain ⟨he, hactive, -⟩ := bestAsset_eq_some.mp hbest
        rw [List.mem_singleton.mp he] at hactive
        cases hactive
  rw [loadContext, hloaded, bindTopic, hunbound] at hplant
  cases congrArg Prod.fst hplant

end Uns.Model
