/-
# `Console.AlarmTopics` — which topics a rule is evaluated on

The test of `AlarmContext.tsx` against the rules of MQTT.  A filter that ends in `/#` is read as a
prefix without its slash, a wildcard at the start is not read at all, and `+` becomes an expression
that does not match an empty level; `*` is every topic.  What `RegExp` does is assumed for the
expressions of plain characters and such levels (`TestsItems`).  Filters without a wildcard are read
as they should be (`evaluates_iff`).
-/
import UnifiedNamespace.Console.Alarms
import UnifiedNamespace.Mqtt.TopicFilters

namespace Uns.Console

open Py Model Mqtt

/-! ## Expressions of levels -/

/-- A character that stands for itself, or `[^/]+`. -/
inductive PatternItem where
  | char (c : Nat)
  | level

def PatternItem.text : PatternItem → Str
  | char c => [c]
  | level => lit "[^/]+"

/-- `^ $ \ . * + ? ( ) [ ] |` and the braces. -/
def syntaxChars : Str := [94, 36, 92, 46, 42, 43, 63, 40, 41, 91, 93, 123, 125, 124]

/-- The texts that items stand for. -/
inductive Denotes : List PatternItem → Str → Prop
  | nil : Denotes [] []
  | char {items : List PatternItem} {s : Str} (c : Nat) (rest : Denotes items s) : Denotes (.char c :: items) (c :: s)
  | level {items : List PatternItem} {segment s : Str} (nonempty : segment ≠ []) (noSlash : separator ∉ segment)
      (rest : Denotes items s) : Denotes (.level :: items) (segment ++ s)

/-- `RegExp` on items between `^` and `$`. -/
def Js.TestsItems (js : Js) : Prop := ∀ items : List PatternItem, (∀ c, .char c ∈ items → c ∉ syntaxChars) → ∀ s,
  ∃ found, js.testPattern (lit "^" ++ items.flatMap PatternItem.text ++ lit "$") s = some found ∧
    (found = true ↔ Denotes items s)

theorem denotes_append {xs ys : List PatternItem} {s : Str} :
    Denotes (xs ++ ys) s ↔ ∃ u v, s = u ++ v ∧ Denotes xs u ∧ Denotes ys v := by
  induction xs generalizing s with
  | nil =>
      constructor
      · intro h
        exact ⟨[], s, rfl, .nil, h⟩
      · rintro ⟨u, v, rfl, hu, hv⟩
        cases hu
        exact hv
  | cons x xs ih =>
      rw [List.cons_append]
      constructor
      · intro h
        cases h with
        | char c hrest =>
            obtain ⟨u, v, rfl, hu, hv⟩ := ih.mp hrest
            exact ⟨c :: u, v, rfl, .char c hu, hv⟩
        | level hne hslash hrest =>
            obtain ⟨u, v, rfl, hu, hv⟩ := ih.mp hrest
            exact ⟨_ ++ u, v, (List.append_assoc ..).symm, .level hne hslash hu, hv⟩
      · rintro ⟨u, v, rfl, hu, hv⟩
        cases hu with
        | char c hrest => exact .char c (ih.mpr ⟨_, v, rfl, hrest, hv⟩)
        | level hne hslash hrest =>
            rw [List.append_assoc]
            exact .level hne hslash (ih.mpr ⟨_, v, rfl, hrest, hv⟩)

theorem denotes_chars {w s : Str} : Denotes (w.map .char) s ↔ s = w := by
  induction w generalizing s with
  | nil =>
      constructor
      · intro h
        cases h
        rfl
      · rintro rfl
        exact .nil
  | cons c w ih =>
      constructor
      · intro h
        cases h with
        | char _ hrest => rw [ih.mp hrest]
      · rintro rfl
        exact .char c (ih.mpr rfl)

theorem denotes_level {s : Str} : Denotes [.level] s ↔ s ≠ [] ∧ separator ∉ s := by
  constructor
  · intro h
    cases h with
    | level hne hslash hrest =>
        cases hrest
        rw [List.append_nil]
        exact ⟨hne, hslash⟩
  · rintro ⟨hne, hslash⟩
    rw [← List.append_nil s]
    exact .level hne hslash .nil

/-! ## The expression of a filter -/

def filterItems (filter : Str) : List PatternItem := filter.map fun c => if c = 43 then .level else .char c

theorem topicPattern_eq (filter : Str) :
    topicPattern filter = lit "^" ++ (filterItems filter).flatMap PatternItem.text ++ lit "$" := by
  have hitem : ∀ c : Nat, (if c = 43 then lit "[^/]+" else [c]) =
      (if c = 43 then PatternItem.level else .char c).text := by
    intro c
    split <;> rfl
  rw [topicPattern, filterItems, List.flatMap_map]
  simp only [hitem]

/-- What the expression of a level matches. -/
def FillsLevel (level segment : Str) : Prop := if level = lit "+" then segment ≠ [] else segment = level

theorem denotes_filterLevel {level s : Str} (hplus : 43 ∈ level → level = lit "+") (hslash : separator ∉ level) :
    Denotes (filterItems level) s ↔ separator ∉ s ∧ FillsLevel level s := by
  rw [FillsLevel]
  split
  · next h =>
    rw [h]
    exact denotes_level.trans and_comm
  · next h =>
    have hno : 43 ∉ level := fun hmem => h (hplus hmem)
    have hchars : filterItems level = level.map .char :=
      List.map_congr_left fun c hc => if_neg fun (hc' : c = 43) => hno (hc' ▸ hc)
    rw [hchars, denotes_chars]
    exact ⟨fun heq => ⟨heq ▸ hslash, heq⟩, fun hs => hs.2⟩

/-- Level by level. -/
theorem denotes_levels {levels : List Str} (hne : levels ≠ []) (hslashes : ∀ level ∈ levels, separator ∉ level)
    (hpluses : ∀ level ∈ levels, 43 ∈ level → level = lit "+") : ∀ {s : Str},
    Denotes (filterItems (joinSlash levels)) s ↔ List.Forall₂ FillsLevel levels (splitSlash s) := by
  induction levels with
  | nil => exact absurd rfl hne
  | cons level levels ih =>
      intro s
      obtain ⟨hslash, hlater⟩ := List.forall_mem_cons.mp hslashes
      obtain ⟨hplus, hlater'⟩ := List.forall_mem_cons.mp hpluses
      cases levels with
      | nil =>
          rw [joinSlash_singleton, denotes_filterLevel hplus hslash]
          constructor
          · rintro ⟨hs, hfills⟩
            rw [splitSlash_of_no_slash hs]
            exact .cons hfills .nil
          · intro h
            obtain ⟨segment, rest, hfills, hrest, hsplit⟩ := List.forall₂_cons_left_iff.mp h
            cases List.forall₂_nil_left_iff.mp hrest
            have hs : s = segment := by rw [← joinSlash_splitSlash s, hsplit, joinSlash_singleton]
            rw [hs]
            exact ⟨not_mem_of_mem_splitSlash (hsplit ▸ List.mem_cons_self), hfills⟩
      | cons level' levels =>
          have hitems : filterItems (joinSlash (level :: level' :: levels)) =
              filterItems level ++ ([separator].map .char ++ filterItems (joinSlash (level' :: levels))) := by
            rw [joinSlash_cons_cons, filterItems, List.map_append, List.map_cons]
            rfl
          simp only [hitems, denotes_append, denotes_chars, denotes_filterLevel hplus hslash,
            ih (List.cons_ne_nil _ _) hlater hlater']
          constructor
          · rintro ⟨u, _, rfl, ⟨hu, hfills⟩, _, v, rfl, rfl, hrest⟩
            rw [List.singleton_append, splitSlash_append, splitSlash_of_no_slash hu]
            exact .cons hfills hrest
          · intro h
            obtain ⟨segment, rest, hfills, hrest, hsplit⟩ := List.forall₂_cons_left_iff.mp h
            have hsegments : ∀ x ∈ segment :: rest, separator ∉ x := fun x hx =>
              not_mem_of_mem_splitSlash (hsplit ▸ hx)
            obtain ⟨next, others, -, -, rfl⟩ := List.forall₂_cons_left_iff.mp hrest
            have hs : s = segment ++ ([separator] ++ joinSlash (next :: others)) := by
              rw [← joinSlash_splitSlash s, hsplit, joinSlash_cons_cons]
              rfl
            refine ⟨segment, _, hs, ⟨hsegments _ List.mem_cons_self, hfills⟩, [separator], _, rfl, rfl, ?_⟩
            rw [splitSlash_joinSlash (List.cons_ne_nil _ _) fun x hx => hsegments x (List.mem_cons_of_mem _ hx)]
            exact hrest

/-- No character of the filter but `+` is syntax of an expression. -/
def PlainPattern (filter : Str) : Prop := ∀ c ∈ filter, c = 43 ∨ c ∉ syntaxChars

instance (filter : Str) : Decidable (PlainPattern filter) := inferInstanceAs (Decidable (∀ c ∈ _, _ ∨ _))

theorem testPattern_filter {js : Js} (hjs : js.TestsItems) {filter : Str} (hvalid : ValidFilter filter)
    (hplain : PlainPattern filter) (topic : Str) : js.testPattern (topicPattern filter) topic = some true ↔
      List.Forall₂ FillsLevel (splitSlash filter) (splitSlash topic) := by
  have hitems : ∀ c, .char c ∈ filterItems filter → c ∉ syntaxChars := by
    intro c hc
    obtain ⟨d, hd, heq⟩ := List.mem_map.mp hc
    split at heq
    · cases heq
    · next hne =>
      cases heq
      exact (hplain c hd).resolve_left hne
  obtain ⟨found, htest, hfound⟩ := hjs (filterItems filter) hitems topic
  rw [topicPattern_eq, htest, Option.some.injEq, hfound]
  have hlevels := @denotes_levels (splitSlash filter) (splitSlash_ne_nil filter)
    (fun level hlevel => not_mem_of_mem_splitSlash hlevel) hvalid.plus topic
  rwa [joinSlash_splitSlash] at hlevels

/-! ## The rules of MQTT -/

/-- The filter begins with a wildcard, and the topic with `$`. -/
def hidden (filter topic : Str) : Bool :=
  filter.head?.any (fun c => decide (c = 43 ∨ c = 35)) && decide (topic.head? = some 36)

def filterMatches (filter topic : Str) : Bool := mqttMatches filter topic && !hidden filter topic

/-- No `+` of the filter stands for an empty level. -/
def NoEmptyLevel (filter topic : Str) : Prop :=
  ∀ pair ∈ (splitSlash filter).zip (splitSlash topic), pair.1 = lit "+" → pair.2 ≠ []

instance (filter topic : Str) : Decidable (NoEmptyLevel filter topic) :=
  inferInstanceAs (Decidable (∀ pair ∈ _, _ → _))

/-- The topics on which the test reads a filter as the rules do. -/
def Meets (filter topic : Str) : Prop :=
  if filter = lit "*" then topic = lit "*"
  else if 43 ∉ filter ∧ 35 ∉ filter then True
  else if 43 ∉ filter ∧ filter ≠ lit "#" then
    filter.take (filter.length - 2) <+: topic → covers topic (filter.take (filter.length - 2)) = true
  else if lit "/+" <:+: filter ∧ ¬PlainPattern filter then False
  else if lit "/+" <:+: filter ∧ 35 ∉ filter then
    mqttMatches filter topic = true → (NoEmptyLevel filter topic ↔ hidden filter topic = false)
  else filterMatches filter topic = false

instance (filter topic : Str) : Decidable (Meets filter topic) :=
  inferInstanceAs (Decidable (ite _ _ (ite _ _ (ite _ _ (ite _ _ (ite _ _ _))))))

section Rules

variable {filter topic : Str}

/-- Levels without wildcards are matched by themselves. -/
theorem forall₂_plain {levels segments : List Str} (h : ∀ level ∈ levels, level ≠ lit "+") :
    List.Forall₂ (fun level segment => levelMatches level segment = true) levels segments ↔ segments = levels := by
  induction levels generalizing segments with
  | nil => rw [List.forall₂_nil_left_iff]
  | cons level levels ih =>
      obtain ⟨hlevel, hlevels⟩ := List.forall_mem_cons.mp h
      cases segments with
      | nil => exact iff_of_false (fun h => by cases h) fun h => by cases h
      | cons segment segments =>
          rw [List.forall₂_cons, ih hlevels, levelMatches, decide_eq_false hlevel, Bool.false_or, decide_eq_true_eq,
            List.cons.injEq]
          exact and_congr_left' eq_comm

theorem level_mem {c : Nat} {level : Str} (h : level ∈ splitSlash filter) (hc : c ∈ level) (hslash : c ≠ separator) :
    c ∈ filter := (mem_splitSlash_iff hslash).mpr ⟨level, h, hc⟩

theorem levels_plain (h : 43 ∉ filter) : ∀ level ∈ splitSlash filter, level ≠ lit "+" := by
  rintro level hlevel rfl
  exact h (level_mem hlevel List.mem_cons_self (by decide))

theorem levels_noHash (h : 35 ∉ filter) : lit "#" ∉ splitSlash filter := fun hmem =>
  h (level_mem hmem List.mem_cons_self (by decide))

theorem hidden_eq_false (h : ∀ c ∈ filter.head?, c ≠ 43 ∧ c ≠ 35) : hidden filter topic = false := by
  rw [hidden]
  cases hhead : filter.head? with
  | none => rfl
  | some c =>
      obtain ⟨hplus, hhash⟩ := h c hhead
      have hc : ¬(c = 43 ∨ c = 35) := fun hor => hor.elim hplus hhash
      rw [Option.any_some, decide_eq_false hc, Bool.false_and]

/-- Without a wildcard a filter matches itself. -/
theorem filterMatches_plain (hplus : 43 ∉ filter) (hhash : 35 ∉ filter) :
    filterMatches filter topic = true ↔ topic = filter := by
  have hhidden : hidden filter topic = false := hidden_eq_false fun c hc =>
    ⟨fun h => hplus (h ▸ List.mem_of_mem_head? hc), fun h => hhash (h ▸ List.mem_of_mem_head? hc)⟩
  rw [filterMatches, hhidden, Bool.not_false, Bool.and_true, mqttMatches, levelsMatch_iff (levels_noHash hhash),
    forall₂_plain (levels_plain hplus)]
  exact splitSlash_injective.eq_iff

/-- A filter with `#` ends in it. -/
theorem split_hash (hvalid : ValidFilter filter) (hhash : 35 ∈ filter) :
    ∃ levels, splitSlash filter = levels ++ [lit "#"] ∧ lit "#" ∉ levels := by
  obtain ⟨levels, last, hsplit⟩ := (List.eq_nil_or_concat' (splitSlash filter)).resolve_left (splitSlash_ne_nil filter)
  have hinit := hvalid.hashLast
  rw [hsplit, List.dropLast_concat] at hinit
  obtain ⟨level, hlevel, hmem⟩ := (mem_splitSlash_iff (by decide)).mp hhash
  have hlast := hvalid.hash level hlevel hmem
  rw [hsplit, hlast] at hlevel
  exact ⟨levels, by rw [hsplit, List.mem_singleton.mp ((List.mem_append.mp hlevel).resolve_left hinit)], hinit⟩

/-- A filter that begins with `#` is only that. -/
theorem eq_hash (hvalid : ValidFilter filter) (h : 35 ∈ filter.head?) : filter = lit "#" := by
  obtain ⟨rest, rfl⟩ : ∃ rest, filter = 35 :: rest := by
    cases filter with
    | nil => cases h
    | cons c rest => exact ⟨rest, by rw [Option.some.inj h]⟩
  obtain ⟨first, segments, hrest⟩ := List.exists_cons_of_ne_nil (splitSlash_ne_nil rest)
  have hsplit : splitSlash (35 :: rest) = (35 :: first) :: segments := splitSlash_cons (by decide) hrest
  have hfirst : 35 :: first = lit "#" := hvalid.hash _ (hsplit ▸ List.mem_cons_self) List.mem_cons_self
  have hlast := hvalid.hashLast
  rw [hsplit, hfirst] at hlast
  cases segments with
  | nil => rw [← joinSlash_splitSlash (35 :: rest), hsplit, hfirst, joinSlash_singleton]
  | cons next segments => exact absurd List.mem_cons_self hlast

/-- A filter with levels before `#` is written with a slash between. -/
theorem eq_below {levels : List Str} (hsplit : splitSlash filter = levels ++ [lit "#"]) (hne : levels ≠ []) :
    filter = joinSlash levels ++ lit "/#" := by
  rw [← joinSlash_splitSlash filter, hsplit, joinSlash_append hne (List.cons_ne_nil _ _), joinSlash_singleton]
  rfl

theorem take_below (path : Str) : (path ++ lit "/#").take ((path ++ lit "/#").length - 2) = path := by
  rw [List.length_append]
  exact List.take_left' rfl

/-- What a filter with `#` and no `+` matches is what its path covers. -/
theorem filterMatches_below (hvalid : ValidFilter filter) (hplus : 43 ∉ filter) (hhash : 35 ∈ filter)
    (hne : filter ≠ lit "#") : ∃ path, filter = path ++ lit "/#" ∧
      (filterMatches filter topic = true ↔ covers topic path = true) := by
  obtain ⟨levels, hsplit, hinit⟩ := split_hash hvalid hhash
  have hlevels : levels ≠ [] := by
    rintro rfl
    refine hne ?_
    rw [← joinSlash_splitSlash filter, hsplit, List.nil_append, joinSlash_singleton]
  have hslash : ∀ level ∈ levels, separator ∉ level := fun level hlevel =>
    not_mem_of_mem_splitSlash (s := filter) (hsplit ▸ List.mem_append_left _ hlevel)
  have hplain : ∀ level ∈ levels, level ≠ lit "+" := fun level hlevel =>
    levels_plain hplus level (hsplit ▸ List.mem_append_left _ hlevel)
  have heq := eq_below hsplit hlevels
  have hhidden : hidden filter topic = false := hidden_eq_false fun c hc =>
    ⟨fun h => hplus (h ▸ List.mem_of_mem_head? hc), fun h => hne (eq_hash hvalid (h ▸ hc))⟩
  refine ⟨joinSlash levels, heq, ?_⟩
  rw [filterMatches, hhidden, Bool.not_false, Bool.and_true, mqttMatches, hsplit, levelsMatch_below hinit, covers_iff,
    splitSlash_joinSlash hlevels hslash]
  simp only [forall₂_plain hplain]
  constructor
  · rintro ⟨above, below, h, rfl⟩
    exact ⟨below, h.symm⟩
  · rintro ⟨below, h⟩
    exact ⟨levels, below, h.symm, rfl⟩

/-- The expression matches what the levels match, but for empty levels. -/
theorem forall₂_fills {levels segments : List Str} : List.Forall₂ FillsLevel levels segments ↔
    List.Forall₂ (fun level segment => levelMatches level segment = true) levels segments ∧
      ∀ pair ∈ levels.zip segments, pair.1 = lit "+" → pair.2 ≠ [] := by
  induction levels generalizing segments with
  | nil =>
      rw [List.forall₂_nil_left_iff, List.forall₂_nil_left_iff]
      exact ⟨fun h => ⟨h, fun pair hpair => absurd hpair List.not_mem_nil⟩, And.left⟩
  | cons level levels ih =>
      cases segments with
      | nil => exact iff_of_false (fun h => by cases h) fun h => by cases h.1
      | cons segment segments =>
          rw [List.forall₂_cons, List.forall₂_cons, ih, List.zip_cons_cons, List.forall_mem_cons, FillsLevel, levelMatches,
            Bool.or_eq_true, decide_eq_true_eq, decide_eq_true_eq]
          by_cases hlevel : level = lit "+"
          · simp only [hlevel, if_true, true_or, true_and, true_imp_iff]
            exact and_left_comm
          · simp only [hlevel, if_false, false_or, false_imp_iff, true_and, eq_comm, and_assoc]

end Rules

/-! ## The test of the console -/

section Test

variable {js : Js} {rule : AlertRule} {topic : Str}

theorem topicMatches_iff : topicMatches js rule topic = some true ↔ rule.topic = lit "*" ∨ rule.topic = topic ∨
    (lit "/#" <:+ rule.topic ∧ rule.topic.take (rule.topic.length - 2) <+: topic) ∨
      (lit "/+" <:+: rule.topic ∧ js.testPattern (topicPattern rule.topic) topic = some true) := by
  rw [topicMatches]
  split
  · next h => exact iff_of_true rfl (.inl h)
  · next h =>
    rw [or_iff_right h]
    split
    · next h => exact iff_of_true rfl (.inl h)
    · next h =>
      rw [or_iff_right h]
      split
      · next h => exact iff_of_true rfl (.inl h)
      · next h =>
        rw [or_iff_right h]
        split
        · next h => exact (and_iff_right h).symm
        · next h => exact iff_of_false (fun heq => by cases heq) fun hin => h hin.1

theorem mem_of_inside {c : Nat} {s t : Str} (h : s <:+: t) (hc : c ∈ s) : c ∈ t := h.subset hc

theorem plus_of_inside {filter : Str} (h : lit "/+" <:+: filter) : 43 ∈ filter := h.subset (by decide)

/-- A path with a `+` is no prefix of a topic. -/
theorem prefix_only_plain {filter : Str} (htopic : ValidTopic topic) (hplus : 43 ∈ filter) :
    ¬(lit "/#" <:+ filter ∧ filter.take (filter.length - 2) <+: topic) := by
  rintro ⟨⟨path, rfl⟩, hstart⟩
  rw [take_below] at hstart
  rcases List.mem_append.mp hplus with hmem | hmem
  · exact htopic.noWildcard.1 (hstart.subset hmem)
  · exact absurd hmem (by decide)

/-- The expression of a filter with `#` matches no topic. -/
theorem not_filled_of_hash {filter : Str} (htopic : ValidTopic topic) (hvalid : ValidFilter filter) (hhash : 35 ∈ filter) :
    ¬List.Forall₂ FillsLevel (splitSlash filter) (splitSlash topic) := by
  intro h
  obtain ⟨levels, hsplit, -⟩ := split_hash hvalid hhash
  have hmem : lit "#" ∈ splitSlash filter := hsplit ▸ List.mem_append_right _ List.mem_cons_self
  obtain ⟨i, hi⟩ := List.mem_iff_getElem?.mp hmem
  have hlen := h.length_eq
  have hlt : i < (splitSlash topic).length := hlen ▸ (List.getElem?_eq_some_iff.mp hi).1
  have hfills : FillsLevel (lit "#") ((splitSlash topic).get ⟨i, hlt⟩) := by
    have hget := (List.forall₂_iff_get.mp h).2 i (List.getElem?_eq_some_iff.mp hi).1 hlt
    have hlevel := (List.getElem?_eq_some_iff.mp hi).2
    rwa [List.get_eq_getElem, hlevel] at hget
  rw [FillsLevel, if_neg (by decide)] at hfills
  have hin : lit "#" ∈ splitSlash topic := hfills ▸ List.get_mem _ _
  exact htopic.noWildcard.2 (level_mem hin List.mem_cons_self (by decide))

/-- On such a topic a rule is evaluated exactly when its filter matches.  On any other it is not so,
unless a level of the filter is itself an expression. -/
theorem evaluates_iff (hjs : js.TestsItems) (hvalid : ValidFilter rule.topic) (htopic : ValidTopic topic) :
    (Meets rule.topic topic → (topicMatches js rule topic = some true ↔ filterMatches rule.topic topic = true)) ∧
      ((lit "/+" <:+: rule.topic → PlainPattern rule.topic) →
        (topicMatches js rule topic = some true ↔ filterMatches rule.topic topic = true) → Meets rule.topic topic) := by
  rw [topicMatches_iff, Meets]
  generalize rule.topic = filter at hvalid
  by_cases hstar : filter = lit "*"
  · -- `*` is every topic
    rw [if_pos hstar, hstar]
    have hself := @filterMatches_plain (lit "*") topic (by decide) (by decide)
    exact ⟨fun h => iff_of_true (.inl rfl) (hself.mpr h), fun _ h => hself.mp (h.mp (.inl rfl))⟩
  rw [if_neg hstar, or_iff_right hstar]
  by_cases hplain : 43 ∉ filter ∧ 35 ∉ filter
  · rw [if_pos hplain, filterMatches_plain hplain.1 hplain.2]
    refine ⟨fun _ => ⟨?_, fun h => .inl h.symm⟩, fun _ _ => trivial⟩
    rintro (h | ⟨h, -⟩ | ⟨h, -⟩)
    · exact h.symm
    · exact absurd (h.subset (by decide)) hplain.2
    · exact absurd (mem_of_inside h (by decide)) hplain.1
  rw [if_neg hplain]
  have hwild : 43 ∈ filter ∨ 35 ∈ filter := not_not.mp fun h => hplain (not_or.mp h)
  have hne : filter ≠ topic := by
    rintro rfl
    exact hwild.elim htopic.noWildcard.1 htopic.noWildcard.2
  rw [or_iff_right hne]
  by_cases hbelow : 43 ∉ filter ∧ filter ≠ lit "#"
  · -- a path and `/#`
    rw [if_pos hbelow]
    obtain ⟨path, rfl, hmatches⟩ : ∃ path, filter = path ++ lit "/#" ∧
        (filterMatches filter topic = true ↔ covers topic path = true) :=
      filterMatches_below hvalid hbelow.1 (hwild.resolve_left hbelow.1) hbelow.2
    have hcode : ((lit "/#" <:+ path ++ lit "/#" ∧ path <+: topic) ∨ (lit "/+" <:+: path ++ lit "/#" ∧
        js.testPattern (topicPattern (path ++ lit "/#")) topic = some true)) ↔ path <+: topic := by
      rw [or_iff_left fun h => hbelow.1 (plus_of_inside h.1), and_iff_right (List.suffix_append _ _)]
    have hcovered : covers topic path = true → path <+: topic := by
      intro h
      rcases covers_cases.mp h with rfl | ⟨rest, rfl⟩
      · exact List.prefix_rfl
      · exact List.prefix_append _ _
    rw [take_below, hcode, hmatches]
    exact ⟨fun h => ⟨h, hcovered⟩, fun _ h => h.mp⟩
  rw [if_neg hbelow]
  by_cases hsyntax : lit "/+" <:+: filter ∧ ¬PlainPattern filter
  · rw [if_pos hsyntax]
    exact ⟨False.elim, fun h _ => hsyntax.2 (h hsyntax.1)⟩
  rw [if_neg hsyntax]
  by_cases hlevels : lit "/+" <:+: filter ∧ 35 ∉ filter
  · -- the levels as an expression
    rw [if_pos hlevels, or_iff_right (prefix_only_plain htopic (plus_of_inside hlevels.1)), and_iff_right hlevels.1,
      testPattern_filter hjs hvalid (not_not.mp fun h => hsyntax ⟨hlevels.1, h⟩), forall₂_fills, filterMatches,
      Bool.and_eq_true, Bool.not_eq_true', mqttMatches, levelsMatch_iff (levels_noHash hlevels.2)]
    exact ⟨fun h => and_congr_right h, fun _ h hmatch => and_congr_right_iff.mp h hmatch⟩
  · -- the test finds nothing
    have hnever : ¬((lit "/#" <:+ filter ∧ filter.take (filter.length - 2) <+: topic) ∨
        (lit "/+" <:+: filter ∧ js.testPattern (topicPattern filter) topic = some true)) := by
      rintro (h | ⟨hin, htest⟩)
      · by_cases hplus : 43 ∈ filter
        · exact prefix_only_plain htopic hplus h
        · have hhash : filter = lit "#" := not_not.mp fun hne => hbelow ⟨hplus, hne⟩
          rw [hhash] at h
          exact absurd h.1 (by decide)
      · have hhash : 35 ∈ filter := not_not.mp fun hno => hlevels ⟨hin, hno⟩
        rw [testPattern_filter hjs hvalid (not_not.mp fun h => hsyntax ⟨hin, h⟩)] at htest
        exact not_filled_of_hash htopic hvalid hhash htest
    rw [if_neg hlevels, iff_false_left hnever, Bool.not_eq_true]
    exact ⟨fun h => h, fun _ h => h⟩

end Test

/-! ## A plant -/

/-- The items of an expression, up to its `$`. -/
def readItems : Str → Option (List PatternItem)
  | [] => none
  | 91 :: 94 :: 47 :: 93 :: 43 :: rest => (readItems rest).map fun items => .level :: items
  | c :: rest =>
      if c ∈ syntaxChars then (if c = 36 ∧ rest = [] then some [] else none)
      else (readItems rest).map fun items => .char c :: items

def matchItems : List PatternItem → Str → Bool
  | [], s => s.isEmpty
  | .char _ :: _, [] => false
  | .char c :: items, d :: s => decide (c = d) && matchItems items s
  | .level :: items, s => (List.range s.length).any fun n =>
      decide (separator ∉ s.take (n + 1)) && matchItems items (s.drop (n + 1))

theorem readItems_text {items : List PatternItem} (h : ∀ c, .char c ∈ items → c ∉ syntaxChars) :
    readItems (items.flatMap PatternItem.text ++ lit "$") = some items := by
  induction items with
  | nil => rfl
  | cons item items ih =>
      have hrest := ih fun c hc => h c (List.mem_cons_of_mem _ hc)
      rw [List.flatMap_cons, List.append_assoc]
      cases item with
      | level =>
          change readItems (91 :: 94 :: 47 :: 93 :: 43 :: (items.flatMap PatternItem.text ++ lit "$")) = _
          rw [readItems, hrest]
          rfl
      | char c =>
          have hc := h c List.mem_cons_self
          change readItems (c :: (items.flatMap PatternItem.text ++ lit "$")) = _
          rw [readItems, if_neg hc, hrest]
          · rfl
          · rintro rest heq
            rw [heq] at hc
            exact absurd (by decide) hc

theorem matchItems_iff {items : List PatternItem} {s : Str} : matchItems items s = true ↔ Denotes items s := by
  induction items generalizing s with
  | nil =>
      rw [matchItems, List.isEmpty_iff]
      exact ⟨fun h => h ▸ .nil, fun h => by cases h; rfl⟩
  | cons item items ih =>
      cases item with
      | char c =>
          cases s with
          | nil => exact iff_of_false (fun h => by cases h) fun h => by cases h
          | cons d s =>
              rw [matchItems, Bool.and_eq_true, decide_eq_true_iff, ih]
              constructor
              · rintro ⟨rfl, h⟩
                exact .char c h
              · intro h
                cases h with
                | char _ hrest => exact ⟨rfl, hrest⟩
      | level =>
          simp only [matchItems, List.any_eq_true, List.mem_range, Bool.and_eq_true, decide_eq_true_iff, ih]
          constructor
          · rintro ⟨n, hn, hslash, h⟩
            rw [← List.take_append_drop (n + 1) s]
            refine .level (List.ne_nil_of_length_pos ?_) hslash h
            rw [List.length_take]
            omega
          · intro h
            cases h with
            | @level _ segment t hne hslash hrest =>
                obtain ⟨n, hn⟩ := Nat.exists_eq_add_one_of_ne_zero (List.length_pos_iff.mpr hne).ne'
                refine ⟨n, by rw [List.length_append]; omega, ?_, ?_⟩
                · rwa [← hn, List.take_left' rfl]
                · rwa [← hn, List.drop_left' rfl]

/-- Numbers and texts that do not matter here, and expressions of items. -/
def itemsJs : Js where
  text := fun _ => []
  parseFloat := fun _ => .nan
  toLowerCase := fun s => s
  testPattern := fun pattern s => (readItems (pattern.drop 1)).map fun items => matchItems items s

theorem itemsJs_testsItems : itemsJs.TestsItems := by
  intro items h s
  have hread : readItems ((lit "^" ++ items.flatMap PatternItem.text ++ lit "$").drop 1) = some items := readItems_text h
  refine ⟨matchItems items s, ?_, matchItems_iff⟩
  change (readItems _).map _ = _
  rw [hread]
  rfl

def ruleOn (topic : Str) : AlertRule := ⟨lit "r1", true, topic, lit "value", .greaterThan, .number (.finite 5), none, true⟩

/-- A rule on the temperatures of a line. -/
theorem temperatures_evaluated :
    topicMatches itemsJs (ruleOn (lit "line/+/temperature")) (lit "line/press/temperature") = some true ↔
      filterMatches (lit "line/+/temperature") (lit "line/press/temperature") = true :=
  (evaluates_iff itemsJs_testsItems ⟨by decide, by decide, by decide, by decide, by decide⟩
    ⟨by decide, by decide, by decide⟩).1 (by decide)

/-- A rule on everything below `line1` is evaluated on `line10`. -/
theorem other_line_evaluated : ¬ ∃ js : Js, ∀ (rule : AlertRule) (topic : Str), ValidFilter rule.topic → ValidTopic topic →
    (topicMatches js rule topic = some true ↔ filterMatches rule.topic topic = true) := by
  rintro ⟨js, h⟩
  have hline := h (ruleOn (lit "line1/#")) (lit "line10") ⟨by decide, by decide, by decide, by decide, by decide⟩
    ⟨by decide, by decide, by decide⟩
  have hevaluated : topicMatches js (ruleOn (lit "line1/#")) (lit "line10") = some true :=
    topicMatches_iff.mpr (.inr (.inr (.inl (by decide))))
  exact absurd (hline.mp hevaluated) (by decide)

end Uns.Console
