/-
# `Mqtt.TopicFilters` — topic filters as regular expressions

`mqtt_listener.py`: `is_topic_matched` writes a topic filter as the text of a regular
expression and matches the whole topic with it.  The two wildcards become patterns;
the other levels are written as they are, so a character of a level that is special
in a pattern is read as such, and `.` stands for anything but a line feed.

For the filters whose levels are plain text the answer is that of the MQTT rules,
unless a line feed stands in the part of the topic that `#` covers
(`topic_matched_iff`).
-/
import UnifiedNamespace.Model.TopicPath
import UnifiedNamespace.Python.Re

namespace Uns.Mqtt

open Py Lib Model

/-! ## The code -/

structure RegexState where
  parts : List Str
  lastValue : Option Str

/-- One turn of the loop over the levels. -/
def regexStep (st : RegexState) (currValue : Str) : RegexState where
  parts :=
    if currValue = lit "+" then st.parts ++ [lit "[^/]*/"]
    else if currValue = lit "#" then
      match st.lastValue with
      | none => st.parts ++ [lit "(.*)*/"]
      | some _ => st.parts.dropLast ++ [(st.parts.getLast?.getD []).dropLast ++ lit "(/.*)*"]
    else st.parts ++ [currValue ++ lit "/"]
  lastValue := some currValue

def getRegexForTopicWithWildcard (topicWithWildcard : Str) : Str :=
  let regexExp := ((splitSlash topicWithWildcard).foldl regexStep ⟨[], none⟩).parts.flatten
  if 1 < regexExp.length ∧ regexExp.getLast? = some separator then regexExp.dropLast else regexExp

def isTopicMatched (topicWithWildcard : Option Str) (topic : Str) : Except ReFault Bool :=
  match topicWithWildcard with
  | some topicWithWildcard => fullmatch (getRegexForTopicWithWildcard topicWithWildcard) topic
  | none => .ok false

/-! ## The rules of MQTT -/

/-- `+` is one whole level, every other level is itself. -/
def levelMatches (level segment : Str) : Bool := decide (level = lit "+") || decide (level = segment)

/-- `#` at the end is the level above it and everything below. -/
def levelsMatch : List Str → List Str → Bool
  | [], segments => segments.isEmpty
  | level :: levels, [] => decide (level = lit "#" ∧ levels = [])
  | level :: levels, segment :: segments =>
      decide (level = lit "#" ∧ levels = []) || (levelMatches level segment && levelsMatch levels segments)

def mqttMatches (filter topic : Str) : Bool := levelsMatch (splitSlash filter) (splitSlash topic)

/-- A wildcard is a level of its own, `#` the last one. -/
structure ValidFilter (filter : Str) : Prop where
  nonempty : filter ≠ []
  noNull : 0 ∉ filter
  plus : ∀ level ∈ splitSlash filter, 43 ∈ level → level = lit "+"
  hash : ∀ level ∈ splitSlash filter, 35 ∈ level → level = lit "#"
  hashLast : lit "#" ∉ (splitSlash filter).dropLast

/-- No level but a wildcard has pattern syntax in it. -/
def PlainFilter (filter : Str) : Prop := ∀ level ∈ splitSlash filter, level = lit "+" ∨ plainText level = true

instance (filter : Str) : Decidable (PlainFilter filter) := inferInstanceAs (Decidable (∀ level ∈ _, _ ∨ _))

/-- The part of the topic that `#` covers has a line feed. -/
def LineFeedBelow (filter topic : Str) : Prop :=
  lit "#" ∈ splitSlash filter ∧ mqttMatches filter topic = true ∧
    ∃ segment ∈ (splitSlash topic).drop ((splitSlash filter).length - 1), 10 ∈ segment

/-! ## The text of the expression -/

/-- What a level other than `#` is written as. -/
def levelText (level : Str) : Str := if level = lit "+" then lit "[^/]*" else level

theorem regexStep_level {level : Str} (h : level ≠ lit "#") (st : RegexState) :
    regexStep st level = ⟨st.parts ++ [levelText level ++ [separator]], some level⟩ := by
  rw [regexStep, levelText, if_neg h]
  split <;> rfl

theorem foldl_regexStep {levels : List Str} (h : ∀ level ∈ levels, level ≠ lit "#") :
    ∀ st : RegexState, levels.foldl regexStep st =
      ⟨st.parts ++ levels.map fun level => levelText level ++ [separator], levels.getLast?.or st.lastValue⟩ := by
  induction levels with
  | nil =>
      intro st
      rw [List.foldl_nil, List.map_nil, List.append_nil]
      rfl
  | cons level levels ih =>
      intro st
      obtain ⟨hlevel, hrest⟩ := List.forall_mem_cons.mp h
      rw [List.foldl_cons, regexStep_level hlevel, ih hrest, List.map_cons, List.append_assoc, List.singleton_append]
      cases levels with
      | nil => rfl
      | cons level' levels => rw [List.getLast?_cons_cons]; rfl

theorem flatten_parts {levels : List Str} (h : levels ≠ []) :
    (levels.map fun level => levelText level ++ [separator]).flatten = joinSlash (levels.map levelText) ++ [separator] := by
  induction levels with
  | nil => exact absurd rfl h
  | cons level levels ih =>
      cases levels with
      | nil => rw [List.map_singleton, List.map_singleton, List.flatten_singleton, joinSlash_singleton]
      | cons level' levels =>
          have hrest := ih (List.cons_ne_nil level' levels)
          simp only [List.map_cons, List.flatten_cons] at hrest ⊢
          rw [hrest, joinSlash_cons_cons]
          simp only [List.append_assoc, List.cons_append, List.nil_append]

theorem levelText_eq_nil {level : Str} : levelText level = [] ↔ level = [] := by
  rw [levelText]
  split
  · next h =>
      rw [h]
      exact ⟨fun hnil => absurd hnil (by decide), fun hnil => absurd hnil (by decide)⟩
  · exact Iff.rfl

theorem joinSlash_levelText_ne_nil {filter : Str} (h : filter ≠ []) :
    joinSlash ((splitSlash filter).map levelText) ≠ [] := by
  intro hnil
  obtain ⟨level, levels, hsplit⟩ := List.exists_cons_of_ne_nil (splitSlash_ne_nil filter)
  rw [hsplit] at hnil
  cases levels with
  | nil =>
      rw [List.map_singleton, joinSlash_singleton, levelText_eq_nil] at hnil
      refine h ?_
      rw [← joinSlash_splitSlash filter, hsplit, joinSlash_singleton, hnil]
  | cons level' levels =>
      rw [List.map_cons, List.map_cons, joinSlash_cons_cons] at hnil
      exact absurd hnil (List.append_ne_nil_of_right_ne_nil _ (List.cons_ne_nil _ _))

theorem regex_levels {filter : Str} (hne : filter ≠ []) (h : ∀ level ∈ splitSlash filter, level ≠ lit "#") :
    getRegexForTopicWithWildcard filter = joinSlash ((splitSlash filter).map levelText) := by
  have hpos := List.length_pos_iff.mpr (joinSlash_levelText_ne_nil hne)
  rw [getRegexForTopicWithWildcard, foldl_regexStep h]
  simp only [List.nil_append, flatten_parts (splitSlash_ne_nil filter)]
  rw [if_pos, List.dropLast_concat]
  refine ⟨?_, List.getLast?_concat⟩
  rw [List.length_append, List.length_singleton]
  omega

theorem regex_below {filter : Str} {levels : List Str} (hsplit : splitSlash filter = levels ++ [lit "#"])
    (hne : levels ≠ []) (h : ∀ level ∈ levels, level ≠ lit "#") :
    getRegexForTopicWithWildcard filter = joinSlash (levels.map levelText) ++ lit "(/.*)*" := by
  obtain ⟨init, last, rfl⟩ := (List.eq_nil_or_concat' levels).resolve_left hne
  have hparts : ((init ++ [last]) ++ [lit "#"]).foldl regexStep ⟨[], none⟩ =
      ⟨init.map (fun level => levelText level ++ [separator]) ++ [levelText last ++ lit "(/.*)*"], some (lit "#")⟩ := by
    rw [List.foldl_append, foldl_regexStep h, List.foldl_cons, List.foldl_nil, regexStep, List.getLast?_concat,
      if_neg (by decide), if_pos rfl]
    simp only [Option.some_or, List.nil_append, List.map_append, List.map_cons, List.map_nil, List.dropLast_concat,
      List.getLast?_concat, Option.getD_some]
  have hflatten := flatten_parts hne
  rw [List.map_append, List.flatten_append, List.map_singleton, List.flatten_singleton, ← List.append_assoc,
    List.append_left_inj] at hflatten
  have hlast : (joinSlash ((init ++ [last]).map levelText) ++ lit "(/.*)*").getLast? = some 42 := by
    rw [List.getLast?_append]
    rfl
  rw [getRegexForTopicWithWildcard, hsplit, hparts]
  simp only [List.flatten_append, List.flatten_singleton, ← List.append_assoc, hflatten]
  rw [if_neg]
  rintro ⟨-, hslash⟩
  rw [hlast] at hslash
  exact absurd hslash (by decide)

/-! ## The expression read -/

/-- `[^/]`. -/
def notSlash : Nat → Bool := fun d => !(decide (d = 47) || false)

/-- `[^/]*`. -/
theorem scan_plus {rest : Str} (hrest : Stops rest) (fuel : Nat) (stack : List Frame) (frame : Frame) :
    scan (fuel + 2) stack frame (lit "[^/]*" ++ rest) =
      scan fuel stack (frame.push .repeated (repeatRange (.set notSlash) 0 none)) rest := by
  have htext : lit "[^/]*" ++ rest = 91 :: 94 :: 47 :: 93 :: 42 :: rest := rfl
  have hset : scanSet true (47 :: 93 :: 42 :: rest) = .ok (fun d => decide (d = 47) || false, 42 :: rest) := rfl
  rw [htext]
  simp only [scan, hset, repeatLast_push hrest]
  rfl

/-- `(/.*)`. -/
def belowGroup : Regex Nat := Regex.seqOf [literal 47, repeatRange (.set anyChar) 0 none]

/-- `(/.*)*` at the end of the text. -/
theorem scan_below (fuel : Nat) (frame : Frame) :
    scan (fuel + 6) [] frame (lit "(/.*)*") = .ok (frame.push .repeated (repeatRange belowGroup 0 none)).close := by
  have htext : lit "(/.*)*" = [40, 47, 46, 42, 41, 42] := rfl
  have hinner : ∀ s, repeatLast (Frame.push (Frame.push .empty .atom (literal 47)) .atom (.set anyChar)) 0 none (41 :: s) =
      .ok (Frame.push (Frame.push .empty .atom (literal 47)) .repeated (repeatRange (.set anyChar) 0 none), 41 :: s) :=
    fun s => rfl
  have hgroup : (Frame.push (Frame.push .empty .atom (literal 47)) .repeated (repeatRange (.set anyChar) 0 none)).close =
      belowGroup := rfl
  have houter : repeatLast (frame.push .atom belowGroup) 0 none [] =
      .ok (frame.push .repeated (repeatRange belowGroup 0 none), []) :=
    repeatLast_push fun c hc => by cases hc
  rw [htext]
  simp only [scan, hinner, hgroup, houter]

/-- The items a level is read as. -/
def levelItems (level : Str) : List (ItemKind × Regex Nat) :=
  if level = lit "+" then [(.repeated, repeatRange (.set notSlash) 0 none)]
  else level.map fun c => (.atom, literal c)

/-- The items of the levels, with the slashes between. -/
def itemsOf : List Str → List (ItemKind × Regex Nat)
  | [] => []
  | [level] => levelItems level
  | level :: level' :: levels => levelItems level ++ (.atom, literal separator) :: itemsOf (level' :: levels)

theorem scan_level {level rest : Str} (hplain : level = lit "+" ∨ plainText level = true) (hrest : Stops rest)
    (stack : List Frame) (frame : Frame) : ∃ spare, ∀ fuel,
      scan ((levelText level).length + fuel) stack frame (levelText level ++ rest) =
        scan (spare + fuel) stack (frame.pushAll (levelItems level)) rest := by
  rw [levelText, levelItems]
  split
  · refine ⟨3, fun fuel => ?_⟩
    have hlength : (lit "[^/]*").length + fuel = 3 + fuel + 2 := by
      rw [show (lit "[^/]*").length = 5 from rfl]
      omega
    rw [hlength, scan_plus hrest]
    rfl
  · next hlevel =>
      refine ⟨0, fun fuel => ?_⟩
      rw [scan_plainText (hplain.resolve_left hlevel) hrest, Nat.zero_add]

theorem scan_levels {rest : Str} (hrest : Stops rest) {levels : List Str} (hne : levels ≠ [])
    (hplain : ∀ level ∈ levels, level = lit "+" ∨ plainText level = true) (stack : List Frame) :
    ∀ frame : Frame, ∃ spare, ∀ fuel,
      scan ((joinSlash (levels.map levelText)).length + fuel) stack frame (joinSlash (levels.map levelText) ++ rest) =
        scan (spare + fuel) stack (frame.pushAll (itemsOf levels)) rest := by
  induction levels with
  | nil => exact absurd rfl hne
  | cons level levels ih =>
      intro frame
      obtain ⟨hlevel, hlevels⟩ := List.forall_mem_cons.mp hplain
      cases levels with
      | nil =>
          rw [List.map_singleton, joinSlash_singleton, itemsOf]
          exact scan_level hlevel hrest stack frame
      | cons level' levels =>
          have hslash : ∀ s, Stops (separator :: s) := fun s c hc => .inl (Option.some.inj hc).symm
          obtain ⟨spare, hfirst⟩ := scan_level hlevel (hslash (joinSlash ((level' :: levels).map levelText) ++ rest)) stack
            frame
          obtain ⟨spare', hnext⟩ := ih (List.cons_ne_nil _ _) hlevels
            ((frame.pushAll (levelItems level)).push .atom (literal separator))
          refine ⟨spare' + spare, fun fuel => ?_⟩
          have htext : joinSlash ((level :: level' :: levels).map levelText) =
              levelText level ++ separator :: joinSlash ((level' :: levels).map levelText) := by
            simp only [List.map_cons, joinSlash_cons_cons]
          have hlength : (joinSlash ((level :: level' :: levels).map levelText)).length + fuel =
              (levelText level).length + ((joinSlash ((level' :: levels).map levelText)).length + fuel + 1) := by
            rw [htext, List.length_append, List.length_cons]
            omega
          rw [hlength, htext, List.append_assoc, List.cons_append, hfirst, ← Nat.add_assoc, scan_plain (by decide),
            Nat.add_left_comm, hnext (spare + fuel), Frame.push_eq, Frame.pushAll_pushAll, Frame.pushAll_pushAll,
            itemsOf, List.singleton_append, Nat.add_assoc]

theorem scan_nil (fuel : Nat) (frame : Frame) : scan fuel [] frame [] = .ok frame.close := by
  cases fuel <;> rfl

theorem compile_levels {levels : List Str} (hne : levels ≠ [])
    (hplain : ∀ level ∈ levels, level = lit "+" ∨ plainText level = true) :
    compile (joinSlash (levels.map levelText)) = .ok (Regex.seqOf ((itemsOf levels).map Prod.snd)) := by
  obtain ⟨spare, h⟩ := @scan_levels [] (fun c hc => by cases hc) levels hne hplain [] .empty
  have hscan := h 0
  rw [Nat.add_zero, List.append_nil, scan_nil, close_pushAll] at hscan
  exact hscan

theorem compile_below {levels : List Str} (hne : levels ≠ [])
    (hplain : ∀ level ∈ levels, level = lit "+" ∨ plainText level = true) :
    compile (joinSlash (levels.map levelText) ++ lit "(/.*)*") =
      .ok (Regex.seqOf ((itemsOf levels).map Prod.snd ++ [repeatRange belowGroup 0 none])) := by
  obtain ⟨spare, h⟩ := @scan_levels (lit "(/.*)*") (fun c hc => .inr (Option.some.inj hc).symm) levels hne hplain []
    .empty
  have hlength : (joinSlash (levels.map levelText) ++ lit "(/.*)*").length = (joinSlash (levels.map levelText)).length + 6 :=
    List.length_append
  rw [compile, hlength, h 6, scan_below, Frame.push_eq, Frame.pushAll_pushAll, close_pushAll, List.map_append]
  rfl

/-! ## What the expression matches -/

/-- A segment that a level reads: it has no slash, and the level matches it. -/
def Reads (level segment : Str) : Prop := separator ∉ segment ∧ levelMatches level segment = true

theorem mem_rests_level {total : Nat} {level s t : Str} (hslash : separator ∉ level) :
    t ∈ Regex.rests total (Regex.seqOf ((levelItems level).map Prod.snd)) s ↔
      ∃ segment, Reads level segment ∧ s = segment ++ t := by
  rw [levelItems]
  split
  · next hplus =>
      subst hplus
      have hclass : ∀ segment : Str, (∀ c ∈ segment, notSlash c = true) ↔ Reads (lit "+") segment := by
        intro segment
        have hmatches : levelMatches (lit "+") segment = true := by
          rw [levelMatches, decide_eq_true rfl, Bool.true_or]
        rw [Reads, and_iff_left hmatches]
        constructor
        · intro h hmem
          exact absurd (h separator hmem) (by decide)
        · intro h c hc
          have hne : c ≠ separator := fun he => h (he ▸ hc)
          rw [notSlash, decide_eq_false (show ¬c = 47 from hne)]
          rfl
      rw [List.map_singleton, Regex.mem_rests_seqOf_singleton, mem_rests_repeated, Regex.mem_rests_star_set]
      exact exists_congr fun segment => and_congr_left' (hclass segment)
  · next hplus =>
      have hword : (level.map fun c => ((.atom, literal c) : ItemKind × Regex Nat)).map Prod.snd =
          level.map fun c => .set fun d => decide (d = c) := by
        rw [List.map_map]
        rfl
      rw [hword, Regex.mem_rests_literals]
      constructor
      · intro h
        refine ⟨level, ⟨hslash, ?_⟩, h⟩
        rw [levelMatches, decide_eq_true rfl, Bool.or_true]
      · rintro ⟨segment, ⟨-, hmatches⟩, h⟩
        rw [levelMatches, Bool.or_eq_true, decide_eq_true_eq, decide_eq_true_eq] at hmatches
        rw [h, hmatches.resolve_left hplus]

/-- The levels read one segment each, with slashes between. -/
theorem mem_rests_levels {total : Nat} {levels : List Str} (hne : levels ≠ [])
    (hslash : ∀ level ∈ levels, separator ∉ level) : ∀ {s t : Str},
    t ∈ Regex.rests total (Regex.seqOf ((itemsOf levels).map Prod.snd)) s ↔
      ∃ segments, List.Forall₂ Reads levels segments ∧ s = joinSlash segments ++ t := by
  induction levels with
  | nil => exact absurd rfl hne
  | cons level levels ih =>
      intro s t
      obtain ⟨hlevel, hlevels⟩ := List.forall_mem_cons.mp hslash
      cases levels with
      | nil =>
          rw [itemsOf, mem_rests_level hlevel]
          constructor
          · rintro ⟨segment, hreads, h⟩
            exact ⟨[segment], .cons hreads .nil, by rw [joinSlash_singleton, h]⟩
          · rintro ⟨segments, hreads, h⟩
            obtain ⟨segment, rest, hsegment, hrest, rfl⟩ := List.forall₂_cons_left_iff.mp hreads
            cases List.forall₂_nil_left_iff.mp hrest
            rw [joinSlash_singleton] at h
            exact ⟨segment, hsegment, h⟩
      | cons level' levels =>
          have hitems : (itemsOf (level :: level' :: levels)).map Prod.snd = (levelItems level).map Prod.snd ++
              ([separator].map (fun c => .set fun d => decide (d = c)) ++ (itemsOf (level' :: levels)).map Prod.snd) := by
            rw [itemsOf, List.map_append, List.map_cons]
            rfl
          simp only [hitems, Regex.mem_rests_seqOf_append, mem_rests_level hlevel, Regex.mem_rests_literals,
            ih (List.cons_ne_nil _ _) hlevels]
          constructor
          · rintro ⟨_, ⟨segment, hreads, rfl⟩, _, rfl, segments, hsegments, rfl⟩
            obtain ⟨segment', rest, -, -, rfl⟩ := List.forall₂_cons_left_iff.mp hsegments
            refine ⟨segment :: segment' :: rest, .cons hreads hsegments, ?_⟩
            simp only [joinSlash_cons_cons, List.append_assoc, List.cons_append, List.nil_append]
          · rintro ⟨_, hreads, rfl⟩
            obtain ⟨segment, rest, hsegment, hrest, rfl⟩ := List.forall₂_cons_left_iff.mp hreads
            obtain ⟨segment', rest', -, -, rfl⟩ := List.forall₂_cons_left_iff.mp hrest
            refine ⟨separator :: (joinSlash (segment' :: rest') ++ t), ⟨segment, hsegment, ?_⟩,
              joinSlash (segment' :: rest') ++ t, rfl, segment' :: rest', hrest, rfl⟩
            simp only [joinSlash_cons_cons, List.append_assoc, List.cons_append]

/-- `(/.*)*` reads nothing, or a slash and the rest of the line. -/
theorem mem_rests_below {total : Nat} {s t : Str} :
    t ∈ Regex.rests total (Regex.seqOf [repeatRange belowGroup 0 none]) s ↔
      t = s ∨ ∃ u, 10 ∉ u ∧ s = separator :: u ++ t := by
  have hgroup : ∀ {x y}, y ∈ Regex.rests total belowGroup x ↔
      y ∈ Regex.rests total (.seq (.set fun d => decide (d = separator)) (.star (.set anyChar))) x := by
    intro x y
    rw [belowGroup, Regex.seqOf, List.foldr_cons, Regex.mem_rests_seq, Regex.mem_rests_seq]
    refine exists_congr fun u => and_congr_right' ?_
    exact Regex.mem_rests_seqOf_singleton.trans mem_rests_repeated
  have hclass : ∀ u : Str, (∀ c ∈ u, anyChar c = true) ↔ 10 ∉ u := by
    intro u
    simp only [anyChar, decide_eq_true_eq]
    exact ⟨fun h hmem => h 10 hmem rfl, fun h c hc he => h (he ▸ hc)⟩
  rw [Regex.mem_rests_seqOf_singleton, mem_rests_repeated, Regex.mem_rests_star]
  simp only [hgroup]
  rw [← Regex.mem_rests_star, Regex.mem_rests_star_headed (by decide)]
  simp only [hclass]

/-! ## Against the rules -/

theorem levelsMatch_iff {levels : List Str} (h : lit "#" ∉ levels) : ∀ {segments : List Str},
    levelsMatch levels segments = true ↔ List.Forall₂ (fun level segment => levelMatches level segment = true)
      levels segments := by
  induction levels with
  | nil =>
      intro segments
      rw [levelsMatch, List.isEmpty_iff, List.forall₂_nil_left_iff]
  | cons level levels ih =>
      intro segments
      rw [List.mem_cons, not_or] at h
      have hlevel : ¬(level = lit "#" ∧ levels = []) := fun hhash => h.1 hhash.1.symm
      cases segments with
      | nil =>
          rw [levelsMatch, decide_eq_true_iff]
          exact iff_of_false hlevel fun hnil => by cases hnil
      | cons segment segments =>
          rw [levelsMatch, decide_eq_false hlevel, Bool.false_or, Bool.and_eq_true, ih h.2, List.forall₂_cons]

theorem levelsMatch_below {levels : List Str} (h : lit "#" ∉ levels) : ∀ {segments : List Str},
    levelsMatch (levels ++ [lit "#"]) segments = true ↔
      ∃ above below, segments = above ++ below ∧
        List.Forall₂ (fun level segment => levelMatches level segment = true) levels above := by
  induction levels with
  | nil =>
      intro segments
      refine iff_of_true ?_ ⟨[], segments, rfl, .nil⟩
      cases segments <;> rfl
  | cons level levels ih =>
      intro segments
      rw [List.mem_cons, not_or] at h
      have hlevel : ¬(level = lit "#" ∧ levels ++ [lit "#"] = []) := fun hhash => h.1 hhash.1.symm
      cases segments with
      | nil =>
          rw [List.cons_append, levelsMatch, decide_eq_true_iff]
          refine iff_of_false hlevel ?_
          rintro ⟨above, below, hnil, hmatch⟩
          rw [(List.append_eq_nil_iff.mp hnil.symm).1] at hmatch
          cases hmatch
      | cons segment segments =>
          rw [List.cons_append, levelsMatch, decide_eq_false hlevel, Bool.false_or, Bool.and_eq_true, ih h.2]
          constructor
          · rintro ⟨hlevel, above, below, rfl, hmatch⟩
            exact ⟨segment :: above, below, rfl, .cons hlevel hmatch⟩
          · rintro ⟨above, below, hsegments, hmatch⟩
            obtain ⟨first, rest, hfirst, hrest, rfl⟩ := List.forall₂_cons_left_iff.mp hmatch
            obtain ⟨rfl, rfl⟩ := List.cons.inj hsegments
            exact ⟨hfirst, rest, below, rfl, hrest⟩

theorem forall₂_reads {levels segments : List Str} (h : ∀ segment ∈ segments, separator ∉ segment) :
    List.Forall₂ Reads levels segments ↔
      List.Forall₂ (fun level segment => levelMatches level segment = true) levels segments := by
  induction levels generalizing segments with
  | nil => rw [List.forall₂_nil_left_iff, List.forall₂_nil_left_iff]
  | cons level levels ih =>
      cases segments with
      | nil => exact iff_of_false (fun hnil => by cases hnil) fun hnil => by cases hnil
      | cons segment segments =>
          obtain ⟨hsegment, hsegments⟩ := List.forall_mem_cons.mp h
          rw [List.forall₂_cons, List.forall₂_cons, ih hsegments, Reads, and_iff_right hsegment]

theorem slashFree_of_reads {levels segments : List Str} (h : List.Forall₂ Reads levels segments) :
    ∀ segment ∈ segments, separator ∉ segment := by
  induction h with
  | nil =>
      intro segment hmem
      cases hmem
  | cons hreads _ ih => exact List.forall_mem_cons.mpr ⟨hreads.1, ih⟩

/-- A text has a character that is no slash where one of its segments has it. -/
theorem mem_splitSlash_iff {c : Nat} (hc : c ≠ separator) {s : Str} : c ∈ s ↔ ∃ segment ∈ splitSlash s, c ∈ segment := by
  induction s with
  | nil => simp only [splitSlash, List.mem_singleton, exists_eq_left]
  | cons d s ih =>
      rcases eq_or_ne d separator with rfl | hd
      · rw [splitSlash_cons_slash, List.mem_cons, or_iff_right hc, ih]
        simp only [List.mem_cons, exists_eq_or_imp, List.not_mem_nil, false_or]
      · obtain ⟨first, rest, hsplit⟩ := List.exists_cons_of_ne_nil (splitSlash_ne_nil s)
        rw [splitSlash_cons hd hsplit, List.mem_cons, ih, hsplit]
        simp only [List.mem_cons, exists_eq_or_imp, or_assoc]

/-- Without `#`, the whole topic is the segments the levels read. -/
theorem fullmatch_levels {levels : List Str} (hne : levels ≠ []) (hslash : ∀ level ∈ levels, separator ∉ level)
    (hhash : lit "#" ∉ levels) (topic : Str) :
    (Regex.seqOf ((itemsOf levels).map Prod.snd)).fullmatch topic = levelsMatch levels (splitSlash topic) := by
  rw [Bool.eq_iff_iff, Regex.fullmatch_iff, mem_rests_levels hne hslash, levelsMatch_iff hhash,
    ← forall₂_reads fun segment => not_mem_of_mem_splitSlash]
  constructor
  · rintro ⟨segments, hreads, htopic⟩
    have hsegments : segments ≠ [] := by
      rintro rfl
      exact hne (List.forall₂_nil_right_iff.mp hreads)
    rw [htopic, List.append_nil, splitSlash_joinSlash hsegments (slashFree_of_reads hreads)]
    exact hreads
  · intro hreads
    exact ⟨splitSlash topic, hreads, by rw [List.append_nil, joinSlash_splitSlash]⟩

/-- With `#` at the end, what is below the levels has to be free of line feeds. -/
theorem fullmatch_below {levels : List Str} (hne : levels ≠ []) (hslash : ∀ level ∈ levels, separator ∉ level)
    (hhash : lit "#" ∉ levels) (topic : Str) :
    (Regex.seqOf ((itemsOf levels).map Prod.snd ++ [repeatRange belowGroup 0 none])).fullmatch topic = true ↔
      levelsMatch (levels ++ [lit "#"]) (splitSlash topic) = true ∧
        ¬ ∃ segment ∈ (splitSlash topic).drop levels.length, 10 ∈ segment := by
  have hfeed : (10 : Nat) ≠ separator := by decide
  rw [Regex.fullmatch_iff, Regex.mem_rests_seqOf_append, levelsMatch_below hhash]
  simp only [mem_rests_levels hne hslash, mem_rests_below, List.append_nil]
  constructor
  · rintro ⟨rest, ⟨above, hreads, htopic⟩, hrest⟩
    have hslashFree := slashFree_of_reads hreads
    have habove : above ≠ [] := by
      rintro rfl
      exact hne (List.forall₂_nil_right_iff.mp hreads)
    have hmatch := (forall₂_reads hslashFree).mp hreads
    rcases hrest with rfl | ⟨u, hu, rfl⟩
    · have hsplit : splitSlash topic = above := by
        rw [htopic, List.append_nil, splitSlash_joinSlash habove hslashFree]
      rw [hsplit, hreads.length_eq, List.drop_length]
      refine ⟨⟨above, [], (List.append_nil above).symm, hmatch⟩, ?_⟩
      rintro ⟨segment, hmem, -⟩
      cases hmem
    · have hsplit : splitSlash topic = above ++ splitSlash u := by
        rw [htopic, splitSlash_append, splitSlash_joinSlash habove hslashFree]
      rw [hsplit, hreads.length_eq, List.drop_left, ← mem_splitSlash_iff hfeed]
      exact ⟨⟨above, splitSlash u, rfl, hmatch⟩, hu⟩
  · rintro ⟨⟨above, below, hsplit, hmatch⟩, hclean⟩
    have hslashFree : ∀ segment ∈ above ++ below, separator ∉ segment := by
      intro segment hmem
      rw [← hsplit] at hmem
      exact not_mem_of_mem_splitSlash hmem
    have hreads := (forall₂_reads fun segment hmem => hslashFree segment (List.mem_append_left _ hmem)).mpr hmatch
    have habove : above ≠ [] := by
      rintro rfl
      exact hne (List.forall₂_nil_right_iff.mp hreads)
    have htopic : topic = joinSlash (above ++ below) := by rw [← hsplit, joinSlash_splitSlash]
    rcases eq_or_ne below [] with rfl | hbelow
    · rw [List.append_nil] at htopic
      exact ⟨[], ⟨above, hreads, by rw [htopic, List.append_nil]⟩, .inl rfl⟩
    · refine ⟨separator :: joinSlash below, ⟨above, hreads, ?_⟩, .inr ⟨joinSlash below, ?_, rfl⟩⟩
      · rw [htopic, joinSlash_append habove hbelow]
      · rw [hsplit, hreads.length_eq, List.drop_left] at hclean
        rw [mem_splitSlash_iff hfeed,
          splitSlash_joinSlash hbelow fun segment hmem => hslashFree segment (List.mem_append_right _ hmem)]
        exact hclean

/-- `#` alone matches a topic without line feeds. -/
theorem isTopicMatched_all (topic : Str) : isTopicMatched (some (lit "#")) topic = .ok (decide (10 ∉ topic)) := by
  have hcompile : compile (lit "(.*)*") = .ok (Regex.seqOf
      [repeatRange (Regex.seqOf [repeatRange (.set anyChar) 0 none]) 0 none]) := rfl
  have hgroup : ∀ {x y}, y ∈ Regex.rests topic.length (Regex.seqOf [repeatRange (.set anyChar) 0 none]) x ↔
      y ∈ Regex.rests topic.length (.star (.set anyChar)) x :=
    Regex.mem_rests_seqOf_singleton.trans mem_rests_repeated
  have hmatch : (Regex.seqOf [repeatRange (Regex.seqOf [repeatRange (.set anyChar) 0 none]) 0 none]).fullmatch topic =
      decide (10 ∉ topic) := by
    rw [Bool.eq_iff_iff, Regex.fullmatch_iff, Regex.mem_rests_seqOf_singleton, mem_rests_repeated, Regex.mem_rests_star]
    simp only [hgroup]
    rw [← Regex.mem_rests_star, Regex.mem_rests_star_star, Regex.mem_rests_star_set, decide_eq_true_iff]
    simp only [List.append_nil, exists_eq_right', anyChar, decide_eq_true_eq]
    exact ⟨fun h hmem => h 10 hmem rfl, fun h c hc he => h (he ▸ hc)⟩
  have hregex : getRegexForTopicWithWildcard (lit "#") = lit "(.*)*" := rfl
  rw [isTopicMatched, fullmatch, hregex, hcompile, Except.map, hmatch]

theorem isTopicMatched_levels {filter : Str} (hne : filter ≠ []) (hplain : PlainFilter filter)
    (hhash : lit "#" ∉ splitSlash filter) (topic : Str) :
    isTopicMatched (some filter) topic = .ok (mqttMatches filter topic) := by
  have hlevels : ∀ level ∈ splitSlash filter, level ≠ lit "#" := fun level hlevel he => hhash (he ▸ hlevel)
  rw [isTopicMatched, fullmatch, regex_levels hne hlevels, compile_levels (splitSlash_ne_nil filter) hplain, Except.map,
    fullmatch_levels (splitSlash_ne_nil filter) (fun level => not_mem_of_mem_splitSlash) hhash, mqttMatches]

theorem isTopicMatched_below {filter : Str} {levels : List Str} (hsplit : splitSlash filter = levels ++ [lit "#"])
    (hne : levels ≠ []) (hplain : PlainFilter filter) (hhash : lit "#" ∉ levels) (topic : Str) :
    ∃ matched, isTopicMatched (some filter) topic = .ok matched ∧
      (matched = true ↔ mqttMatches filter topic = true ∧
        ¬ ∃ segment ∈ (splitSlash topic).drop levels.length, 10 ∈ segment) := by
  have hmem : ∀ level ∈ levels, level ∈ splitSlash filter := by
    intro level hlevel
    rw [hsplit]
    exact List.mem_append_left _ hlevel
  have hlevels : ∀ level ∈ levels, level ≠ lit "#" := fun level hlevel he => hhash (he ▸ hlevel)
  refine ⟨(Regex.seqOf ((itemsOf levels).map Prod.snd ++ [repeatRange belowGroup 0 none])).fullmatch topic, ?_, ?_⟩
  · rw [isTopicMatched, fullmatch, regex_below hsplit hne hlevels,
      compile_below hne fun level hlevel => hplain level (hmem level hlevel), Except.map]
  · rw [fullmatch_below hne (fun level hlevel => not_mem_of_mem_splitSlash (hmem level hlevel)) hhash, mqttMatches,
      hsplit]

instance (filter topic : Str) : Decidable (LineFeedBelow filter topic) :=
  inferInstanceAs (Decidable (_ ∧ _ ∧ ∃ segment ∈ _, _))

/-- For a valid filter of plain levels the answer is that of the rules, unless `#` has to cover a line
feed. -/
theorem topic_matched_iff {filter : Str} (hvalid : ValidFilter filter) (hplain : PlainFilter filter) (topic : Str) :
    isTopicMatched (some filter) topic = .ok (mqttMatches filter topic) ↔ ¬ LineFeedBelow filter topic := by
  obtain ⟨levels, last, hsplit⟩ := (List.eq_nil_or_concat' (splitSlash filter)).resolve_left (splitSlash_ne_nil filter)
  have hinit : lit "#" ∉ levels := by
    have hhashLast := hvalid.hashLast
    rw [hsplit, List.dropLast_concat] at hhashLast
    exact hhashLast
  rcases eq_or_ne last (lit "#") with rfl | hlast
  · have hlength : (splitSlash filter).length - 1 = levels.length := by
      rw [hsplit, List.length_append, List.length_singleton, Nat.add_sub_cancel]
    have hhash : lit "#" ∈ splitSlash filter := by
      rw [hsplit]
      exact List.mem_append_right _ List.mem_cons_self
    -- the answer in both forms of such a filter, `#` and `a/#`
    have hanswer : ∃ matched, isTopicMatched (some filter) topic = .ok matched ∧
        (matched = true ↔ mqttMatches filter topic = true ∧
          ¬ ∃ segment ∈ (splitSlash topic).drop levels.length, 10 ∈ segment) := by
      rcases eq_or_ne levels [] with rfl | hne
      · have hfilter : filter = lit "#" := by
          rw [← joinSlash_splitSlash filter, hsplit, List.nil_append, joinSlash_singleton]
        subst hfilter
        have hall : mqttMatches (lit "#") topic = true := by
          rw [mqttMatches, hsplit, levelsMatch_below List.not_mem_nil]
          exact ⟨[], splitSlash topic, rfl, .nil⟩
        refine ⟨_, isTopicMatched_all topic, ?_⟩
        rw [decide_eq_true_iff, and_iff_right hall, List.length_nil, List.drop_zero, ← mem_splitSlash_iff (by decide)]
      · exact isTopicMatched_below hsplit hne hplain hinit topic
    obtain ⟨matched, hmatched, hiff⟩ := hanswer
    rw [hmatched, Except.ok.injEq, LineFeedBelow, hlength, and_iff_right hhash]
    cases hmqtt : mqttMatches filter topic with
    | false =>
        have hfalse : matched = false := Bool.eq_false_iff.mpr fun h => Bool.false_ne_true (hmqtt.symm.trans (hiff.mp h).1)
        exact iff_of_true hfalse fun h => Bool.false_ne_true h.1
    | true =>
        rw [hiff, hmqtt]
        simp only [true_and]
  · have hhash : lit "#" ∉ splitSlash filter := by
      rw [hsplit, List.mem_append, List.mem_singleton, not_or]
      exact ⟨hinit, hlast.symm⟩
    exact iff_of_true (isTopicMatched_levels hvalid.nonempty hplain hhash topic) fun h => hhash h.1

/-- The levels below a site. -/
theorem topic_matched_site :
    isTopicMatched (some (lit "enterprise/+/#")) (lit "enterprise/site/line") =
      .ok (mqttMatches (lit "enterprise/+/#") (lit "enterprise/site/line")) :=
  (topic_matched_iff ⟨by decide, by decide, by decide, by decide, by decide⟩ (by decide) _).mpr (by decide)

/-- A topic name. -/
structure ValidTopic (topic : Str) : Prop where
  nonempty : topic ≠ []
  noNull : 0 ∉ topic
  noWildcard : 43 ∉ topic ∧ 35 ∉ topic

/-- The dot of `spBv1.0` matches any character. -/
theorem dot_matches_any : ¬ ∀ filter topic : Str, ValidFilter filter → ValidTopic topic →
    isTopicMatched (some filter) topic = .ok (mqttMatches filter topic) := by
  intro h
  have hmatched := h (lit "spBv1.0/plant") (lit "spBv1-0/plant") ⟨by decide, by decide, by decide, by decide, by decide⟩
    ⟨by decide, by decide, by decide⟩
  have htrue : isTopicMatched (some (lit "spBv1.0/plant")) (lit "spBv1-0/plant") = .ok true := by rfl
  have hfalse : mqttMatches (lit "spBv1.0/plant") (lit "spBv1-0/plant") = false := by decide
  rw [htrue, hfalse] at hmatched
  cases hmatched

end Uns.Mqtt
