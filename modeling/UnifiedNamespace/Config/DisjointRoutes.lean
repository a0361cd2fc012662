/-
# `Config.DisjointRoutes` — routes that are rejected although no topic matches two of them

`_segments_overlap` reports every common topic; this is the other direction.  Where one
filter ends, it looks only at whether the other ends in `#`, while `_segments_match` wants
the `#` to be what comes next.  So it also reports a pair without a common topic, when the
longer filter has a level between there and its `#` (`Shadows`, `segmentsOverlap_iff`).
Disjoint routes are accepted exactly when there is no such pair (`disjoint_accepted_iff`).
-/
import UnifiedNamespace.Config.PublicationRoutes

namespace Uns.Config

open Py Lib

/-! ## Instances -/

/-- Two levels that a name matches both. -/
def Agree (l r : Str) : Prop := l = plus ∨ r = plus ∨ l = r

/-- The first filter ends where the second has a level before its `#`. -/
def Shadows : List Str → List Str → Prop
  | [], rs => 2 ≤ rs.length ∧ rs.getLast? = some hash
  | _ :: _, [] => False
  | l :: ls, r :: rs => l ≠ hash ∧ r ≠ hash ∧ Agree l r ∧ Shadows ls rs

/-- The topics that both filters match. -/
def Meet (ls rs : List Str) : Prop := ∃ topic, segmentsMatch topic ls = true ∧ segmentsMatch topic rs = true

variable {l r name : Str} {ls rs topic left right : List Str}

theorem segmentsMatch_cons_iff :
    segmentsMatch (name :: topic) (l :: ls) = true ↔
      l = hash ∨ ((l = plus ∨ l = name) ∧ segmentsMatch topic ls = true) := by
  refine ⟨segmentsMatch_cons, ?_⟩
  intro h
  rw [segmentsMatch]
  split
  · rfl
  · next hhash =>
      obtain ⟨hl, hrest⟩ := h.resolve_left hhash
      split
      · exact hrest
      · next hplus => rw [if_neg (not_not.mpr (hl.resolve_left hplus)), hrest]

/-- Each filter matches a topic. -/
theorem exists_match (ls : List Str) : ∃ topic, segmentsMatch topic ls = true := by
  induction ls with
  | nil => exact ⟨[], rfl⟩
  | cons l ls ih =>
      obtain ⟨topic, h⟩ := ih
      exact ⟨l :: topic, segmentsMatch_cons_iff.mpr (.inr ⟨.inr rfl, h⟩)⟩

theorem meet_of_hash : Meet (hash :: ls) rs := by
  obtain ⟨topic, h⟩ := exists_match rs
  refine ⟨topic, ?_, h⟩
  cases topic with
  | nil => exact decide_eq_true rfl
  | cons name topic => exact segmentsMatch_cons_iff.mpr (.inl rfl)

theorem Meet.symm (h : Meet ls rs) : Meet rs ls := by
  obtain ⟨topic, hl, hr⟩ := h
  exact ⟨topic, hr, hl⟩

theorem Agree.symm (h : Agree l r) : Agree r l := by
  rcases h with h | h | h
  · exact .inr (.inl h)
  · exact .inl h
  · exact .inr (.inr h.symm)

/-- Level by level. -/
theorem meet_cons_iff (hl : l ≠ hash) (hr : r ≠ hash) : Meet (l :: ls) (r :: rs) ↔ Agree l r ∧ Meet ls rs := by
  constructor
  · rintro ⟨topic, hml, hmr⟩
    cases topic with
    | nil => exact absurd (segmentsMatch_nil hml) hl
    | cons name topic =>
        obtain ⟨hname, hml⟩ := (segmentsMatch_cons hml).resolve_left hl
        obtain ⟨hname', hmr⟩ := (segmentsMatch_cons hmr).resolve_left hr
        refine ⟨?_, topic, hml, hmr⟩
        rcases hname with hplus | rfl
        · exact .inl hplus
        · rcases hname' with hplus | rfl
          · exact .inr (.inl hplus)
          · exact .inr (.inr rfl)
  · rintro ⟨hagree, topic, hml, hmr⟩
    -- the name is the level that is no `+`, if there is one
    have hname : ∃ name, (l = plus ∨ l = name) ∧ (r = plus ∨ r = name) := by
      rcases hagree with hplus | hplus | heq
      · exact ⟨r, .inl hplus, .inr rfl⟩
      · exact ⟨l, .inr rfl, .inl hplus⟩
      · exact ⟨l, .inr rfl, .inr heq.symm⟩
    obtain ⟨name, hnamel, hnamer⟩ := hname
    exact ⟨name :: topic, segmentsMatch_cons_iff.mpr (.inr ⟨hnamel, hml⟩),
      segmentsMatch_cons_iff.mpr (.inr ⟨hnamer, hmr⟩)⟩

/-- Where the first filter has ended. -/
theorem endsInHash_iff (hsuffix : r :: rs <:+ right) (hr : checkSegments (r :: rs) = .ok ()) :
    endsInHash right = true ↔ Meet [] (r :: rs) ∨ Shadows [] (r :: rs) := by
  obtain ⟨front, rfl⟩ := hsuffix
  have hlast : (front ++ r :: rs).getLast? = (r :: rs).getLast? := by
    rw [List.getLast?_append]
    cases h : (r :: rs).getLast? with
    | none => exact absurd (List.getLast?_eq_none_iff.mp h) (List.cons_ne_nil _ _)
    | some last => rfl
  rw [endsInHash, hlast, decide_eq_true_eq]
  constructor
  · intro h
    cases rs with
    | nil =>
        obtain rfl := Option.some.inj h
        exact .inl meet_of_hash.symm
    | cons r' rs => exact .inr ⟨Nat.le_add_left 2 _, h⟩
  · rintro (⟨topic, hnil, hmr⟩ | ⟨-, h⟩)
    · cases topic with
      | cons name topic => cases hnil
      | nil =>
          obtain rfl := segmentsMatch_nil hmr
          rw [hash_last hr]
          rfl
    · exact h

/-- An overlap is a common topic, or one filter shadows the other. -/
theorem segmentsOverlap_iff : ∀ ls rs : List Str, ls <:+ left → rs <:+ right → checkSegments ls = .ok () →
    checkSegments rs = .ok () →
      (segmentsOverlap left right ls rs = true ↔ Meet ls rs ∨ Shadows ls rs ∨ Shadows rs ls)
  | [], [], _, _, _, _ => iff_of_true rfl (.inl ⟨[], rfl, rfl⟩)
  | [], r :: rs, _, hrs, _, hr => by
      rw [segmentsOverlap, endsInHash_iff hrs hr]
      refine or_congr_right (or_iff_left ?_).symm
      exact fun h => h
  | l :: ls, [], hls, _, hl, _ => by
      rw [segmentsOverlap, endsInHash_iff hls hl]
      refine or_congr ⟨Meet.symm, Meet.symm⟩ (or_iff_right ?_).symm
      exact fun h => h
  | l :: ls, r :: rs, hls, hrs, hl, hr => by
      have ih := segmentsOverlap_iff ls rs ((List.suffix_cons l ls).trans hls) ((List.suffix_cons r rs).trans hrs)
        (checkSegments_cons.mp hl).2 (checkSegments_cons.mp hr).2
      rw [segmentsOverlap]
      by_cases hhash : l = hash ∨ r = hash
      · rw [if_pos hhash]
        refine iff_of_true rfl (.inl ?_)
        rcases hhash with rfl | rfl
        · exact meet_of_hash
        · exact meet_of_hash.symm
      · rw [if_neg hhash]
        rw [not_or] at hhash
        have hshadows : Shadows (l :: ls) (r :: rs) ↔ Agree l r ∧ Shadows ls rs := by
          rw [Shadows, and_iff_right hhash.1, and_iff_right hhash.2]
        have hshadowed : Shadows (r :: rs) (l :: ls) ↔ Agree l r ∧ Shadows rs ls := by
          rw [Shadows, and_iff_right hhash.2, and_iff_right hhash.1]
          exact and_congr_left fun _ => ⟨Agree.symm, Agree.symm⟩
        rw [meet_cons_iff hhash.1 hhash.2, hshadows, hshadowed, ← and_or_left, ← and_or_left, ← ih]
        split
        · next hplus =>
            have hagree : Agree l r := by
              rcases hplus with h | h
              · exact .inl h
              · exact .inr (.inl h)
            exact (and_iff_right hagree).symm
        · next hplus =>
            rw [not_or] at hplus
            split
            · next hne =>
                refine iff_of_false (by decide) fun h => ?_
                exact hne ((h.1.resolve_left hplus.1).resolve_left hplus.2)
            · next heq => exact (and_iff_right (.inr (.inr (not_not.mp heq)))).symm

/-! ## Topics -/

/-- No segment of a split topic has a slash. -/
theorem not_mem_splitTopic (s : Str) : ∀ segment ∈ splitTopic s, (47 : Nat) ∉ segment := by
  induction s with
  | nil =>
      intro segment hsegment
      rw [splitTopic, List.splitOn_nil, List.mem_singleton] at hsegment
      rw [hsegment]
      exact List.not_mem_nil
  | cons c s ih =>
      intro segment hsegment
      rw [splitTopic, List.splitOn_cons_eq_if_modifyHead] at hsegment
      split at hsegment
      · rcases List.mem_cons.mp hsegment with rfl | hsegment
        · exact List.not_mem_nil
        · exact ih segment hsegment
      · next hc =>
          obtain ⟨first, rest, hsplit⟩ := List.exists_cons_of_ne_nil (List.splitOn_ne_nil 47 s)
          rw [hsplit, List.modifyHead_cons] at hsegment
          rw [splitTopic, hsplit] at ih
          rcases List.mem_cons.mp hsegment with rfl | hsegment
          · rw [List.mem_cons, not_or]
            exact ⟨fun h => hc (by rw [← h]; rfl), ih first List.mem_cons_self⟩
          · exact ih segment (List.mem_cons_of_mem _ hsegment)

/-- A name without a slash. -/
def plainName (name : Str) : Str := if (47 : Nat) ∈ name then lit "x" else name

theorem not_mem_plainName (name : Str) : (47 : Nat) ∉ plainName name := by
  rw [plainName]
  split
  · decide
  · assumption

/-- A filter without slashes does not tell a name with a slash from another. -/
theorem segmentsMatch_plain (hslash : ∀ segment ∈ ls, (47 : Nat) ∉ segment) (h : segmentsMatch topic ls = true) :
    segmentsMatch (topic.map plainName) ls = true := by
  induction ls generalizing topic with
  | nil =>
      cases topic with
      | nil => rfl
      | cons name topic => cases h
  | cons l ls ih =>
      obtain ⟨hl, hrest⟩ := List.forall_mem_cons.mp hslash
      cases topic with
      | nil => exact h
      | cons name topic =>
          refine segmentsMatch_cons_iff.mpr ((segmentsMatch_cons h).imp_right ?_)
          rintro ⟨hname, hmatch⟩
          refine ⟨hname.imp_right ?_, ih hrest hmatch⟩
          rintro rfl
          rw [plainName, if_neg hl]

/-- The topic that both routes' filters match. -/
def Common (left right : PublicationRoute) (topic : Str) : Prop :=
  topicMatchesFilter topic left.topicFilter = .ok true ∧ topicMatchesFilter topic right.topicFilter = .ok true

def segmentsOf (route : PublicationRoute) : List Str := splitTopic route.topicFilter

theorem topicMatchesFilter_eq {route : PublicationRoute}
    (h : parseTopicFilter route.topicFilter = .ok (segmentsOf route)) (topic : Str) :
    topicMatchesFilter topic route.topicFilter = .ok (segmentsMatch (splitTopic topic) (segmentsOf route)) := by
  rw [topicMatchesFilter, h]
  rfl

/-- A filter that parses does not begin with `#`. -/
theorem head_ne_hash {route : PublicationRoute} (h : parseTopicFilter route.topicFilter = .ok (segmentsOf route)) :
    (segmentsOf route).head? ≠ some hash := by
  rw [parseTopicFilter, bind_ok] at h
  obtain ⟨_, _, h⟩ := h
  rw [bind_ok] at h
  obtain ⟨_, _, h⟩ := h
  rw [bind_ok] at h
  obtain ⟨_, _, h⟩ := h
  rw [bind_ok] at h
  obtain ⟨_, hhead, -⟩ := h
  rw [refuse_ok, not_or] at hhead
  exact hhead.2

theorem meet_iff_common {left right : PublicationRoute}
    (hl : parseTopicFilter left.topicFilter = .ok (segmentsOf left))
    (hr : parseTopicFilter right.topicFilter = .ok (segmentsOf right)) :
    Meet (segmentsOf left) (segmentsOf right) ↔ ∃ topic, Common left right topic := by
  constructor
  · rintro ⟨topic, hml, hmr⟩
    have hml' := segmentsMatch_plain (not_mem_splitTopic left.topicFilter) hml
    have hmr' := segmentsMatch_plain (not_mem_splitTopic right.topicFilter) hmr
    have hne : topic.map plainName ≠ [] := by
      intro hnil
      rw [hnil] at hml'
      have hhead := head_ne_hash hl
      obtain ⟨first, rest, hsplit⟩ := List.exists_cons_of_ne_nil (List.splitOn_ne_nil 47 left.topicFilter)
      rw [segmentsOf, splitTopic, hsplit] at hhead
      rw [splitTopic, hsplit] at hml'
      exact hhead (by rw [segmentsMatch_nil hml']; rfl)
    have hplain : ∀ name ∈ topic.map plainName, (47 : Nat) ∉ name := by
      intro name hname
      obtain ⟨name', -, rfl⟩ := List.mem_map.mp hname
      exact not_mem_plainName name'
    have hsplit : splitTopic ([47].intercalate (topic.map plainName)) = topic.map plainName :=
      List.splitOn_intercalate _ hplain hne
    refine ⟨[47].intercalate (topic.map plainName), ?_, ?_⟩
    · rw [topicMatchesFilter_eq hl, hsplit]
      exact congrArg Except.ok hml'
    · rw [topicMatchesFilter_eq hr, hsplit]
      exact congrArg Except.ok hmr'
  · rintro ⟨topic, hml, hmr⟩
    rw [topicMatchesFilter_eq hl] at hml
    rw [topicMatchesFilter_eq hr] at hmr
    exact ⟨splitTopic topic, Except.ok.inj hml, Except.ok.inj hmr⟩

/-! ## Lists of routes -/

theorem parse_of_valid {route : PublicationRoute} (h : validateRoute route = .ok ()) :
    parseTopicFilter route.topicFilter = .ok (segmentsOf route) := by
  rw [validateRoute, bind_ok] at h
  obtain ⟨segments, hparse, -⟩ := h
  rw [hparse, (parseTopicFilter_ok hparse).1]
  rfl

theorem parsedFilters_of_valid {routes : List PublicationRoute} (h : ∀ route ∈ routes, validateRoute route = .ok ()) :
    parsedFilters routes = .ok (routes.map fun route => (route.topicFilter, segmentsOf route)) := by
  induction routes with
  | nil => rfl
  | cons route routes ih =>
      obtain ⟨hroute, hrest⟩ := List.forall_mem_cons.mp h
      rw [parsedFilters, hroute, parse_of_valid hroute, ih hrest]
      rfl

/-- The pair of routes is rejected exactly when a topic is common, or one shadows the other. -/
theorem validateApart_iff {left right : PublicationRoute} (hl : validateRoute left = .ok ())
    (hr : validateRoute right = .ok ()) :
    validateApart (left.topicFilter, segmentsOf left) (right.topicFilter, segmentsOf right) = .ok () ↔
      (¬ ∃ topic, Common left right topic) ∧
        ¬ (Shadows (segmentsOf left) (segmentsOf right) ∨ Shadows (segmentsOf right) (segmentsOf left)) := by
  have hpl := parse_of_valid hl
  have hpr := parse_of_valid hr
  rw [validateApart, refuse_ok, ← not_or, ← meet_iff_common hpl hpr]
  refine not_congr ?_
  rw [filtersOverlap, segmentsOverlap_iff (segmentsOf left) (segmentsOf right) (List.suffix_refl _) (List.suffix_refl _)
    (parseTopicFilter_ok hpl).2 (parseTopicFilter_ok hpr).2]
  refine or_iff_right_of_imp fun hsame => .inl ?_
  obtain ⟨topic, hmatch⟩ := exists_match (segmentsOf left)
  have hsame' : segmentsOf left = segmentsOf right := congrArg splitTopic hsame
  exact ⟨topic, hmatch, hsame' ▸ hmatch⟩

/-- No topic is common to two of the routes. -/
def PairwiseDisjoint (routes : List PublicationRoute) : Prop :=
  routes.Pairwise fun left right => ¬ ∃ topic, Common left right topic

/-- Well-formed routes without a common topic are accepted exactly when none shadows another. -/
theorem disjoint_accepted_iff {routes : List PublicationRoute} (hvalid : ∀ route ∈ routes, validateRoute route = .ok ())
    (hdisjoint : PairwiseDisjoint routes) :
    validateRoutes routes = .ok () ↔ routes.Pairwise fun left right =>
      ¬ (Shadows (segmentsOf left) (segmentsOf right) ∨ Shadows (segmentsOf right) (segmentsOf left)) := by
  have haccepted : validateRoutes routes = .ok () ↔ routes.Pairwise fun left right =>
      validateApart (left.topicFilter, segmentsOf left) (right.topicFilter, segmentsOf right) = .ok () := by
    rw [validateRoutes, parsedFilters_of_valid hvalid]
    show validateAllApart _ = .ok () ↔ _
    rw [validateAllApart_ok, List.pairwise_map]
  rw [haccepted]
  constructor
  · intro h
    refine h.imp_of_mem fun hleft hright hapart => ?_
    exact ((validateApart_iff (hvalid _ hleft) (hvalid _ hright)).mp hapart).2
  · intro h
    refine (hdisjoint.and h).imp_of_mem fun hleft hright hapart => ?_
    exact (validateApart_iff (hvalid _ hleft) (hvalid _ hright)).mpr hapart

/-- A route for one level, and one for what is two levels below it. -/
def levelRoute : PublicationRoute := { lineRoute with topicFilter := lit "a" }

def belowRoute : PublicationRoute := { lineRoute with topicFilter := lit "a/b/#" }

theorem disjoint_of_not_meet {left right : PublicationRoute} (hl : validateRoute left = .ok ())
    (hr : validateRoute right = .ok ()) (h : ¬ Meet (segmentsOf left) (segmentsOf right)) :
    PairwiseDisjoint [left, right] := by
  refine List.pairwise_pair.mpr fun hcommon => h ?_
  exact (meet_iff_common (parse_of_valid hl) (parse_of_valid hr)).mpr hcommon

theorem disjoint_accepted_lines : validateRoutes [lineRoute, cellRoute] = .ok () := by
  have hline : segmentsOf lineRoute = [lit "a", lit "l", hash] := by decide
  have hcell : segmentsOf cellRoute = [lit "a", lit "m", plus, lit "v"] := by decide
  have hne : ¬ Agree (lit "l") (lit "m") := by
    rintro (h | h | h)
    · revert h
      decide
    · revert h
      decide
    · revert h
      decide
  refine (disjoint_accepted_iff (by decide) (disjoint_of_not_meet (by decide) (by decide) ?_)).mpr
    (List.pairwise_pair.mpr ?_)
  · rw [hline, hcell, meet_cons_iff (by decide) (by decide), meet_cons_iff (by decide) (by decide)]
    exact fun h => hne h.2.1
  · rw [hline, hcell]
    rintro (⟨-, -, -, -, -, h, -⟩ | ⟨-, -, -, -, -, h, -⟩)
    · exact hne h
    · exact hne h.symm

/-- The filters `a` and `a/b/#` have no common topic, and are rejected. -/
theorem shadowed_rejected :
    ¬ ∀ routes, (∀ route ∈ routes, validateRoute route = .ok ()) → PairwiseDisjoint routes →
      validateRoutes routes = .ok () := by
  intro h
  have hlevel : segmentsOf levelRoute = [lit "a"] := by decide
  have hbelow : segmentsOf belowRoute = [lit "a", lit "b", hash] := by decide
  have haccepted := h [levelRoute, belowRoute] (by decide) (by
    refine disjoint_of_not_meet (by decide) (by decide) ?_
    rw [hlevel, hbelow, meet_cons_iff (by decide) (by decide)]
    rintro ⟨-, topic, hnil, hmatch⟩
    cases topic with
    | cons name topic => cases hnil
    | nil =>
        revert hmatch
        decide)
  revert haccepted
  decide

end Uns.Config
