/-
# `Config.PublicationRoutes` — registered publication routes

`publication_routes.py`: a route says which topics a source publishes on, as an MQTT
filter.  The list of routes is checked once, pair by pair, with `segmentsOverlap`; a
topic is resolved later with `segmentsMatch`.  The two recursions agree in one direction,
which is the one that matters (`segmentsOverlap_of_match`): filters that match a common
topic overlap, so an accepted list resolves every topic to one route or to none
(`validateRoutes_resolves`).
-/
import UnifiedNamespace.Config.Events
import UnifiedNamespace.Lib.Raise

namespace Uns.Config

open Py Lib

structure SchemaPair where
  payloadSchemaId : Str
  payloadSchemaVersion : Str
deriving DecidableEq

structure PublicationRoute where
  topicFilter : Str
  sourceId : Str
  sourceApplication : Str
  siteId : Str
  wireFormat : Str
  allowedSchemaPairs : List SchemaPair
  defaultSchemaPair : Option SchemaPair
  contentType : Str
  eventKind : Str
  archiveEligible : Bool

def wireFormats : List Str := [lit "raw", lit "uns-publication-v1"]

def plus : Str := lit "+"

def hash : Str := lit "#"

/-! ## Filters -/

/-- The checks on one segment; `#` is for the last one. -/
def checkSegment (last : Bool) (segment : Str) : Except EnvelopeError Unit := do
  refuse (segment = []) ⟨lit "invalid_topic_filter", lit "empty_segment"⟩
  refuse (43 ∈ segment ∧ segment ≠ plus) ⟨lit "invalid_topic_filter", lit "embedded_plus"⟩
  refuse (35 ∈ segment ∧ segment ≠ hash) ⟨lit "invalid_topic_filter", lit "embedded_hash"⟩
  refuse (segment = hash ∧ last = false) ⟨lit "invalid_topic_filter", lit "embedded_hash"⟩

def checkSegments : List Str → Except EnvelopeError Unit
  | [] => .ok ()
  | segment :: segments => do
      checkSegment segments.isEmpty segment
      checkSegments segments

def parseTopicFilter (topicFilter : Str) : Except EnvelopeError (List Str) := do
  refuse (topicFilter = []) ⟨lit "invalid_topic_filter", lit "empty"⟩
  refuse (topicFilter.head? = some 36) ⟨lit "invalid_topic_filter", lit "dollar_root"⟩
  checkSegments (splitTopic topicFilter)
  refuse ((splitTopic topicFilter).head? = some plus ∨ (splitTopic topicFilter).head? = some hash)
    ⟨lit "invalid_topic_filter", lit "dollar_root_wildcard"⟩
  .ok (splitTopic topicFilter)

/-- The rest of a topic against the rest of a filter. -/
def segmentsMatch : List Str → List Str → Bool
  | topic, [] => topic.isEmpty
  | [], segment :: _ => decide (segment = hash)
  | name :: topic, segment :: segments =>
      if segment = hash then true
      else if segment = plus then segmentsMatch topic segments
      else if segment ≠ name then false
      else segmentsMatch topic segments

/-- `segments and segments[-1] == "#"`. -/
def endsInHash (segments : List Str) : Bool := decide (segments.getLast? = some hash)

/-- The rests of two filters; `left` and `right` are the whole of them. -/
def segmentsOverlap (left right : List Str) : List Str → List Str → Bool
  | [], [] => true
  | [], _ :: _ => endsInHash right
  | _ :: _, [] => endsInHash left
  | l :: ls, r :: rs =>
      if l = hash ∨ r = hash then true
      else if l = plus ∨ r = plus then segmentsOverlap left right ls rs
      else if l ≠ r then false
      else segmentsOverlap left right ls rs

def filtersOverlap (left right : List Str) : Bool := segmentsOverlap left right left right

/-- A filter that does not parse raises. -/
def topicMatchesFilter (topic topicFilter : Str) : Except EnvelopeError Bool := do
  let segments ← parseTopicFilter topicFilter
  .ok (segmentsMatch (splitTopic topic) segments)

/-! ## Routes -/

def validateSchemaPair (pair : SchemaPair) : Except EnvelopeError Unit := do
  refuse (isRouteId pair.payloadSchemaId = false) ⟨lit "invalid_field", lit "payload_schema_id"⟩
  refuse (isRouteId pair.payloadSchemaVersion = false)
    ⟨lit "invalid_field", lit "payload_schema_version"⟩

/-- The default pair is one of the allowed ones; a raw route has one. -/
def validateDefaultPair (route : PublicationRoute) : Except EnvelopeError Unit :=
  match route.defaultSchemaPair with
  | none => refuse (route.wireFormat = lit "raw") ⟨lit "missing_field", lit "default_schema_pair"⟩
  | some pair =>
      refuse (pair ∉ route.allowedSchemaPairs) ⟨lit "invalid_field", lit "default_schema_pair"⟩

def validateRoute (route : PublicationRoute) : Except EnvelopeError Unit := do
  let _ ← parseTopicFilter route.topicFilter
  refuse (route.sourceId = []) ⟨lit "invalid_field", lit "source_id"⟩
  refuse (isRouteId route.sourceApplication = false) ⟨lit "invalid_field", lit "source_application"⟩
  refuse (isRouteId route.siteId = false) ⟨lit "invalid_field", lit "site_id"⟩
  refuse (route.wireFormat ∉ wireFormats) ⟨lit "invalid_field", lit "wire_format"⟩
  refuse (route.allowedSchemaPairs = []) ⟨lit "invalid_field", lit "allowed_schema_pairs"⟩
  route.allowedSchemaPairs.forM validateSchemaPair
  validateDefaultPair route
  refuse (route.contentType = []) ⟨lit "invalid_field", lit "content_type"⟩
  refuse (route.eventKind ∉ eventKinds) ⟨lit "invalid_field", lit "event_kind"⟩

def ambiguousRoute : Str := lit "ambiguous_route"

/-- One parsed filter against a later one. -/
def validateApart (left right : Str × List Str) : Except EnvelopeError Unit :=
  refuse (left.1 = right.1 ∨ filtersOverlap left.2 right.2 = true)
    ⟨ambiguousRoute, left.1 ++ lit " overlaps " ++ right.1⟩

def validateAllApart : List (Str × List Str) → Except EnvelopeError Unit
  | [] => .ok ()
  | left :: rest => do
      rest.forM (validateApart left)
      validateAllApart rest

/-- The filters of the checked routes. -/
def parsedFilters : List PublicationRoute → Except EnvelopeError (List (Str × List Str))
  | [] => .ok []
  | route :: routes => do
      validateRoute route
      let segments ← parseTopicFilter route.topicFilter
      let rest ← parsedFilters routes
      .ok ((route.topicFilter, segments) :: rest)

def validateRoutes (routes : List PublicationRoute) : Except EnvelopeError Unit := do
  let parsed ← parsedFilters routes
  validateAllApart parsed

/-- The routes whose filters match. -/
def matchingRoutes (topic : Str) : List PublicationRoute → Except EnvelopeError (List PublicationRoute)
  | [] => .ok []
  | route :: routes => do
      let matched ← topicMatchesFilter topic route.topicFilter
      let rest ← matchingRoutes topic routes
      .ok (if matched then route :: rest else rest)

def resolveRoute (topic : Str) (routes : List PublicationRoute) :
    Except EnvelopeError PublicationRoute := do
  match ← matchingRoutes topic routes with
  | [] => .error ⟨lit "unknown_route", topic⟩
  | [route] => .ok route
  | _ :: _ :: _ => .error ⟨ambiguousRoute, topic⟩

/-! ## Overlap covers matching -/

theorem checkSegments_cons {segment : Str} {segments : List Str} :
    checkSegments (segment :: segments) = .ok () ↔
      checkSegment segments.isEmpty segment = .ok () ∧ checkSegments segments = .ok () := by
  rw [checkSegments, check_ok]

/-- Nothing stands after a `#`. -/
theorem hash_last {segments : List Str} (h : checkSegments (hash :: segments) = .ok ()) :
    segments = [] := by
  obtain ⟨hsegment, _⟩ := checkSegments_cons.mp h
  rw [checkSegment, check_ok, check_ok, check_ok, refuse_ok, refuse_ok, refuse_ok, refuse_ok] at hsegment
  by_contra hne
  exact hsegment.2.2.2 ⟨rfl, List.isEmpty_eq_false_iff.mpr hne⟩

theorem endsInHash_of_suffix {whole : List Str} (h : [hash] <:+ whole) : endsInHash whole = true := by
  obtain ⟨front, rfl⟩ := h
  rw [endsInHash, List.getLast?_append, List.getLast?_singleton]
  rfl

theorem segmentsMatch_nil {segment : Str} {segments : List Str}
    (h : segmentsMatch [] (segment :: segments) = true) : segment = hash :=
  of_decide_eq_true h

theorem segmentsMatch_cons {name segment : Str} {topic segments : List Str}
    (h : segmentsMatch (name :: topic) (segment :: segments) = true) :
    segment = hash ∨
      (segment = plus ∨ segment = name) ∧ segmentsMatch topic segments = true := by
  rw [segmentsMatch] at h
  by_cases hhash : segment = hash
  · exact .inl hhash
  · rw [if_neg hhash] at h
    by_cases hplus : segment = plus
    · rw [if_pos hplus] at h
      exact .inr ⟨.inl hplus, h⟩
    · rw [if_neg hplus] at h
      split at h
      · cases h
      · next heq => exact .inr ⟨.inr (not_not.mp heq), h⟩

section

variable {left right : List Str}

/-- Two filters that match a common topic overlap.  The induction is on the topic; `#`
is the last segment of its filter, so the end of the other one is recognised by it. -/
theorem segmentsOverlap_of_match : ∀ (topic ls rs : List Str), ls <:+ left → rs <:+ right →
    checkSegments ls = .ok () → checkSegments rs = .ok () → segmentsMatch topic ls = true →
    segmentsMatch topic rs = true → segmentsOverlap left right ls rs = true := by
  intro topic
  induction topic with
  | nil =>
      intro ls rs hls hrs hl hr hml hmr
      cases ls with
      | nil =>
          cases rs with
          | nil => rfl
          | cons r rs =>
              have hhash := segmentsMatch_nil hmr
              subst hhash
              rw [hash_last hr] at hrs
              exact endsInHash_of_suffix hrs
      | cons l ls =>
          have hhash := segmentsMatch_nil hml
          subst hhash
          cases rs with
          | nil =>
              rw [hash_last hl] at hls
              exact endsInHash_of_suffix hls
          | cons r rs => rw [segmentsOverlap, if_pos (.inl rfl)]
  | cons name topic ih =>
      intro ls rs hls hrs hl hr hml hmr
      cases ls with
      | nil => cases hml
      | cons l ls =>
          cases rs with
          | nil => cases hmr
          | cons r rs =>
              have hnext := ih ls rs ((List.suffix_cons l ls).trans hls)
                ((List.suffix_cons r rs).trans hrs) (checkSegments_cons.mp hl).2
                (checkSegments_cons.mp hr).2
              rw [segmentsOverlap]
              rcases segmentsMatch_cons hml with hhash | ⟨hl', hml'⟩
              · rw [if_pos (.inl hhash)]
              · rcases segmentsMatch_cons hmr with hhash | ⟨hr', hmr'⟩
                · rw [if_pos (.inr hhash)]
                · have hrest := hnext hml' hmr'
                  split
                  · rfl
                  · split
                    · exact hrest
                    · next hplus =>
                      rw [not_or] at hplus
                      have hlr : l = r := (hl'.resolve_left hplus.1).trans (hr'.resolve_left hplus.2).symm
                      rw [if_neg (not_not.mpr hlr)]
                      exact hrest

end

theorem filtersOverlap_of_match {topic left right : List Str} (hl : checkSegments left = .ok ())
    (hr : checkSegments right = .ok ()) (hml : segmentsMatch topic left = true)
    (hmr : segmentsMatch topic right = true) : filtersOverlap left right = true :=
  segmentsOverlap_of_match topic left right (List.suffix_refl _) (List.suffix_refl _) hl hr hml hmr

/-! ## An accepted list -/

theorem parseTopicFilter_ok {topicFilter : Str} {segments : List Str}
    (h : parseTopicFilter topicFilter = .ok segments) :
    segments = splitTopic topicFilter ∧ checkSegments segments = .ok () := by
  rw [parseTopicFilter, bind_ok] at h
  obtain ⟨_, _, h⟩ := h
  rw [bind_ok] at h
  obtain ⟨_, _, h⟩ := h
  rw [bind_ok] at h
  obtain ⟨_, hcheck, h⟩ := h
  rw [bind_ok] at h
  obtain ⟨_, _, h⟩ := h
  cases h
  exact ⟨rfl, hcheck⟩

theorem validateAllApart_ok {parsed : List (Str × List Str)} :
    validateAllApart parsed = .ok () ↔
      parsed.Pairwise fun left right => validateApart left right = .ok () := by
  induction parsed with
  | nil => exact ⟨fun _ => .nil, fun _ => rfl⟩
  | cons left rest ih => rw [validateAllApart, check_ok, forM_ok, ih, List.pairwise_cons]

/-- What is matched, where every filter parses. -/
theorem matchingRoutes_of_parsed {topic : Str} {routes : List PublicationRoute}
    {parsed : List (Str × List Str)} (h : parsedFilters routes = .ok parsed) :
    ∃ matching, matchingRoutes topic routes = .ok matching ∧ matching.Sublist routes ∧
      matching.map (·.topicFilter) =
        (parsed.filter fun p => segmentsMatch (splitTopic topic) p.2).map Prod.fst := by
  induction routes generalizing parsed with
  | nil =>
      cases h
      exact ⟨[], rfl, .slnil, rfl⟩
  | cons route routes ih =>
      rw [parsedFilters, bind_ok] at h
      obtain ⟨_, _, h⟩ := h
      rw [bind_ok] at h
      obtain ⟨segments, hsegments, h⟩ := h
      rw [bind_ok] at h
      obtain ⟨rest, hrest, h⟩ := h
      cases h
      obtain ⟨matching, hmatching, hsub, hmap⟩ := ih hrest
      have hhead : topicMatchesFilter topic route.topicFilter =
          .ok (segmentsMatch (splitTopic topic) segments) := by
        rw [topicMatchesFilter, hsegments]
        rfl
      have hstep : matchingRoutes topic (route :: routes) =
          .ok (if segmentsMatch (splitTopic topic) segments then route :: matching else matching) := by
        rw [matchingRoutes, hhead, hmatching]
        rfl
      refine ⟨_, hstep, ?_, ?_⟩
      · split
        · exact hsub.cons_cons route
        · exact hsub.cons route
      · by_cases hm : segmentsMatch (splitTopic topic) segments = true
        · rw [if_pos hm, List.filter_cons_of_pos (by exact hm), List.map_cons, List.map_cons, hmap]
        · rw [if_neg hm, List.filter_cons_of_neg (by exact hm), hmap]

theorem parsedFilters_checked {routes : List PublicationRoute} {parsed : List (Str × List Str)}
    (h : parsedFilters routes = .ok parsed) : ∀ p ∈ parsed, checkSegments p.2 = .ok () := by
  induction routes generalizing parsed with
  | nil =>
      cases h
      exact fun _ hp => (nomatch hp)
  | cons route routes ih =>
      rw [parsedFilters, bind_ok] at h
      obtain ⟨_, _, h⟩ := h
      rw [bind_ok] at h
      obtain ⟨segments, hsegments, h⟩ := h
      rw [bind_ok] at h
      obtain ⟨rest, hrest, h⟩ := h
      cases h
      exact List.forall_mem_cons.mpr ⟨(parseTopicFilter_ok hsegments).2, ih hrest⟩

/-- Of the filters of an accepted list one matches a topic at most. -/
theorem accepted_matches {topic : List Str} {parsed : List (Str × List Str)}
    (hparsed : ∀ p ∈ parsed, checkSegments p.2 = .ok ()) (h : validateAllApart parsed = .ok ()) :
    (parsed.filter fun p => segmentsMatch topic p.2).length ≤ 1 := by
  rw [validateAllApart_ok] at h
  have hsub : (parsed.filter fun p => segmentsMatch topic p.2).Pairwise
      fun left right => validateApart left right = .ok () := h.sublist List.filter_sublist
  cases hlist : parsed.filter fun p => segmentsMatch topic p.2 with
  | nil => exact Nat.zero_le 1
  | cons left rest =>
      cases rest with
      | nil => exact Nat.le_refl 1
      | cons right rest =>
          exfalso
          rw [hlist] at hsub
          have hapart := (List.pairwise_cons.mp hsub).1 right List.mem_cons_self
          rw [validateApart, refuse_ok, not_or] at hapart
          have hmem : ∀ p ∈ left :: right :: rest, p ∈ parsed ∧ segmentsMatch topic p.2 = true :=
            fun p hp => List.mem_filter.mp (hlist ▸ hp)
          obtain ⟨hleft, hml⟩ := hmem left List.mem_cons_self
          obtain ⟨hright, hmr⟩ := hmem right (List.mem_cons_of_mem _ List.mem_cons_self)
          exact hapart.2
            (filtersOverlap_of_match (hparsed left hleft) (hparsed right hright) hml hmr)

/-- A topic is resolved to one route of an accepted list, or to none. -/
theorem validateRoutes_resolves {routes : List PublicationRoute} (h : validateRoutes routes = .ok ())
    (topic : Str) :
    (∀ e, resolveRoute topic routes = .error e → e.reason ≠ ambiguousRoute) ∧
      ∃ matching, matchingRoutes topic routes = .ok matching ∧ matching.length ≤ 1 := by
  rw [validateRoutes, bind_ok] at h
  obtain ⟨parsed, hparsed, hapart⟩ := h
  obtain ⟨matching, hmatching, _, hmap⟩ := @matchingRoutes_of_parsed topic routes parsed hparsed
  have hone : matching.length ≤ 1 := by
    have hlen := congrArg List.length hmap
    rw [List.length_map, List.length_map] at hlen
    exact hlen.trans_le (accepted_matches (parsedFilters_checked hparsed) hapart)
  refine ⟨?_, matching, hmatching, hone⟩
  intro e he
  rw [resolveRoute, hmatching] at he
  match matching, hone with
  | [], _ =>
      cases he
      show lit "unknown_route" ≠ ambiguousRoute
      decide
  | [_], _ => cases he

def lineRoute : PublicationRoute where
  topicFilter := lit "a/l/#"
  sourceId := lit "s"
  sourceApplication := lit "app"
  siteId := lit "site"
  wireFormat := lit "uns-publication-v1"
  allowedSchemaPairs := [⟨lit "p", lit "1"⟩]
  defaultSchemaPair := none
  contentType := lit "json"
  eventKind := lit "telemetry"
  archiveEligible := true

def cellRoute : PublicationRoute :=
  { lineRoute with
    topicFilter := lit "a/m/+/v"
    wireFormat := lit "raw"
    defaultSchemaPair := some ⟨lit "p", lit "1"⟩ }

theorem validateRoutes_resolves_lines :
    (∀ e, resolveRoute (lit "a/m/c/v") [lineRoute, cellRoute] = .error e → e.reason ≠ ambiguousRoute) ∧
      ∃ matching, matchingRoutes (lit "a/m/c/v") [lineRoute, cellRoute] = .ok matching ∧
        matching.length ≤ 1 :=
  validateRoutes_resolves (by decide) (lit "a/m/c/v")

end Uns.Config
