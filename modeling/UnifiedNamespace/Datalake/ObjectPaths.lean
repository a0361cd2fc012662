/-
# `Datalake.ObjectPaths` — the object path names its route

`lake_object_path` writes the route's values between slashes without escaping
them.  A v2 envelope's values were checked against the identifier pattern when it
was decoded; the application, schema and version of a legacy entry and the site
of a v1 envelope are taken as they are.

The path is exact — it determines the route and the object, and each value is one
segment of it — when none of those values holds a slash or is a traversal and the
two object ids are not the same file name with and without the extension
(`lake_paths_exact_iff`).
-/
import UnifiedNamespace.Datalake.Parquet
import UnifiedNamespace.Model.TopicPath

namespace Uns

open Py Model

variable {lim : Limits}

/-! ## Segments -/

def parquetSuffix : Str := lit ".parquet"

/-- The last segment of the path. -/
def fileName (objectId : Str) : Str :=
  if parquetSuffix.isSuffixOf objectId then objectId else objectId ++ parquetSuffix

/-- The path of a route and an object, segment by segment. -/
def pathSegments (route : LakeRoute) (objectId : Str) : List Str :=
  [lit "raw", lit "v2", lit "application=" ++ route.application, lit "site=" ++ route.site,
    lit "schema=" ++ route.schema, lit "version=" ++ route.version,
    lit "ingestion_date=" ++ dateText route.ingestionDate, fileName objectId]

theorem lakeObjectPath_eq (route : LakeRoute) (objectId : Str) :
    lakeObjectPath route objectId = joinSlash (pathSegments route objectId) := by
  have hprefix : lakePrefixV2 = lit "raw" ++ separator :: lit "v2" := by decide
  have happlication : lit "/application=" = separator :: lit "application=" := by decide
  have hsite : lit "/site=" = separator :: lit "site=" := by decide
  have hschema : lit "/schema=" = separator :: lit "schema=" := by decide
  have hversion : lit "/version=" = separator :: lit "version=" := by decide
  have hdate : lit "/ingestion_date=" = separator :: lit "ingestion_date=" := by decide
  have hslash : lit "/" = [separator] := by decide
  simp only [lakeObjectPath, pathSegments, joinSlash_cons_cons, joinSlash_singleton, hprefix, happlication, hsite,
    hschema, hversion, hdate, hslash, List.append_assoc, List.cons_append, List.nil_append]
  rfl

/-- Two ids, one of which is the other with the extension. -/
def Conflated (a b : Str) : Prop :=
  (¬ parquetSuffix <:+ b ∧ a = b ++ parquetSuffix) ∨ (¬ parquetSuffix <:+ a ∧ b = a ++ parquetSuffix)

theorem fileName_eq_iff {a b : Str} : fileName a = fileName b ↔ a = b ∨ Conflated a b := by
  have hself : ∀ s : Str, parquetSuffix <:+ s ++ parquetSuffix := fun s => List.suffix_append s parquetSuffix
  simp only [fileName, List.isSuffixOf_iff_suffix, Conflated]
  by_cases ha : parquetSuffix <:+ a
  · by_cases hb : parquetSuffix <:+ b
    · simp only [ha, hb, if_true, not_true, false_and, or_false]
    · rw [if_pos ha, if_neg hb]
      constructor
      · intro h
        exact .inr (.inl ⟨hb, h⟩)
      · rintro (rfl | ⟨-, h⟩ | ⟨hna, -⟩)
        · exact absurd ha hb
        · exact h
        · exact absurd ha hna
  · by_cases hb : parquetSuffix <:+ b
    · rw [if_neg ha, if_pos hb]
      constructor
      · intro h
        exact .inr (.inr ⟨ha, h.symm⟩)
      · rintro (rfl | ⟨hnb, -⟩ | ⟨-, h⟩)
        · exact absurd hb ha
        · exact absurd hb hnb
        · exact h.symm
    · rw [if_neg ha, if_neg hb, List.append_left_inj]
      constructor
      · exact .inl
      · rintro (h | ⟨-, h⟩ | ⟨-, h⟩)
        · exact h
        · exact absurd (h ▸ hself b) ha
        · exact absurd (h ▸ hself a) hb

/-! ## Exact paths -/

/-- `value`, read as a path, goes through `.` or `..`. -/
def Traverses (value : Str) : Prop := lit "." ∈ splitSlash value ∨ lit ".." ∈ splitSlash value

/-- No slash, and not itself a traversal. -/
def SafeComponent (value : Str) : Prop := separator ∉ value ∧ value ≠ lit "." ∧ value ≠ lit ".."

instance (value : Str) : Decidable (SafeComponent value) := inferInstanceAs (Decidable (_ ∧ _))

theorem safeComponent_iff {value : Str} : SafeComponent value ↔ separator ∉ value ∧ ¬ Traverses value := by
  refine and_congr_right fun hslash => ?_
  rw [Traverses, splitSlash_of_no_slash hslash, List.mem_singleton, List.mem_singleton, not_or]
  exact and_congr ne_comm ne_comm

/-- The values the path is made of. -/
def pathComponents (route : LakeRoute) (objectId : Str) : List Str :=
  [route.application, route.site, route.schema, route.version, dateText route.ingestionDate, objectId]

/-- Each value is in one segment of the path, and none is a traversal. -/
structure OneSegmentEach (route : LakeRoute) (objectId : Str) : Prop where
  segments : splitSlash (lakeObjectPath route objectId) = pathSegments route objectId
  untraversed : ∀ value ∈ pathComponents route objectId, ¬ Traverses value

/-- The two paths tell the two routes and objects apart. -/
structure PathsExact (route₁ : LakeRoute) (id₁ : Str) (route₂ : LakeRoute) (id₂ : Str) : Prop where
  injective : lakeObjectPath route₁ id₁ = lakeObjectPath route₂ id₂ → route₁ = route₂ ∧ id₁ = id₂
  first : OneSegmentEach route₁ id₁
  second : OneSegmentEach route₂ id₂

/-- The values a route takes from the event. -/
structure SafeRoute (route : LakeRoute) : Prop where
  application : SafeComponent route.application
  site : SafeComponent route.site
  schema : SafeComponent route.schema
  version : SafeComponent route.version

theorem safe_dateText (d : Date) : SafeComponent (dateText d) := by
  have hchars : ∀ c ∈ dateText d, c = 45 ∨ isDigit c = true := by
    intro c hc
    simp only [dateText, List.mem_append, List.mem_cons] at hc
    rcases hc with hc | rfl | hc | rfl | hc
    · exact .inr (digit_padDigits hc)
    · exact .inl rfl
    · exact .inr (digit_padDigits hc)
    · exact .inl rfl
    · exact .inr (digit_padDigits hc)
  refine ⟨fun hslash => ?_, fun h => ?_, fun h => ?_⟩
  · rcases hchars separator hslash with h | h <;> revert h <;> decide
  · have hlength := length_dateText d
    rw [h] at hlength
    revert hlength
    decide
  · have hlength := length_dateText d
    rw [h] at hlength
    revert hlength
    decide

theorem slash_mem_fileName {objectId : Str} : separator ∈ fileName objectId ↔ separator ∈ objectId := by
  have hsuffix : separator ∉ parquetSuffix := by decide
  rw [fileName]
  split
  · exact Iff.rfl
  · rw [List.mem_append]
    exact or_iff_left hsuffix

theorem slash_mem_keyed {key value : Str} (hkey : separator ∉ key) : separator ∈ key ++ value ↔ separator ∈ value := by
  rw [List.mem_append]
  exact or_iff_right hkey

/-- The segments have no slash of their own exactly when the values have none. -/
theorem slashFree_segments_iff {route : LakeRoute} {objectId : Str} :
    (∀ s ∈ pathSegments route objectId, separator ∉ s) ↔
      ∀ value ∈ pathComponents route objectId, separator ∉ value := by
  have hraw : separator ∉ lit "raw" ∧ separator ∉ lit "v2" := by decide
  have happlication : separator ∉ lit "application=" := by decide
  have hsite : separator ∉ lit "site=" := by decide
  have hschema : separator ∉ lit "schema=" := by decide
  have hversion : separator ∉ lit "version=" := by decide
  have hdate : separator ∉ lit "ingestion_date=" := by decide
  simp only [pathSegments, pathComponents, List.forall_mem_cons, slash_mem_keyed happlication, slash_mem_keyed hsite,
    slash_mem_keyed hschema, slash_mem_keyed hversion, slash_mem_keyed hdate, slash_mem_fileName, hraw.1, hraw.2,
    not_false_eq_true, true_and]

theorem oneSegmentEach_iff {route : LakeRoute} {objectId : Str} :
    OneSegmentEach route objectId ↔ SafeRoute route ∧ SafeComponent objectId := by
  have hall : (∀ value ∈ pathComponents route objectId, SafeComponent value) ↔
      SafeRoute route ∧ SafeComponent objectId := by
    simp only [pathComponents, List.forall_mem_cons, List.not_mem_nil, false_imp_iff, implies_true, and_true,
      safe_dateText, true_and]
    constructor
    · rintro ⟨happlication, hsite, hschema, hversion, hid⟩
      exact ⟨⟨happlication, hsite, hschema, hversion⟩, hid⟩
    · rintro ⟨⟨happlication, hsite, hschema, hversion⟩, hid⟩
      exact ⟨happlication, hsite, hschema, hversion, hid⟩
  rw [← hall]
  constructor
  · rintro ⟨hsegments, huntraversed⟩ value hvalue
    refine safeComponent_iff.mpr ⟨slashFree_segments_iff.mp (fun s hs => ?_) value hvalue, huntraversed value hvalue⟩
    rw [← hsegments] at hs
    exact not_mem_of_mem_splitSlash hs
  · intro h
    refine ⟨?_, fun value hvalue => (safeComponent_iff.mp (h value hvalue)).2⟩
    rw [lakeObjectPath_eq]
    refine splitSlash_joinSlash (List.cons_ne_nil _ _) (slashFree_segments_iff.mpr fun value hvalue => ?_)
    exact (h value hvalue).1

theorem dateText_injective {a b : Date} (h : dateText a = dateText b) : a = b := by
  have hparsed : parseDate (dateText a) = parseDate (dateText b) := congrArg parseDate h
  rw [parseDate_dateText, parseDate_dateText] at hparsed
  exact Option.some.inj hparsed

theorem pathSegments_eq_iff {route₁ route₂ : LakeRoute} {id₁ id₂ : Str} :
    pathSegments route₁ id₁ = pathSegments route₂ id₂ ↔ route₁ = route₂ ∧ fileName id₁ = fileName id₂ := by
  constructor
  · intro h
    simp only [pathSegments, List.cons.injEq, List.append_cancel_left_eq, true_and, and_true] at h
    obtain ⟨happlication, hsite, hschema, hversion, hdate, hfile⟩ := h
    refine ⟨?_, hfile⟩
    cases route₁
    cases route₂
    rw [LakeRoute.mk.injEq]
    exact ⟨happlication, hsite, hschema, hversion, dateText_injective hdate⟩
  · rintro ⟨rfl, hfile⟩
    rw [pathSegments, pathSegments, hfile]

/-- Paths are exact when the values are safe, the ids of one route's objects not conflated. -/
theorem pathsExact_iff {route₁ route₂ : LakeRoute} {id₁ id₂ : Str} :
    PathsExact route₁ id₁ route₂ id₂ ↔ (SafeRoute route₁ ∧ SafeComponent id₁) ∧ (SafeRoute route₂ ∧ SafeComponent id₂) ∧
      ¬ (route₁ = route₂ ∧ Conflated id₁ id₂) := by
  have hnot : Conflated id₁ id₂ → id₁ ≠ id₂ := by
    rintro (⟨hb, rfl⟩ | ⟨ha, rfl⟩) he
    · exact hb (he ▸ List.suffix_append _ _)
    · exact ha (he ▸ List.suffix_append _ _)
  constructor
  · rintro ⟨hinjective, hfirst, hsecond⟩
    refine ⟨oneSegmentEach_iff.mp hfirst, oneSegmentEach_iff.mp hsecond, ?_⟩
    rintro ⟨hroute, hconflated⟩
    refine hnot hconflated (hinjective ?_).2
    rw [lakeObjectPath_eq, lakeObjectPath_eq, pathSegments_eq_iff.mpr ⟨hroute, fileName_eq_iff.mpr (.inr hconflated)⟩]
  · rintro ⟨hfirst, hsecond, hapart⟩
    have h₁ := oneSegmentEach_iff.mpr hfirst
    have h₂ := oneSegmentEach_iff.mpr hsecond
    refine ⟨fun hpath => ?_, h₁, h₂⟩
    have hsegments : pathSegments route₁ id₁ = pathSegments route₂ id₂ := by
      rw [← h₁.segments, ← h₂.segments, hpath]
    obtain ⟨hroute, hfile⟩ := pathSegments_eq_iff.mp hsegments
    rcases fileName_eq_iff.mp hfile with hid | hconflated
    · exact ⟨hroute, hid⟩
    · exact absurd ⟨hroute, hconflated⟩ hapart

/-! ## Where the values come from -/

/-- The values a v1 envelope and its legacy entry give to the route are safe. -/
def SafeLegacy (legacyMap : Option (LegacyRouteMap lim)) (e : HistoricEventEnvelope) : Prop :=
  eqInt e.schemaVersion 2 = false → ∀ m siteId entry, legacyMap = some m →
    legacyRoute m.routes e = .ok (some (siteId, entry)) →
      SafeComponent siteId ∧ SafeComponent entry.application ∧ SafeComponent entry.schema ∧ SafeComponent entry.version

theorem safe_routeId {value : Str} (h : isRouteId value = true) : SafeComponent value := by
  rw [isRouteId, Bool.and_eq_true] at h
  have hchars : ∀ c ∈ value, isRouteChar c = true := List.all_eq_true.mp h.2
  refine ⟨fun hslash => ?_, ?_, ?_⟩
  · exact absurd (hchars separator hslash) (by decide)
  · rintro rfl
    exact absurd (hchars 46 (by decide)) (by decide)
  · rintro rfl
    exact absurd (hchars 46 (by decide)) (by decide)

/-- A v2 envelope that was decoded has identifiers for its route. -/
theorem safeRoute_v2 {e : HistoricEventEnvelope} (hvalid : validateEnvelope lim e = .ok ())
    (hversion : eqInt e.schemaVersion 2 = true) {resolved : ResolvedLakeEvent} (h : resolveV2 e = .ok resolved) :
    SafeRoute resolved.route := by
  have hv2 := (validated hvalid).v2 (eqInt_one_of_two hversion)
  simp only [validateV2Envelope, bind_eq_ok, require_eq_ok] at hv2
  obtain ⟨-, -, -, -, -, -, -, -, -, -, -, -, -, -, -, -, -, happlication, -, hschema, -, hschemaVersion, hsite⟩ := hv2
  have hsiteText : isRouteId (siteText e.siteId) = true := by
    cases hsiteId : e.siteId with
    | str site =>
        rw [hsiteId] at hsite
        exact hsite
    | _ =>
        rw [hsiteId] at hsite
        cases hsite
  rw [resolveV2] at h
  split at h
  · cases h
  · cases h
  · cases h
  · next application schema version happ hsch hver =>
      cases h
      rw [happ] at happlication
      rw [hsch] at hschema
      rw [hver] at hschemaVersion
      exact ⟨safe_routeId happlication, safe_routeId hsiteText, safe_routeId hschema, safe_routeId hschemaVersion⟩

/-- A v1 event goes where its legacy entry says. -/
theorem route_resolveV1 {e : HistoricEventEnvelope} {m : LegacyRouteMap lim} {resolved : ResolvedLakeEvent}
    (h : resolveV1 e m = .ok resolved) : ∃ siteId entry, legacyRoute m.routes e = .ok (some (siteId, entry)) ∧
      resolved.route = ⟨entry.application, siteId, entry.schema, entry.version, ingestionDate e⟩ := by
  simp only [resolveV1, bind_eq_ok] at h
  obtain ⟨found, hfound, h⟩ := h
  cases found with
  | none => cases h
  | some found =>
      simp only [bind_eq_ok] at h
      obtain ⟨raw, -, h⟩ := h
      cases h
      exact ⟨found.1, found.2, hfound, rfl⟩

theorem safeRoute_iff {legacyMap : Option (LegacyRouteMap lim)} {e : HistoricEventEnvelope}
    (hvalid : validateEnvelope lim e = .ok ()) {resolved : ResolvedLakeEvent}
    (h : resolveLakeEvent e legacyMap = .ok resolved) : SafeRoute resolved.route ↔ SafeLegacy legacyMap e := by
  unfold resolveLakeEvent at h
  split at h
  · next hversion =>
      refine iff_of_true (safeRoute_v2 hvalid hversion h) fun hfalse => ?_
      rw [hversion] at hfalse
      cases hfalse
  · next hversion =>
      split at h
      · cases legacyMap with
        | none => cases h
        | some m =>
            obtain ⟨siteId, entry, hfound, hroute⟩ := route_resolveV1 h
            rw [hroute]
            constructor
            · rintro ⟨happlication, hsite, hschema, hschemaVersion⟩ - m' siteId' entry' hm hfound'
              cases hm
              rw [hfound] at hfound'
              cases hfound'
              exact ⟨hsite, happlication, hschema, hschemaVersion⟩
            · intro hsafe
              obtain ⟨hsite, happlication, hschema, hschemaVersion⟩ :=
                hsafe (Bool.eq_false_iff.mpr hversion) m siteId entry rfl hfound
              exact ⟨happlication, hsite, hschema, hschemaVersion⟩
      · cases h

theorem valid_of_decodeEvent {data : Bytes} {e : HistoricEventEnvelope} (h : decodeEvent lim data = .ok e) :
    validateEnvelope lim e = .ok () := by
  simp only [decodeEvent, bind_eq_ok] at h
  obtain ⟨-, -, _, -, e', -, u, hvalid, he⟩ := h
  cases he
  exact hvalid

/-- The object paths of two decoded and resolved events are exact when what their legacy entries give is
safe, the object ids are safe, and they are not one id with and without the extension on one route. -/
theorem lake_paths_exact_iff {data₁ data₂ : Bytes} {e₁ e₂ : HistoricEventEnvelope}
    {legacyMap₁ legacyMap₂ : Option (LegacyRouteMap lim)} {resolved₁ resolved₂ : ResolvedLakeEvent} (id₁ id₂ : Str)
    (hdecoded₁ : decodeEvent lim data₁ = .ok e₁) (hdecoded₂ : decodeEvent lim data₂ = .ok e₂)
    (hresolved₁ : resolveLakeEvent e₁ legacyMap₁ = .ok resolved₁)
    (hresolved₂ : resolveLakeEvent e₂ legacyMap₂ = .ok resolved₂) :
    PathsExact resolved₁.route id₁ resolved₂.route id₂ ↔
      (SafeLegacy legacyMap₁ e₁ ∧ SafeComponent id₁) ∧ (SafeLegacy legacyMap₂ e₂ ∧ SafeComponent id₂) ∧
        ¬ (resolved₁.route = resolved₂.route ∧ Conflated id₁ id₂) := by
  have hfirst := safeRoute_iff (valid_of_decodeEvent hdecoded₁) hresolved₁
  have hsecond := safeRoute_iff (valid_of_decodeEvent hdecoded₂) hresolved₂
  rw [pathsExact_iff, hfirst, hsecond]

/-- The telemetry sample's legacy route, to an application. -/
def plantRoutes (application : Str) : Lib.Dict LegacyRouteKey LegacyRouteEntry :=
  ⟨[((lit "plant/line/temp", lit "plc", lit "plant"), ⟨application, lit "reading", lit "v1"⟩)],
    List.nodup_singleton _⟩

theorem exists_plantMap {application : Str}
    (h : (Json.obj [(lit "revision", .str (lit "r1")),
      (lit "routes", .arr ((sortedRoutes (plantRoutes application)).map legacyRouteWire))]).text.all isScalar = true) :
    ∃ m : LegacyRouteMap cpython, m.routes = plantRoutes application := by
  obtain ⟨b, hb⟩ : ∃ b, jsonBytes cpython (.obj [(lit "revision", .str (lit "r1")),
      (lit "routes", .arr ((sortedRoutes (plantRoutes application)).map legacyRouteWire))]) = .ok b :=
    ⟨_, jsonBytes_eq_ok.mpr ⟨rfl, if_pos h⟩⟩
  refine ⟨⟨lit "r1", sha256Hex b, plantRoutes application, ?_⟩, rfl⟩
  rw [computeLegacyMapDigest, hb]
  rfl

/-- The route of the sample. -/
def plantRoute (application : Str) : LakeRoute :=
  ⟨application, lit "plant", lit "reading", lit "v1", newYear2026.date⟩

theorem resolve_telemetrySample {application : Str} {m : LegacyRouteMap cpython}
    (hroutes : m.routes = plantRoutes application) (t : Int) :
    ∃ resolved, resolveLakeEvent (telemetrySample Datetime newYear2026 t) (some m) = .ok resolved ∧
      resolved.route = plantRoute application := by
  have hfound : legacyRoute m.routes (telemetrySample Datetime newYear2026 t) =
      .ok (some (lit "plant", ⟨application, lit "reading", lit "v1"⟩)) := by
    rw [hroutes]
    rfl
  refine ⟨⟨telemetrySample Datetime newYear2026 t, plantRoute application, none, .legacyNormalized, some m.revision⟩,
    ?_, rfl⟩
  change resolveV1 (telemetrySample Datetime newYear2026 t) m = _
  rw [resolveV1, hfound]
  rfl

/-- A telemetry event of the plant and an assay of its laboratory. -/
theorem lake_paths_exact_plant : PathsExact (plantRoute (lit "mes")) (lit "batch1")
    ⟨lit "lims", lit "plant", lit "assay", lit "v1", newYear2026.date⟩ (lit "batch2") := by
  obtain ⟨m, hm⟩ := @exists_plantMap (lit "mes") (by decide +kernel)
  obtain ⟨b₁, -, hb₁⟩ := @decodes_telemetrySample 1700000000 (by norm_num) portable_seconds
  obtain ⟨b₂, hb₂⟩ := @decodes_assaySample (.str (lit "lims-1")) rfl trivial
    ⟨rfl, rfl, by decide +kernel, size_of_all (by decide +kernel)⟩
  obtain ⟨resolved₁, hresolved₁, hroute⟩ := resolve_telemetrySample hm 1700000000
  rw [← hroute]
  refine (lake_paths_exact_iff (lit "batch1") (lit "batch2") hb₁ hb₂ hresolved₁ (accepted_assayRecord hb₂).routed).mpr
    ⟨⟨?_, by decide⟩, ⟨fun hversion => (by cases hversion), by decide⟩, ?_⟩
  · rw [← safeRoute_iff (valid_of_decodeEvent hb₁) hresolved₁, hroute]
    exact ⟨by decide, by decide, by decide, by decide⟩
  · rw [hroute]
    rintro ⟨hroutes, -⟩
    have happlication : lit "mes" = lit "lims" := congrArg LakeRoute.application hroutes
    exact absurd happlication (by decide)

/-- A legacy entry of the application `mes/line1` gives a path with a segment too many. -/
theorem slashed_entry_not_exact : ¬ ∀ (data₁ data₂ : Bytes) (e₁ e₂ : HistoricEventEnvelope)
    (legacyMap : Option (LegacyRouteMap cpython)) (resolved₁ resolved₂ : ResolvedLakeEvent) (id₁ id₂ : Str),
    decodeEvent cpython data₁ = .ok e₁ → decodeEvent cpython data₂ = .ok e₂ →
      resolveLakeEvent e₁ legacyMap = .ok resolved₁ → resolveLakeEvent e₂ legacyMap = .ok resolved₂ →
        PathsExact resolved₁.route id₁ resolved₂.route id₂ := by
  intro h
  obtain ⟨m, hm⟩ := @exists_plantMap (lit "mes/line1") (by decide +kernel)
  obtain ⟨b, -, hb⟩ := @decodes_telemetrySample 1700000000 (by norm_num) portable_seconds
  obtain ⟨resolved, hresolved, hroute⟩ := resolve_telemetrySample hm 1700000000
  have hexact := h b b _ _ (some m) resolved resolved (lit "batch1") (lit "batch1") hb hb hresolved hresolved
  rw [hroute] at hexact
  have hsafe := (oneSegmentEach_iff.mp hexact.first).1.application
  exact absurd hsafe.1 (by decide)

end Uns
