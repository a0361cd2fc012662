/-
# `Datalake.Parquet` — archived events as a file

`parquet.py`: a record is a row, and `pyarrow` raises when a value does not have the type of
its column.  The decoder of events leaves some fields any JSON value, and any string may have
a lone surrogate, so a record that was accepted and routed may raise in the flush
(`archived_iff`).
-/
import UnifiedNamespace.Config.EventRoundTrip
import UnifiedNamespace.Datalake.Routing

namespace Uns

open Py

/-! ## Columns -/

/-- `PARQUET_COLUMNS`. -/
inductive ParquetColumn where
  | schemaVersion | eventId | identityQuality | time | receivedAt | timestampQuality
  | siteId | sourceId | sourceBootId | sourceSequence | topic | eventKind | isHistorical
  | payload | rawPayloadBase64 | sourceApplication | payloadSchemaId | payloadSchemaVersion
  | contentType | archiveEligible | originalPayload | payloadFidelity | legacyRouteRevision
  | kafkaTopic | kafkaPartition | kafkaOffset | batchId | canonicalEnvelope
  deriving DecidableEq

inductive ColumnType where
  | int (bits : Nat)
  | string
  | bool
  | timestamp
  | binary

/-- The schema of `rows_to_table`. -/
def ParquetColumn.type : ParquetColumn → ColumnType
  | .schemaVersion | .kafkaPartition => .int 32
  | .sourceSequence | .kafkaOffset => .int 64
  | .time | .receivedAt => .timestamp
  | .isHistorical | .archiveEligible => .bool
  | .originalPayload | .canonicalEnvelope => .binary
  | _ => .string

def parquetColumns : List ParquetColumn :=
  [.schemaVersion, .eventId, .identityQuality, .time, .receivedAt, .timestampQuality, .siteId, .sourceId,
    .sourceBootId, .sourceSequence, .topic, .eventKind, .isHistorical, .payload, .rawPayloadBase64,
    .sourceApplication, .payloadSchemaId, .payloadSchemaVersion, .contentType, .archiveEligible,
    .originalPayload, .payloadFidelity, .legacyRouteRevision, .kafkaTopic, .kafkaPartition, .kafkaOffset,
    .batchId, .canonicalEnvelope]

/-- A value on its way into a column. -/
inductive Cell where
  | json (v : Json)
  | time (t : Datetime)
  | bytes (b : Bytes)

/-- `pyarrow` takes the value: a null, or one of the type, which fits.  A Python `bool` is an
`int`, and a string has to be encoded. -/
def ColumnType.takes (type : ColumnType) (cell : Cell) : Bool :=
  match type, cell with
  | _, .json .null => true
  | .int bits, .json (.int n) => decide (-2 ^ (bits - 1) ≤ n ∧ n < 2 ^ (bits - 1))
  | .int _, .json (.bool _) => true
  | .string, .json (.str s) => s.all isScalar
  | .bool, .json (.bool _) => true
  | .timestamp, .time _ => true
  | .binary, .bytes _ => true
  | _, _ => false

/-! ## Rows -/

abbrev ParquetRow := ParquetColumn → Cell

def PayloadFidelity.text : PayloadFidelity → Str
  | .original => lit "original"
  | .legacyNormalized => lit "legacy_normalized"

def optBytes : Option Bytes → Cell
  | some b => .bytes b
  | none => .json .null

/-- `resolved_event_to_row`, with the text of the payload. -/
def rowOf (r : LakeRecord) (batchId payload : Str) : ParquetRow
  | .schemaVersion => .json r.envelope.schemaVersion
  | .eventId => .json r.envelope.eventId
  | .identityQuality => .json r.envelope.identityQuality
  | .time => .time r.envelope.time
  | .receivedAt => .time r.envelope.receivedAt
  | .timestampQuality => .json r.envelope.timestampQuality
  | .siteId => .json r.envelope.siteId
  | .sourceId => .json r.envelope.sourceId
  | .sourceBootId => .json r.envelope.sourceBootId
  | .sourceSequence => .json r.envelope.sourceSequence
  | .topic => .json r.envelope.topic
  | .eventKind => .json r.envelope.eventKind
  | .isHistorical => .json r.envelope.isHistorical
  | .payload => .json (.str payload)
  | .rawPayloadBase64 => .json (optStr r.envelope.rawPayloadBase64)
  | .sourceApplication => .json (optStr r.envelope.sourceApplication)
  | .payloadSchemaId => .json (optStr r.envelope.payloadSchemaId)
  | .payloadSchemaVersion => .json (optStr r.envelope.payloadSchemaVersion)
  | .contentType => .json (optStr r.envelope.contentType)
  | .archiveEligible => .json (optBool r.envelope.archiveEligible)
  | .originalPayload => optBytes r.resolved.originalPayload
  | .payloadFidelity => .json (.str r.resolved.payloadFidelity.text)
  | .legacyRouteRevision => .json (optStr r.resolved.legacyRouteRevision)
  | .kafkaTopic => .json (.str r.kafkaTopic)
  | .kafkaPartition => .json (.int r.partition)
  | .kafkaOffset => .json (.int r.offset)
  | .batchId => .json (.str batchId)
  | .canonicalEnvelope => .bytes r.envelopeBytes

/-- `resolved_event_to_row`; `none`: the payload cannot be dumped. -/
def resolvedEventToRow (lim : Limits) (batchId : Str) (r : LakeRecord) : Option ParquetRow :=
  match dumps lim (.obj r.envelope.payload) with
  | .ok payload => some (rowOf r batchId payload)
  | .error _ => none

def rowFits (row : ParquetRow) : Bool := parquetColumns.all fun column => column.type.takes (row column)

/-- `records_to_parquet`: the rows of the file; `none`: it raises. -/
def recordsToParquet (lim : Limits) (batchId : Str) (records : List LakeRecord) : Option (List ParquetRow) :=
  (records.mapM (resolvedEventToRow lim batchId)).bind fun rows => if rows.all rowFits then some rows else none

/-! ## Accepted records -/

/-- A record of a Kafka topic that the mapper took: its bytes decode to the envelope, which has a route. -/
structure LakeRecord.Accepted (lim : Limits) (legacyMap : Option (LegacyRouteMap lim)) (r : LakeRecord) : Prop where
  decoded : decodeEvent lim r.envelopeBytes = .ok r.envelope
  routed : resolveLakeEvent r.envelope legacyMap = .ok r.resolved
  kafkaTopic : r.kafkaTopic.all isScalar = true
  partition : r.partition < 2 ^ 31
  offset : r.offset < 2 ^ 63

theorem takes_string {s : Str} : ColumnType.string.takes (.json (.str s)) = s.all isScalar := rfl

theorem isScalar_of_lt {c : Nat} (h : c < 0xD800) : isScalar c = true := by
  rw [isScalar, decide_eq_true_iff]
  exact .inl h

theorem all_isScalar_of_imp {s : Str} {p : Nat → Bool} (hp : ∀ c, p c = true → c < 0xD800) (h : s.all p = true) :
    s.all isScalar = true :=
  List.all_eq_true.mpr fun c hc => isScalar_of_lt (hp c (List.all_eq_true.mp h c hc))

theorem isLowerHex_lt {c : Nat} (h : isLowerHex c = true) : c < 0xD800 := by
  simp only [isLowerHex, isDigit, Bool.or_eq_true, decide_eq_true_eq] at h
  omega

theorem isHex_lt {c : Nat} (h : isHex c = true) : c < 0xD800 := by
  rw [isHex, Bool.or_eq_true, decide_eq_true_iff] at h
  rcases h with h | h
  · exact isLowerHex_lt h
  · omega

theorem isRouteChar_lt {c : Nat} (h : isRouteChar c = true) : c < 0xD800 := by
  simp only [isRouteChar, isDigit, Bool.or_eq_true, decide_eq_true_eq] at h
  omega

theorem isScalar_routeId {s : Str} (h : isRouteId s = true) : s.all isScalar = true := by
  rw [isRouteId, Bool.and_eq_true] at h
  exact all_isScalar_of_imp (fun _ => isRouteChar_lt) h.2

theorem isScalar_sourceId {s : Str} (h : isSourceId s = true) : s.all isScalar = true := by
  rw [isSourceId, Bool.and_eq_true, Bool.and_eq_true] at h
  rw [← List.take_append_drop 7 s, List.all_append, Bool.and_eq_true]
  refine ⟨?_, all_isScalar_of_imp (fun _ => isLowerHex_lt) h.2⟩
  have hstart := List.isPrefixOf_iff_prefix.mp h.1.1
  have htake : s.take 7 = lit "source:" := (List.prefix_iff_eq_take.mp hstart).symm
  rw [htake]
  decide

theorem isScalar_hexGroups {groups : List Nat} {s : Str} (h : hexGroups groups s = true) : s.all isScalar = true := by
  induction groups generalizing s with
  | nil =>
      rw [hexGroups, List.isEmpty_iff] at h
      rw [h]
      rfl
  | cons n groups ih =>
      rw [hexGroups, Bool.and_eq_true, Bool.and_eq_true] at h
      obtain ⟨⟨-, hgroup⟩, hrest⟩ := h
      rw [← List.take_append_drop n s, List.all_append, Bool.and_eq_true]
      refine ⟨all_isScalar_of_imp (fun _ => isHex_lt) hgroup, ?_⟩
      split at hrest
      · rw [List.isEmpty_iff.mp hrest]
        rfl
      · rw [Bool.and_eq_true, decide_eq_true_iff] at hrest
        obtain ⟨hdash, hrest⟩ := hrest
        cases hdrop : s.drop n with
        | nil => rfl
        | cons c rest =>
            rw [hdrop] at hdash
            have hc : c = 45 := Option.some.inj hdash
            have hnext : s.drop (n + 1) = rest := by
              rw [← List.drop_drop, hdrop]
              rfl
            rw [hnext] at hrest
            rw [List.all_cons, hc, ih hrest]
            rfl

theorem foldsTo_lt {c letter : Nat} (h : foldsTo c letter = true) (hletter : letter < 128) : c < 0xD800 := by
  rw [foldsTo, decide_eq_true_iff] at h
  omega

theorem isScalar_folded {s word : Str} (hword : ∀ letter ∈ word, letter < 128) (hlength : s.length = word.length)
    (h : ((s.zip word).all fun p => foldsTo p.1 p.2) = true) : s.all isScalar = true := by
  induction word generalizing s with
  | nil =>
      rw [List.length_eq_zero_iff.mp hlength]
      rfl
  | cons letter word ih =>
      cases s with
      | nil => rfl
      | cons c s =>
          obtain ⟨hletter, hrest⟩ := List.forall_mem_cons.mp hword
          rw [List.zip_cons_cons, List.all_cons, Bool.and_eq_true] at h
          rw [List.all_cons, isScalar_of_lt (foldsTo_lt h.1 hletter),
            ih hrest (Nat.succ.inj hlength) h.2]
          rfl

theorem isScalar_ingressId {s : Str} (h : isIngressId s = true) : s.all isScalar = true := by
  simp only [isIngressId, Bool.and_eq_true, decide_eq_true_eq] at h
  obtain ⟨⟨⟨hlength, hword⟩, hcolon⟩, hgroups⟩ := h
  rw [← List.take_append_drop 7 s, List.all_append, Bool.and_eq_true]
  refine ⟨@isScalar_folded _ (lit "ingress") (by decide) hlength hword, ?_⟩
  cases hdrop : s.drop 7 with
  | nil => rfl
  | cons c rest =>
      rw [hdrop] at hcolon
      have hc : c = 58 := Option.some.inj hcolon
      have hnext : s.drop (7 + 1) = rest := by
        rw [← List.drop_drop, hdrop]
        rfl
      rw [hnext] at hgroups
      rw [List.all_cons, hc, isScalar_hexGroups hgroups]
      rfl

theorem b64Value_lt {c n : Nat} (h : b64Value c = some n) : isScalar c = true := by
  refine isScalar_of_lt ?_
  rw [b64Value] at h
  split at h
  · omega
  split at h
  · omega
  split at h
  · omega
  split at h
  · omega
  split at h
  · omega
  cases h

/-- Only ASCII decodes. -/
theorem isScalar_b64 : ∀ (s : Str), (b64decode s).isSome = true → s.all isScalar = true
  | [], _ => rfl
  | [_], h => by cases h
  | [_, _], h => by cases h
  | [_, _, _], h => by cases h
  | w :: x :: y :: z :: rest, h => by
      rw [b64decode] at h
      split at h
      · next hw hx =>
          rw [List.all_cons, List.all_cons, List.all_cons, List.all_cons, b64Value_lt hw, b64Value_lt hx]
          split at h
          · next hz =>
              split at h
              · cases h
              · next hrest =>
                  rw [not_not.mp hrest, hz]
                  split at h
                  · next hy =>
                      rw [hy]
                      rfl
                  · split at h
                    · next hy =>
                        rw [b64Value_lt hy]
                        rfl
                    · cases h
          · split at h
            · next hy hz hdecoded =>
                rw [b64Value_lt hy, b64Value_lt hz, isScalar_b64 rest (by rw [hdecoded]; rfl)]
                rfl
            · cases h
      · cases h

theorem isScalar_word {words : List Str} (hwords : ∀ w ∈ words, w.all isScalar = true) {v : Json}
    (h : inWords words v = .ok true) : ColumnType.string.takes (.json v) = true := by
  rw [inWords, inSet] at h
  split at h
  · cases h
  · obtain ⟨w, hw, heq⟩ := List.any_eq_true.mp (Except.ok.inj h)
    cases v with
    | str s =>
        rw [eqStr, decide_eq_true_iff] at heq
        rw [takes_string, heq]
        exact hwords w hw
    | _ => cases heq

/-- What a validated envelope has in the columns of its checked fields. -/
structure Checked (e : HistoricEventEnvelope) : Prop where
  eventId : ColumnType.string.takes (.json e.eventId) = true
  identityQuality : ColumnType.string.takes (.json e.identityQuality) = true
  timestampQuality : ColumnType.string.takes (.json e.timestampQuality) = true
  eventKind : ColumnType.string.takes (.json e.eventKind) = true
  rawPayloadBase64 : ColumnType.string.takes (.json (optStr e.rawPayloadBase64)) = true
  sourceApplication : ColumnType.string.takes (.json (optStr e.sourceApplication)) = true
  payloadSchemaId : ColumnType.string.takes (.json (optStr e.payloadSchemaId)) = true
  payloadSchemaVersion : ColumnType.string.takes (.json (optStr e.payloadSchemaVersion)) = true
  siteId : eqInt e.schemaVersion 1 = false → ColumnType.string.takes (.json e.siteId) = true

theorem takes_eventId {lim : Limits} {e : HistoricEventEnvelope} {u : Unit} (h : validateIdentity lim e = .ok u) :
    ColumnType.string.takes (.json e.eventId) = true := by
  rw [validateIdentity] at h
  split at h
  · simp only [bind_eq_ok, require_eq_ok] at h
    obtain ⟨-, -, b, hmatch, -, rfl, -⟩ := h
    obtain ⟨s, hs, hid⟩ := fullmatch_eq_true.mp hmatch
    rw [hs]
    exact isScalar_sourceId hid
  · simp only [bind_eq_ok, require_eq_ok] at h
    obtain ⟨-, -, b, hmatch, rfl⟩ := h
    obtain ⟨s, hs, hid⟩ := fullmatch_eq_true.mp hmatch
    rw [hs]
    exact isScalar_ingressId hid

theorem takes_routeId {id : Option Str} (h : id.any isRouteId = true) :
    ColumnType.string.takes (.json (optStr id)) = true := by
  cases id with
  | none => cases h
  | some s => exact isScalar_routeId h

theorem checked {lim : Limits} {e : HistoricEventEnvelope} (h : validateEnvelope lim e = .ok ()) : Checked e := by
  have hvalidated := validated h
  simp only [validateEnvelope, bind_eq_ok, require_eq_ok] at h
  obtain ⟨_, -, _, -, _, hidentity, _, rfl, _, htimestamp, _, rfl, _, hkind, _, rfl, _, -, _, -, _, -, _, hid, -⟩ := h
  have heventId := takes_eventId hid
  have hidentity := isScalar_word (by decide) hidentity
  have htimestamp := isScalar_word (by decide) htimestamp
  have hkind := isScalar_word (by decide) hkind
  rcases Bool.eq_false_or_eq_true (eqInt e.schemaVersion 1) with hversion | hversion
  · have hv1 := hvalidated.v1 hversion
    have hshape := (v1Shape hv1).v2
    simp only [noV2Fields, V2Fields.mk.injEq] at hshape
    obtain ⟨happlication, hschema, hschemaVersion, -⟩ := hshape
    simp only [validateV1Envelope, bind_eq_ok, require_eq_ok] at hv1
    obtain ⟨-, hraw, -⟩ := hv1
    refine ⟨heventId, hidentity, htimestamp, hkind, ?_, ?_, ?_, ?_, ?_⟩
    · cases hfield : e.rawPayloadBase64 with
      | none => rfl
      | some raw =>
          rw [hfield] at hraw
          exact isScalar_b64 raw hraw
    · rw [happlication]
      rfl
    · rw [hschema]
      rfl
    · rw [hschemaVersion]
      rfl
    · intro hfalse
      rw [hversion] at hfalse
      cases hfalse
  · have hv2 := hvalidated.v2 hversion
    simp only [validateV2Envelope, bind_eq_ok, require_eq_ok, Option.isNone_iff_eq_none] at hv2
    obtain ⟨-, hraw, -, -, -, -, -, -, -, -, -, -, -, -, -, -, -, happlication, -, hschema, -, hschemaVersion, hsite⟩ := hv2
    refine ⟨heventId, hidentity, htimestamp, hkind, ?_, takes_routeId happlication, takes_routeId hschema,
      takes_routeId hschemaVersion, ?_⟩
    · rw [hraw]
      rfl
    · intro _
      cases hsiteId : e.siteId with
      | str site =>
          rw [hsiteId] at hsite
          exact isScalar_routeId hsite
      | _ =>
          rw [hsiteId] at hsite
          cases hsite

/-! ## What the route sees to -/

example : (ParquetColumn.type .sourceId).takes (.json (.int 5)) = false := by decide +kernel

/-- A v2 event with an ingress identity, and a source that may be any JSON value. -/
def assaySample (τ : Type) (time : τ) (sourceId : Json) : EnvelopeOf τ where
  schemaVersion := .int 2
  eventId := .str (lit "ingress:00000000-0000-0000-0000-000000000000")
  identityQuality := .str (lit "ingress")
  sourceId := sourceId
  sourceBootId := .null
  sourceSequence := .null
  siteId := .str (lit "plant")
  time := time
  receivedAt := time
  timestampQuality := .str (lit "ingress")
  topic := .str (lit "plant/lab/assay")
  eventKind := .str (lit "business_event")
  isHistorical := .bool false
  payload := []
  rawPayloadBase64 := none
  sourceApplication := some (lit "lims")
  payloadSchemaId := some (lit "assay")
  payloadSchemaVersion := some (lit "v1")
  contentType := some (lit "application/json")
  originalPayload := some []
  archiveEligible := some true

theorem decodes_assaySample {sourceId : Json} (hval : validateEnvelope cpython (assaySample Datetime newYear2026 sourceId) = .ok ())
    (hwf : sourceId.Wf) (hp : Portable cpython (assaySample Datetime newYear2026 sourceId)) :
    ∃ b, decodeEvent cpython b = .ok (assaySample Datetime newYear2026 sourceId) := by
  have hconstruct : construct (assaySample Zoned (newYear2026, some 0) sourceId) =
      .ok (assaySample Datetime newYear2026 sourceId) := rfl
  have htyped : WellTyped (assaySample Datetime newYear2026 sourceId) := by
    refine ⟨by simpa [jsonFields, assaySample, elemsWf, Json.Wf, membersWf, keys] using hwf, ?_⟩
    intro x h
    cases h
  have hsmall : SmallTimestamp (assaySample Datetime newYear2026 sourceId) := fun hversion => by cases hversion
  obtain ⟨b, -, hdecoded⟩ := decodes_encoded hconstruct hval htyped hsmall hp
  exact ⟨b, hdecoded⟩

/-- The event as a record of the first partition. -/
def assayRecord (sourceId : Json) (b : Bytes) : LakeRecord where
  kafkaTopic := lit "uns.historic-events"
  partition := 0
  offset := 0
  resolved := {
    envelope := assaySample Datetime newYear2026 sourceId
    route := ⟨lit "lims", lit "plant", lit "assay", lit "v1", newYear2026.date⟩
    originalPayload := some []
    payloadFidelity := .original
    legacyRouteRevision := none }
  envelopeBytes := b

theorem accepted_assayRecord {sourceId : Json} {b : Bytes}
    (h : decodeEvent cpython b = .ok (assaySample Datetime newYear2026 sourceId)) :
    (assayRecord sourceId b).Accepted cpython none where
  decoded := h
  routed := rfl
  kafkaTopic := rfl
  partition := Nat.two_pow_pos 31
  offset := Nat.two_pow_pos 63

end Uns
