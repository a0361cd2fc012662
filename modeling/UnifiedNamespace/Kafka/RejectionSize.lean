/-
# `Kafka.RejectionSize` — which rejections can be encoded

Both services cut the captured bytes at the bound of the *encoded* record: the
ingest in `_rejection_record`, the lake mapper in `_publish_rejection`.  Base64
makes four characters of three bytes, so a captured payload near the bound gives a
record over it, which `encode_rejection` refuses as `oversize`.

The encoded record takes 147 bytes, the texts and the base64
(`utf8Size_rejection`); it can be written exactly when these fit
(`rejections_encode_iff`).
-/
import UnifiedNamespace.Config.DecodeTotality
import UnifiedNamespace.Config.EventRoundTrip
import UnifiedNamespace.Datalake.Mapper
import UnifiedNamespace.Python.JsonSize

namespace Uns

open Py

variable {lim : Limits}

/-- `IngestionOwner._rejection_record`. -/
def ingressRejection (shardId topic reason : Str) (payload : Bytes) (receivedAt : Datetime) : RejectionRecord where
  stage := lit "mqtt_ingress"
  origin := shardId
  reason := reason
  capturedAt := receivedAt
  topic := topic
  originalBytes := captured payload
  eventId := none
  bounded := length_captured payload

/-- `encode_rejection(record)` returns, with a value inside the bound. -/
def RejectionEncodes (lim : Limits) (r : RejectionRecord) : Prop :=
  ∃ b, encodeRejection lim r = .ok b ∧ b.length ≤ maxRejectionBytes

/-- The bytes of a record around the texts and the base64 of the payload. -/
def rejectionOverhead : Nat := 147

/-- The texts can be written in UTF-8, and with the base64 of the captured bytes they leave room for
the rest of the record. -/
def RejectionFits (lim : Limits) (stage origin reason topic : Str) (payload : Bytes) : Prop :=
  0 < lim.dumpsDepth ∧
    (origin.all isScalar = true ∧ reason.all isScalar = true ∧ topic.all isScalar = true) ∧
    rejectionOverhead + jsonSize stage + jsonSize origin + jsonSize reason + jsonSize topic +
      4 * ((min maxRejectionBytes payload.length + 2) / 3) ≤ maxRejectionBytes

example : maxRejectionBytes < 4 * ((maxRejectionBytes + 2) / 3) := by decide +kernel

/-! ## The encoded record -/

theorem plain_formatTime (t : Datetime) : ∀ c ∈ formatTime t, Plain c := by
  have hzone : Plain 90 := by decide
  intro c hc
  rcases List.mem_append.mp hc with hc | hc
  · exact plain_isoText t c hc
  · rw [List.mem_singleton.mp hc]
    exact hzone

theorem length_formatTime (t : Datetime) : (formatTime t).length = 27 := by
  rw [formatTime, List.length_append, length_isoText, List.length_singleton]

theorem utf8Size_rejection {r : RejectionRecord} (h : r.eventId = none) :
    utf8Size (Json.obj (rejectionWire r)).text =
      rejectionOverhead + jsonSize r.stage + jsonSize r.origin + jsonSize r.reason + jsonSize r.topic +
        4 * ((r.originalBytes.length + 2) / 3) := by
  have htime : utf8Size (strText (formatTime r.capturedAt)) = 29 := by
    rw [utf8Size_strText, jsonSize_plain (plain_formatTime r.capturedAt), length_formatTime]
  have hbytes : utf8Size (strText (b64encode r.originalBytes)) = 4 * ((r.originalBytes.length + 2) / 3) + 2 := by
    rw [utf8Size_strText, jsonSize_plain (plain_b64encode r.originalBytes), length_b64encode]
  have hversion : utf8Size (intTok rejectionSchemaVersion).text = 1 := by decide +kernel
  have hnull : utf8Size (lit "null") = 4 := by decide +kernel
  have hkeys : utf8Size (strText (lit "schema_version")) = 16 ∧ utf8Size (strText (lit "stage")) = 7 ∧
      utf8Size (strText (lit "origin")) = 8 ∧ utf8Size (strText (lit "reason")) = 8 ∧
      utf8Size (strText (lit "captured_at")) = 13 ∧ utf8Size (strText (lit "topic")) = 7 ∧
      utf8Size (strText (lit "event_id")) = 10 ∧ utf8Size (strText (lit "original_base64")) = 17 := by
    decide +kernel
  have hmarks : (Char.ofNat 123).utf8Size = 1 ∧ (Char.ofNat 58).utf8Size = 1 ∧ (Char.ofNat 44).utf8Size = 1 ∧
      (Char.ofNat 125).utf8Size = 1 := by
    decide +kernel
  obtain ⟨hschema, hstage, horigin, hreason, hcaptured, htopic, hevent, hbase64⟩ := hkeys
  obtain ⟨hopen, hcolon, hcomma, hclose⟩ := hmarks
  simp only [rejectionWire, h, optStr, Json.text, membersText, utf8Size_cons, utf8Size_append, utf8Size_nil,
    htime, hbytes, hversion, hnull, hschema, hstage, horigin, hreason, hcaptured, htopic, hevent, hbase64,
    hopen, hcolon, hcomma, hclose, utf8Size_strText, rejectionOverhead]
  ring

theorem all_isScalar_rejection {r : RejectionRecord} (h : r.eventId = none) :
    (Json.obj (rejectionWire r)).text.all isScalar = true ↔
      r.stage.all isScalar = true ∧ r.origin.all isScalar = true ∧ r.reason.all isScalar = true ∧
        r.topic.all isScalar = true := by
  have htime : (formatTime r.capturedAt).all isScalar = true := all_isScalar_plain (plain_formatTime r.capturedAt)
  have hbytes : (b64encode r.originalBytes).all isScalar = true :=
    all_isScalar_plain (plain_b64encode r.originalBytes)
  have hversion : (intTok rejectionSchemaVersion).text.all isScalar = true := by decide +kernel
  have hnull : (lit "null").all isScalar = true := by decide +kernel
  have hkeys : (lit "schema_version").all isScalar = true ∧ (lit "stage").all isScalar = true ∧
      (lit "origin").all isScalar = true ∧ (lit "reason").all isScalar = true ∧
      (lit "captured_at").all isScalar = true ∧ (lit "topic").all isScalar = true ∧
      (lit "event_id").all isScalar = true ∧ (lit "original_base64").all isScalar = true := by
    decide +kernel
  have hmarks : isScalar 123 = true ∧ isScalar 58 = true ∧ isScalar 44 = true ∧ isScalar 125 = true := by
    decide +kernel
  obtain ⟨hschema, hstage, horigin, hreason, hcaptured, htopic, hevent, hbase64⟩ := hkeys
  obtain ⟨hopen, hcolon, hcomma, hclose⟩ := hmarks
  simp only [rejectionWire, h, optStr, Json.text, membersText, List.all_cons, List.all_append, List.all_nil,
    all_isScalar_strText, htime, hbytes, hversion, hnull, hschema, hstage, horigin, hreason, hcaptured, htopic,
    hevent, hbase64, hopen, hcolon, hcomma, hclose, Bool.true_and, Bool.and_true, Bool.and_eq_true]

/-- The record is flat: one level of the encoder and an integer of one digit. -/
theorem dumpsError_rejection (r : RejectionRecord) :
    (Json.obj (rejectionWire r)).dumpsError lim lim.dumpsDepth = none ↔ 0 < lim.dumpsDepth := by
  have hversion : intError lim rejectionSchemaVersion = none := by
    have hdigit : (decimal rejectionSchemaVersion.natAbs).length = 1 := by decide +kernel
    rw [intError, hdigit, if_neg]
    rintro ⟨hlimit, hlong⟩
    omega
  cases hdepth : lim.dumpsDepth with
  | zero => simp only [Json.dumpsError, reduceCtorEq, Nat.lt_irrefl]
  | succ depth =>
      have hevent : (optStr r.eventId).dumpsError lim depth = none := by
        cases r.eventId <;> simp only [optStr, Json.dumpsError]
      simp only [Json.dumpsError, rejectionWire, membersError, hversion, hevent, Option.none_or, Nat.succ_pos]

theorem encodes_iff (r : RejectionRecord) :
    RejectionEncodes lim r ↔ 0 < lim.dumpsDepth ∧ (Json.obj (rejectionWire r)).text.all isScalar = true ∧
      utf8Size (Json.obj (rejectionWire r)).text ≤ maxRejectionBytes := by
  constructor
  · rintro ⟨b, hencoded, hbound⟩
    cases hjson : jsonBytes lim (.obj (rejectionWire r)) with
    | error e =>
        rw [encodeRejection, hjson] at hencoded
        cases hencoded
    | ok b' =>
        obtain ⟨hdepth, hutf8⟩ := jsonBytes_eq_ok.mp hjson
        have hb : b' = b := by
          simp only [encodeRejection, hjson] at hencoded
          split at hencoded
          · cases hencoded
          · exact Except.ok.inj hencoded
        subst hb
        refine ⟨(dumpsError_rejection r).mp hdepth, all_isScalar_of_utf8Decode (utf8Decode_encode hutf8), ?_⟩
        rw [← length_utf8Encode hutf8]
        exact hbound
  · rintro ⟨hdepth, hscalar, hsize⟩
    obtain ⟨b, hutf8⟩ : ∃ b, utf8Encode (Json.obj (rejectionWire r)).text = some b := ⟨_, if_pos hscalar⟩
    have hbound : b.length ≤ maxRejectionBytes := by
      rw [length_utf8Encode hutf8]
      exact hsize
    have hjson : jsonBytes lim (.obj (rejectionWire r)) = .ok b :=
      jsonBytes_eq_ok.mpr ⟨(dumpsError_rejection r).mpr hdepth, hutf8⟩
    refine ⟨b, ?_, hbound⟩
    simp only [encodeRejection, hjson]
    rw [if_neg (by omega)]

/-- A record of the captured bytes encodes exactly when its texts and its payload fit. -/
theorem encodes_captured_iff {r : RejectionRecord} {payload : Bytes} (hevent : r.eventId = none)
    (hstage : r.stage.all isScalar = true) (hbytes : r.originalBytes = captured payload) :
    RejectionEncodes lim r ↔ RejectionFits lim r.stage r.origin r.reason r.topic payload := by
  have hlength : r.originalBytes.length = min maxRejectionBytes payload.length := by
    rw [hbytes, captured, List.length_take]
  rw [encodes_iff r, all_isScalar_rejection hevent, utf8Size_rejection hevent, hlength, RejectionFits]
  constructor
  · rintro ⟨hdepth, ⟨-, htexts⟩, hsize⟩
    exact ⟨hdepth, htexts, hsize⟩
  · rintro ⟨hdepth, htexts, hsize⟩
    exact ⟨hdepth, ⟨hstage, htexts⟩, hsize⟩

/-! ## The two services -/

/-- Each service can write its rejection exactly when the record fits. -/
theorem rejections_encode_iff (lim : Limits) (now : Datetime) :
    (∀ shardId topic reason payload, RejectionEncodes lim (ingressRejection shardId topic reason payload now) ↔
      RejectionFits lim (lit "mqtt_ingress") shardId reason topic payload) ∧
    (∀ r : PendingRejection, RejectionEncodes lim (rejectionRecord r now) ↔
      RejectionFits lim (lit "datalake") (lit "uns_datalake") r.reason r.kafkaTopic r.payload) := by
  have hingress : (lit "mqtt_ingress").all isScalar = true := by decide +kernel
  have hlake : (lit "datalake").all isScalar = true := by decide +kernel
  have horigin : (lit "uns_datalake").all isScalar = true := by decide +kernel
  constructor
  · intro shardId topic reason payload
    exact encodes_captured_iff rfl hingress rfl
  · intro r
    exact encodes_captured_iff rfl hlake rfl

/-- A payload of 49152 bytes fills the bound by its base64 alone. -/
theorem large_rejection_oversize : ¬ ∀ lim : Limits, 0 < lim.dumpsDepth → ∀ shardId topic reason payload now,
    RejectionEncodes lim (ingressRejection shardId topic reason payload now) := by
  intro h
  have hencodes := h cpython (by decide) (lit "a") (lit "e/s/l") (lit "invalid_json") (List.replicate 49152 123)
    (Date.midnight ⟨2026, 1, 1, validDate_newYear2026⟩)
  have hfits := (encodes_captured_iff rfl (by decide +kernel) rfl).mp hencodes
  have hsize := hfits.2.2
  rw [List.length_replicate, rejectionOverhead, maxRejectionBytes] at hsize
  omega

end Uns
