/-
# `Historian.Replay` — the log read again after a crash

The consumer reads a log of events in batches.  A crash loses what it had read but
not persisted; it restarts at or below the SQL checkpoint, and may split the log
differently.  `replay` is the system of all such runs: a batch takes the events
between two positions, a restart moves the positions back.

Every event below a position or below a checkpoint is stored (`Caught.covered`),
because a checkpoint only passes offsets of the batch that moved it; so what a
restart skips is there, and what it reads again is found stored.
-/
import UnifiedNamespace.Historian.OneByOne
import UnifiedNamespace.Lib.Transition

namespace Uns.Historian

open Py Lib

/-! ## Restarts -/

inductive ReconcileRaised where
  | kafkaAheadOfSql
  | retentionGap
  deriving DecidableEq

/-- Where a partition is read from once it is assigned. -/
def reconcilePartitionOffset (sqlCheckpoint : Nat) (kafkaCommitted retainedLow : Option Nat) :
    Except ReconcileRaised Nat :=
  if kafkaCommitted.any (sqlCheckpoint < ·) then .error .kafkaAheadOfSql
  else if retainedLow.any (sqlCheckpoint < ·) then .error .retentionGap
  else .ok sqlCheckpoint

theorem reconcile_le {sqlCheckpoint : Nat} {kafkaCommitted retainedLow : Option Nat} {seek : Nat}
    (h : reconcilePartitionOffset sqlCheckpoint kafkaCommitted retainedLow = .ok seek) :
    seek ≤ sqlCheckpoint := by
  rw [reconcilePartitionOffset] at h
  split at h
  · cases h
  · split at h
    · cases h
    · cases h
      exact le_rfl

/-! ## Runs -/

/-- The tables, and the next offset to be read of each partition. -/
structure Consumption where
  tables : Tables
  next : PartitionKey → Nat

inductive ReplayStep where
  | batch (events : List ConsumedEvent) (next : PartitionKey → Nat)
  | restart (next : PartitionKey → Nat)

section Replay

variable (S : Setting) (epoch : Nat) (log : List ConsumedEvent)

/-- The part of the log between two positions, in any order of arrival. -/
def IsBatch (s : Consumption) (events : List ConsumedEvent) (next : PartitionKey → Nat) : Prop :=
  (∀ key, s.next key ≤ next key) ∧
    events.Perm (log.filter fun e =>
      s.next e.partitionKey ≤ e.offset ∧ e.offset < next e.partitionKey)

def replay (start : Consumption) : System Consumption ReplayStep where
  init s := s = start
  step s i s' :=
    match i with
    | .batch events next =>
        IsBatch log s events next ∧ s'.next = next ∧
          ∃ result, persistBatch S epoch events s.tables = .ok (s'.tables, result)
    | .restart next =>
        (∀ key, next key ≤ s.tables.checkpoint epoch key) ∧ s' = ⟨s.tables, next⟩

/-- The whole log has been read. -/
def Finished (s : Consumption) : Prop := ∀ e ∈ log, e.offset < s.next e.partitionKey

def ConsumedEvent.key (e : ConsumedEvent) : EventKey := (e.envelope.time, e.eventId)

/-- A log to be read from the start: each event has its own id and its own place, at or above the
position and the checkpoint. -/
structure ToRead (start : Consumption) : Prop where
  ids : (log.map (·.eventId)).Nodup
  places : (log.map fun e => (e.partitionKey, e.offset)).Nodup
  position : ∀ e ∈ log, start.next e.partitionKey ≤ e.offset
  checkpoint : ∀ e ∈ log, start.tables.checkpoint epoch e.partitionKey ≤ e.offset

/-- The metric rows of an event. -/
def eventMetrics (e : ConsumedEvent) : List MetricInsertRow :=
  match rowOf S e with
  | .ok r => metricsOf S r
  | .error _ => []

/-- Stored since. -/
def newly (t₀ t : Tables) (e : ConsumedEvent) : Bool :=
  (t₀.raw.get? e.key).isNone && (t.raw.get? e.key).isSome

/-- The tables hold what was there and the events read so far. -/
structure Caught (t₀ : Tables) (s : Consumption) : Prop where
  kept : ∀ k c, t₀.raw.get? k = some c → s.tables.raw.get? k = some c
  own : ∀ k c, t₀.raw.get? k = none → s.tables.raw.get? k = some c →
    ∃ e ∈ log, e.key = k ∧ ∃ r, rowOf S e = .ok r ∧ c = r.toRawColumns
  metrics : s.tables.metrics.Perm
    (t₀.metrics ++ (log.filter (newly t₀ s.tables)).flatMap (eventMetrics S))
  covered : ∀ e ∈ log,
    e.offset < s.next e.partitionKey ∨ e.offset < s.tables.checkpoint epoch e.partitionKey →
      s.tables.raw.get? e.key ≠ none

variable {S epoch log}

theorem Caught.start {start : Consumption} (h : ToRead epoch log start) :
    Caught S epoch log start.tables start where
  kept _ _ hk := hk
  own k c hnone hsome := by
    rw [hnone] at hsome
    cases hsome
  metrics := by
    have hnone : log.filter (newly start.tables start.tables) = [] := by
      refine List.filter_eq_nil_iff.mpr fun e _ => ?_
      rw [newly]
      cases start.tables.raw.get? e.key <;> simp
    rw [hnone, List.flatMap_nil, List.append_nil]
  covered e he hlt := by
    have hp := h.position e he
    have hc := h.checkpoint e he
    omega

theorem Caught.restart {t₀ : Tables} {s : Consumption} (h : Caught S epoch log t₀ s)
    {next : PartitionKey → Nat} (hnext : ∀ key, next key ≤ s.tables.checkpoint epoch key) :
    Caught S epoch log t₀ ⟨s.tables, next⟩ where
  kept := h.kept
  own := h.own
  metrics := h.metrics
  covered e he hlt := by
    refine h.covered e he (.inr ?_)
    have hle := hnext e.partitionKey
    rcases hlt with hlt | hlt
    · exact lt_of_lt_of_le hlt hle
    · exact hlt

/-! ## One batch -/

theorem key_of_rowOf {e : ConsumedEvent} {r : RawInsertRow} (h : rowOf S e = .ok r) :
    r.key = e.key := (rowOf_spec h).2.2

theorem exists_event_of_mem {events : List ConsumedEvent} {rows : List RawInsertRow}
    (h : List.Forall₂ (fun e r => rowOf S e = .ok r) events rows) {r : RawInsertRow}
    (hmem : r ∈ rows) : ∃ e ∈ events, rowOf S e = .ok r := by
  induction h with
  | nil => cases hmem
  | cons hr _ ih =>
      rcases List.mem_cons.mp hmem with rfl | hmem
      · exact ⟨_, List.mem_cons_self, hr⟩
      · obtain ⟨e, he, hrow⟩ := ih hmem
        exact ⟨e, List.mem_cons_of_mem _ he, hrow⟩

theorem ids_of_rows {events : List ConsumedEvent} {rows : List RawInsertRow}
    (h : List.Forall₂ (fun e r => rowOf S e = .ok r) events rows) :
    rows.map (·.eventId) = events.map (·.eventId) := by
  induction h with
  | nil => rfl
  | cons hr _ ih =>
      rw [List.map_cons, List.map_cons, ih]
      exact congrArg (· :: _) (congrArg Prod.snd (key_of_rowOf hr))

/-- The event is one the batch inserts. -/
def freshEvent (epoch : Nat) (t : Tables) (e : ConsumedEvent) : Bool :=
  decide (t.checkpoint epoch e.partitionKey ≤ e.offset) && (t.raw.get? e.key).isNone

theorem isFresh_rowOf {t : Tables} {e : ConsumedEvent} {r : RawInsertRow} (h : rowOf S e = .ok r) :
    isFresh t.raw (t.checkpoint epoch) r = freshEvent epoch t e := by
  obtain ⟨hk, ho, hkey⟩ := rowOf_spec h
  rw [isFresh, isHandled, hk, ho, hkey]
  rfl

theorem flatMap_fresh {t : Tables} {events : List ConsumedEvent} {rows : List RawInsertRow}
    (h : List.Forall₂ (fun e r => rowOf S e = .ok r) events rows) :
    (rows.filter (isFresh t.raw (t.checkpoint epoch))).flatMap (metricsOf S) =
      (events.filter (freshEvent epoch t)).flatMap (eventMetrics S) := by
  induction h with
  | nil => rfl
  | cons hr _ ih =>
      rw [List.filter_cons, List.filter_cons, isFresh_rowOf hr]
      split
      · rw [List.flatMap_cons, List.flatMap_cons, ih, eventMetrics, hr]
      · exact ih

/-- What a batch of different events does: each of its fresh events gets its row and its metric
rows. -/
structure Stored (S : Setting) (epoch : Nat) (t : Tables) (events : List ConsumedEvent)
    (t' : Tables) : Prop where
  kept : ∀ k c, t.raw.get? k = some c → t'.raw.get? k = some c
  own : ∀ k c, t.raw.get? k = none → t'.raw.get? k = some c →
    ∃ e ∈ events, freshEvent epoch t e = true ∧ e.key = k ∧ ∃ r, rowOf S e = .ok r ∧ c = r.toRawColumns
  metrics : t'.metrics.Perm (t.metrics ++ (events.filter (freshEvent epoch t)).flatMap (eventMetrics S))
  covered : ∀ e ∈ events, t.checkpoint epoch e.partitionKey ≤ e.offset → t'.raw.get? e.key ≠ none
  checkpoint : ∀ key o, t.checkpoint epoch key ≤ o → o < t'.checkpoint epoch key →
    ∃ e ∈ events, e.partitionKey = key ∧ e.offset = o

theorem stored_of_ok {t t' : Tables} {events : List ConsumedEvent} {result : BatchPersistResult}
    (hids : (events.map (·.eventId)).Nodup)
    (h : persistBatch S epoch events t = .ok (t', result)) : Stored S epoch t events t' := by
  obtain ⟨rows, hrows, hp⟩ := persisted_of_ok h
  have hperm := List.perm_insertionSort ConsumedEvent.le events
  have hrowIds : (rows.map (·.eventId)).Nodup := by
    rw [ids_of_rows hrows]
    exact (hperm.map _).nodup_iff.mpr hids
  have hget : ∀ k, t'.raw.get? k = (t.raw.get? k).or
      (((insertedRows epoch t rows).find? fun r => r.key = k).map (·.toRawColumns)) := by
    intro k
    rw [hp.raw, insertRaw_get?]
    rfl
  obtain ⟨hfresh, hkeys⟩ := @mem_insertedRows_spec epoch t rows
  constructor
  · intro k c hk
    rw [hget, hk]
    rfl
  · intro k c hnone hsome
    rw [hget, hnone, Option.none_or, Option.map_eq_some_iff] at hsome
    obtain ⟨r, hfind, rfl⟩ := hsome
    obtain ⟨hr, hf⟩ := hfresh r (List.mem_of_find?_eq_some hfind)
    obtain ⟨e, he, hrow⟩ := exists_event_of_mem hrows hr
    refine ⟨e, hperm.mem_iff.mp he, isFresh_rowOf hrow ▸ hf, ?_, r, hrow, rfl⟩
    have hk := List.find?_some hfind
    rw [← key_of_rowOf hrow]
    exact of_decide_eq_true hk
  · have hnodup : rows.Nodup := hrowIds.of_map
    have hsame : ∀ q ∈ rows, ∀ r ∈ rows, q.eventId = r.eventId → q = r := fun q hq r hr =>
      List.inj_on_of_nodup_map hrowIds hq hr
    -- A row passed over shares its id with no row inserted.
    have hins : (insertedMetrics epoch t rows (rows.map (metricsOf S)).flatten).Perm
        ((insertedRows epoch t rows).flatMap (metricsOf S)) := by
      refine insertedMetrics_perm_iff.mpr ((passedOver_iff ?_).mpr ⟨?_, ?_⟩)
      · intro q hq r hr _ _ hid
        rw [hsame q hq r hr hid]
      · intro q hq r hr hqf hrf hid
        rw [hsame q hq r hr hid, hrf] at hqf
        cases hqf
      · rw [List.nodup_iff_pairwise_ne] at hnodup
        exact hnodup.imp_of_mem fun hq hr hne _ _ hid => absurd (hsame _ hq _ hr hid) hne
    have hall : (insertedRows epoch t rows).Perm (rows.filter (isFresh t.raw (t.checkpoint epoch))) := by
      have hreturned := @insertRaw_returned t.raw
        (rows.filter (isFresh t.raw (t.checkpoint epoch)))
      refine (List.perm_ext_iff_of_nodup hreturned.2.2.of_map (hnodup.filter _)).mpr fun r => ?_
      refine ⟨fun hr => hreturned.1.subset hr, fun hr => ?_⟩
      obtain ⟨hmem, hf⟩ := List.mem_filter.mp hr
      obtain ⟨q, hq, hk⟩ := hkeys r hmem hf
      rwa [← hsame q (hfresh q hq).1 r hmem (congrArg Prod.snd hk)]
    rw [hp.metrics]
    refine List.Perm.append_left _ (hins.trans ((hall.flatMap_right _).trans ?_))
    rw [flatMap_fresh hrows]
    exact (hperm.filter _).flatMap_right _
  · intro e he hle
    obtain ⟨r, hr, hrow⟩ := exists_row_of_mem hrows (hperm.mem_iff.mpr he)
    obtain ⟨hk, ho, hkey⟩ := rowOf_spec hrow
    rw [hp.raw, insertRaw_fresh, Ne, insertRaw_none_iff]
    rintro ⟨-, hall⟩
    refine hall r (List.mem_filter.mpr ⟨hr, ?_⟩) hkey
    rw [isHandled, hk, ho]
    exact decide_eq_true hle
  · intro key o hle hlt
    rw [hp.checkpoint, computeNextOffset, advanceOver_eq_foldl (List.pairwise_insertionSort _ _)] at hlt
    have hreached := ((reached_iff (List.pairwise_insertionSort _ _)).mpr ⟨hle, hlt⟩).2 o hle le_rfl
    rw [List.mem_insertionSort, handledOffsets, List.mem_map] at hreached
    obtain ⟨r, hr, rfl⟩ := hreached
    obtain ⟨hmem, hpr⟩ := List.mem_filter.mp hr
    obtain ⟨e, he, hrow⟩ := exists_event_of_mem hrows hmem
    obtain ⟨hk, ho, -⟩ := rowOf_spec hrow
    exact ⟨e, hperm.mem_iff.mp he, hk ▸ (of_decide_eq_true hpr).1, ho.symm⟩

/-! ## Whole runs -/

theorem eq_of_id {start : Consumption} (h : ToRead epoch log start) {e f : ConsumedEvent}
    (he : e ∈ log) (hf : f ∈ log) (hid : e.eventId = f.eventId) : e = f :=
  List.inj_on_of_nodup_map h.ids he hf hid

theorem isSome_of_ne {α : Type} {o : Option α} (h : o ≠ none) : o.isSome = true :=
  Option.isSome_iff_ne_none.mpr h

/-- A batch stores the events it reads, and adds exactly these. -/
theorem Caught.batch {start s s' : Consumption} (hlog : ToRead epoch log start)
    (h : Caught S epoch log start.tables s) {events : List ConsumedEvent}
    {next : PartitionKey → Nat} (hbatch : IsBatch log s events next) (hnext : s'.next = next)
    {result : BatchPersistResult}
    (hok : persistBatch S epoch events s.tables = .ok (s'.tables, result)) :
    Caught S epoch log start.tables s' := by
  have hsub : ∀ {e : ConsumedEvent}, e ∈ events → e ∈ log := fun he =>
    List.mem_of_mem_filter (hbatch.2.mem_iff.mp he)
  have hids : (events.map (·.eventId)).Nodup :=
    (hbatch.2.map _).nodup_iff.mpr (hlog.ids.sublist (List.filter_sublist.map _))
  have hstored := stored_of_ok hids hok
  have hlogNodup : log.Nodup := hlog.ids.of_map
  -- What is new now was new before, or is a fresh event of the batch.
  have hnewly : ∀ e ∈ log, newly start.tables s'.tables e = true ↔
      newly start.tables s.tables e = true ∨ e ∈ events.filter (freshEvent epoch s.tables) := by
    intro e he
    simp only [newly, Bool.and_eq_true, Option.isNone_iff_eq_none, List.mem_filter]
    constructor
    · rintro ⟨hnone, hsome⟩
      cases hget : s.tables.raw.get? e.key with
      | some c => exact .inl ⟨hnone, rfl⟩
      | none =>
          obtain ⟨c, hc⟩ := Option.isSome_iff_exists.mp hsome
          obtain ⟨f, hf, hfresh, hk, -⟩ := hstored.own _ _ hget hc
          rw [← eq_of_id hlog (hsub hf) he (congrArg Prod.snd hk)]
          exact .inr ⟨hf, hfresh⟩
    · rintro (⟨hnone, hsome⟩ | ⟨hmem, hfresh⟩)
      · obtain ⟨c, hc⟩ := Option.isSome_iff_exists.mp hsome
        exact ⟨hnone, isSome_of_ne (by rw [hstored.kept _ _ hc]; exact Option.some_ne_none c)⟩
      · rw [freshEvent, Bool.and_eq_true, decide_eq_true_eq, Option.isNone_iff_eq_none] at hfresh
        refine ⟨?_, isSome_of_ne (hstored.covered e hmem hfresh.1)⟩
        cases hget : start.tables.raw.get? e.key with
        | none => rfl
        | some c =>
            rw [h.kept _ _ hget] at hfresh
            cases hfresh.2
  constructor
  · intro k c hk
    exact hstored.kept k c (h.kept k c hk)
  · intro k c hnone hsome
    cases hget : s.tables.raw.get? k with
    | some c' =>
        rw [hstored.kept k c' hget] at hsome
        cases hsome
        exact h.own k c hnone hget
    | none =>
        obtain ⟨e, he, -, hk, hr⟩ := hstored.own k c hget hsome
        exact ⟨e, hsub he, hk, hr⟩
  · have hadded : (log.filter (newly start.tables s'.tables)).Perm
        (log.filter (newly start.tables s.tables) ++ events.filter (freshEvent epoch s.tables)) := by
      refine (List.perm_ext_iff_of_nodup (hlogNodup.filter _) ?_).mpr fun e => ?_
      · refine List.nodup_append.mpr ⟨hlogNodup.filter _, hids.of_map.filter _, ?_⟩
        rintro e he f hf rfl
        have hsome := (List.mem_filter.mp he).2
        have hfresh := (List.mem_filter.mp hf).2
        rw [newly, Bool.and_eq_true] at hsome
        rw [freshEvent, Bool.and_eq_true, Option.isNone_iff_eq_none] at hfresh
        rw [hfresh.2] at hsome
        cases hsome.2
      · rw [List.mem_append, List.mem_filter]
        constructor
        · rintro ⟨he, hn⟩
          rcases (hnewly e he).mp hn with hold | hnew
          · exact .inl (List.mem_filter.mpr ⟨he, hold⟩)
          · exact .inr hnew
        · rintro (hold | hnew)
          · obtain ⟨he, hn⟩ := List.mem_filter.mp hold
            exact ⟨he, (hnewly e he).mpr (.inl hn)⟩
          · have he := hsub (List.mem_of_mem_filter hnew)
            exact ⟨he, (hnewly e he).mpr (.inr hnew)⟩
    refine hstored.metrics.trans ((h.metrics.append_right _).trans ?_)
    rw [List.append_assoc, ← List.flatMap_append]
    exact (hadded.symm.flatMap_right _).append_left _
  · intro e he hlt
    by_cases hold : e.offset < s.next e.partitionKey ∨
        e.offset < s.tables.checkpoint epoch e.partitionKey
    · obtain ⟨c, hc⟩ := Option.ne_none_iff_exists'.mp (h.covered e he hold)
      rw [hstored.kept _ _ hc]
      exact Option.some_ne_none c
    · rw [not_or, not_lt, not_lt] at hold
      have hmem : e ∈ events := by
        rcases hlt with hlt | hlt
        · refine hbatch.2.mem_iff.mpr (List.mem_filter.mpr ⟨he, decide_eq_true ⟨hold.1, ?_⟩⟩)
          rw [← hnext]
          exact hlt
        · obtain ⟨f, hf, hk, ho⟩ := hstored.checkpoint _ _ hold.2 hlt
          have heq : f = e := List.inj_on_of_nodup_map hlog.places (hsub hf) he (Prod.ext hk ho)
          exact heq ▸ hf
      exact hstored.covered e hmem hold.2

/-- A position that `reconcile` gives every partition is one to restart from. -/
theorem reconciled_restart {start s : Consumption} (h : (replay S epoch log start).Reachable s)
    {committed low : PartitionKey → Option Nat} {next : PartitionKey → Nat}
    (hseek : ∀ key, reconcilePartitionOffset (s.tables.checkpoint epoch key) (committed key) (low key) =
      .ok (next key)) : (replay S epoch log start).Reachable ⟨s.tables, next⟩ := by
  refine h.step (i := .restart next) ⟨fun key => ?_, rfl⟩
  exact reconcile_le (hseek key)

/-- Once the log is read, what is stored is what was there and every event of the log. -/
theorem Caught.finished {start s : Consumption} (h : Caught S epoch log start.tables s)
    (hdone : Finished log s) :
    log.filter (newly start.tables s.tables) =
      log.filter fun e => (start.tables.raw.get? e.key).isNone := by
  refine List.filter_congr fun e he => ?_
  rw [newly, isSome_of_ne (h.covered e he (.inl (hdone e he))), Bool.and_true]

theorem persisted_of_not_raised {events : List ConsumedEvent} {t : Tables}
    (h : (inOneBatch S epoch events t).raised = false) :
    ∃ result, persistBatch S epoch events t = .ok ((inOneBatch S epoch events t).tables, result) := by
  rw [inOneBatch] at h ⊢
  split
  · rename_i t' result hok
    exact ⟨result, hok⟩
  · rename_i hraised
    rw [hraised] at h
    cases h

/-- The tables after a batch. -/
def afterBatch (events : List ConsumedEvent) (t : Tables) : Tables :=
  (inOneBatch openSetting 1 events t).tables

end Replay

end Uns.Historian
