/-
# `Historian.CheckpointSafety` — what a checkpoint has passed

A checkpoint passes an offset when a transaction has handled it.  A record that is
inserted or found as an exact duplicate is stored with its content, and one that is no
metric input needs no row; but a record whose time and id are taken by other content,
in the table or earlier in the batch, is handled as well, and no code writes it to the
dead-letter topic.  `passesConflict` is that branch; without it everything below a
checkpoint is accounted for (`checkpoint_safe`).
-/
import UnifiedNamespace.Historian.Sourced

namespace Uns.Historian

open Py Lib

section Safety

variable {E : Env} {w : World}

/-! ## Records below a checkpoint -/

/-- The message that a record of the log is polled as. -/
def messageAt (key : PartitionKey) (offset : Nat) (value : Option Bytes) : Message :=
  ⟨key.1, key.2, offset, value⟩

/-- A row with the record's time, id and content is stored: its own, or the one it duplicates. -/
def StoredAs (E : Env) (t : Tables) (msg : Message) : Prop :=
  ∃ e r c, msg.IsEvent E e ∧ rawRowFromEvent E.setting e.toConsumedEvent = .ok r ∧
    t.raw.get? r.key = some c ∧ c.immutableContentHash = r.immutableContentHash

/-- What may have become of a record that a checkpoint has passed. -/
def Passed (E : Env) (w : World) (key : PartitionKey) (offset : Nat) : Prop :=
  ∀ value, E.log key offset = some value →
    StoredAs E w.tables (messageAt key offset value) ∨
    (∃ r, (messageAt key offset value).IsIgnored E r) ∨ (key, offset) ∈ w.deadLetters

/-- The content that has a time and an id: that of the stored row, or of the first row of the
batch. -/
def holder (t : Tables) (epoch : Nat) (rows : List RawInsertRow) (k : EventKey) : Option Str :=
  ((t.raw.get? k).map (·.immutableContentHash)).or
    ((rows.find? fun r => isHandled (t.checkpoint epoch) r && decide (r.key = k)).map
      (·.immutableContentHash))

/-- The rows of a batch, not below the checkpoint, whose time and id belong to other content. -/
def conflicting (t : Tables) (epoch : Nat) (rows : List RawInsertRow) : List RawInsertRow :=
  rows.filter fun r => isHandled (t.checkpoint epoch) r &&
    decide (holder t epoch rows r.key ≠ some r.immutableContentHash)

/-- The transaction of a batch is committed with a conflicting record in it that is not in the
dead-letter topic. -/
def passesConflict (E : Env) (w : World) : Input → Bool
  | .transact i reply =>
      match w.tasks[i]? with
      | some (.persisting events _) =>
          match prepare E.setting (events.map (·.toConsumedEvent)) with
          | .ok (rows, _) =>
              decide (reply ≠ .rolledBack) && (conflicting w.tables E.epoch rows).any fun r =>
                decide ((r.partitionKey, r.offset) ∉ w.deadLetters)
          | .error _ => false
      | _ => false
  | _ => false

/-! ## A batch -/

/-- The first row of a key is the one inserted. -/
theorem insertRaw_first {raw : Dict EventKey RawColumns} {rows : List RawInsertRow} {k : EventKey}
    (h : raw.get? k = none) :
    (insertRaw raw rows).1.get? k = (rows.find? fun r => r.key = k).map (·.toRawColumns) := by
  induction rows generalizing raw with
  | nil => exact h
  | cons r rows ih =>
      rw [insertRaw, List.find?_cons]
      by_cases hk : r.key = k
      · subst hk
        rw [h]
        simp only [decide_true, Option.map_some]
        refine insertRaw_get?_of_some ?_
        rw [Dict.get?_update_self, h]
        rfl
      · rw [decide_eq_false hk]
        cases hr : raw.get? r.key with
        | some c => exact ih h
        | none =>
            refine ih ?_
            rw [Dict.get?_update_ne _ _ _ fun hkr => hk hkr.symm]
            exact h

/-- After the transaction the content that has a time and an id is that of `holder`. -/
theorem stored_holder {epoch : Nat} {t t' : Tables} {rows : List RawInsertRow}
    {metricRows : List MetricInsertRow} {result : BatchPersistResult}
    (h : Persisted epoch t rows metricRows t' result) {r : RawInsertRow} (hr : r ∈ rows)
    (hhandled : isHandled (t.checkpoint epoch) r = true) :
    ∃ c, t'.raw.get? r.key = some c ∧ holder t epoch rows r.key = some c.immutableContentHash := by
  rw [h.raw, holder]
  cases hold : t.raw.get? r.key with
  | some c => exact ⟨c, insertRaw_get?_of_some hold, rfl⟩
  | none =>
      rw [insertRaw_first hold, List.find?_filter]
      have hsame : (rows.find? fun q => decide (isFresh t.raw (t.checkpoint epoch) q = true ∧
          decide (q.key = r.key) = true)) =
          rows.find? fun q => isHandled (t.checkpoint epoch) q && decide (q.key = r.key) := by
        congr 1
        funext q
        rw [isFresh]
        by_cases hk : q.key = r.key
        · rw [hk, hold]
          simp
        · simp [hk]
      rw [hsame]
      cases hfind : rows.find? fun q => isHandled (t.checkpoint epoch) q && decide (q.key = r.key) with
      | some q => exact ⟨q.toRawColumns, rfl, rfl⟩
      | none =>
          have hnone := List.find?_eq_none.mp hfind r hr
          rw [hhandled, decide_eq_true rfl] at hnone
          exact absurd rfl hnone

theorem FromLog.at {msg : Message} (h : msg.FromLog E) {key : PartitionKey} {offset : Nat}
    {value : Option Bytes} (hplace : (msg.partitionKey, msg.offset) = (key, offset))
    (hlog : E.log key offset = some value) : msg = messageAt key offset value := by
  cases hplace
  rw [h, Option.some.injEq] at hlog
  rw [← hlog]
  rfl

theorem stored_persist {S : Setting} {epoch : Nat} {events : List ConsumedEvent} {t t' : Tables}
    {result : BatchPersistResult} (h : persistBatch S epoch events t = .ok (t', result))
    {k : EventKey} {c : RawColumns} (hc : t.raw.get? k = some c) : t'.raw.get? k = some c := by
  obtain ⟨rows, -, hpersisted⟩ := persisted_of_ok h
  rw [hpersisted.raw]
  exact insertRaw_get?_of_some hc

/-- The transaction of a batch without conflicts leaves everything it passes accounted for. -/
theorem passed_persist (hpassed : ∀ key o, o < w.checkpoint E key → Passed E w key o)
    {events : List CollectedEvent} (hevents : ∀ e ∈ events, e.FromLog E) {t : Tables}
    {result : BatchPersistResult}
    (h : persistBatch E.setting E.epoch (events.map (·.toConsumedEvent)) w.tables = .ok (t, result))
    (hok : ∀ rows ms, prepare E.setting (events.map (·.toConsumedEvent)) = .ok (rows, ms) →
      ∀ r ∈ conflicting w.tables E.epoch rows, (r.partitionKey, r.offset) ∈ w.deadLetters)
    {v : World} (htables : v.tables = t) (hdead : v.deadLetters = w.deadLetters) (key : PartitionKey)
    (o : Nat) (ho : o < v.checkpoint E key) : Passed E v key o := by
  intro value hlog
  rw [htables, hdead]
  rw [World.checkpoint, htables] at ho
  by_cases hold : o < w.checkpoint E key
  · refine (hpassed key o hold value hlog).imp_left ?_
    rintro ⟨e, r, c, he, hr, hc, hhash⟩
    exact ⟨e, r, c, he, hr, stored_persist h hc, hhash⟩
  · obtain ⟨rows, hprepare, hpersisted, r, hr, hhandled, hkey, hoffset, e, he, hrow, hplace⟩ :=
      passed_by_batch h (not_lt.mp hold) ho
    obtain ⟨msg, hmsg, hevent⟩ := hevents e he
    obtain rfl := FromLog.at hmsg (hevent.place.symm.trans hplace) hlog
    obtain ⟨c, hc, hholder⟩ := stored_holder hpersisted hr hhandled
    by_cases hsame : c.immutableContentHash = r.immutableContentHash
    · exact .inl ⟨e, r, c, hevent, (rowOf_eq_ok.mp hrow).1, hc, hsame⟩
    · have hconflict : r ∈ conflicting w.tables E.epoch rows := by
        refine List.mem_filter.mpr ⟨hr, ?_⟩
        rw [hhandled, Bool.true_and, hholder]
        refine decide_eq_true fun heq => hsame (Option.some.inj heq)
      have hdl := hok rows _ hprepare r hconflict
      rw [hkey, hoffset] at hdl
      exact .inr (.inr hdl)

/-- Ignored records are no metric input. -/
theorem passed_ignored (hpassed : ∀ key o, o < w.checkpoint E key → Passed E w key o)
    {record : IgnoredConsumedRecord} (hrecord : record.FromLog E) {v : World}
    (htables : v.tables = (checkpointIgnoredRecords E.epoch [record] w.tables).1)
    (hdead : v.deadLetters = w.deadLetters) (key : PartitionKey) (o : Nat)
    (ho : o < v.checkpoint E key) : Passed E v key o := by
  obtain ⟨⟨hraw, -, -⟩, -, -, -⟩ := @checkpointIgnored_spec E.epoch w.tables [record]
  intro value hlog
  rw [htables, hdead, StoredAs, hraw]
  rw [World.checkpoint, htables] at ho
  by_cases hold : o < w.checkpoint E key
  · exact hpassed key o hold value hlog
  · obtain ⟨msg, hmsg, hignored⟩ := hrecord
    have hplace := passed_by_ignored (not_lt.mp hold) ho
    obtain rfl := FromLog.at hmsg (hignored.place.symm.trans hplace) hlog
    exact .inr (.inl ⟨record, hignored⟩)

/-! ## Every step -/

theorem passed_same {v : World} (hraw : v.tables.raw = w.tables.raw)
    (hcheck : ∀ key, v.checkpoint E key = w.checkpoint E key)
    (hdead : ∀ place ∈ w.deadLetters, place ∈ v.deadLetters)
    (h : ∀ key o, o < w.checkpoint E key → Passed E w key o) (key : PartitionKey) (o : Nat)
    (ho : o < v.checkpoint E key) : Passed E v key o := by
  intro value hlog
  rw [hcheck] at ho
  rcases h key o ho value hlog with hstored | hignored | hdl
  · rw [StoredAs, hraw]
    exact .inl hstored
  · exact .inr (.inl hignored)
  · exact .inr (.inr (hdead _ hdl))

theorem passed_transact (hsourced : Sourced E w)
    (hpassed : ∀ key o, o < w.checkpoint E key → Passed E w key o) {i : Nat} {reply : DbReply} {task : Task}
    (htask : w.tasks[i]? = some task) (hok : passesConflict E w (.transact i reply) = false)
    (key : PartitionKey) (o : Nat) (ho : o < (w.runTransaction E reply task).1.checkpoint E key) :
    Passed E (w.runTransaction E reply task).1 key o := by
  have hmem := hsourced.tasks task (List.mem_of_getElem? htask)
  cases task with
  | persisting events next =>
      rw [World.runTransaction] at ho ⊢
      cases hp : persistBatch E.setting E.epoch (events.map (·.toConsumedEvent)) w.tables with
      | error raised =>
          rw [hp] at ho
          exact hpassed key o ho
      | ok out =>
          obtain ⟨t, result⟩ := out
          rw [hp] at ho
          have hnone : reply ≠ .rolledBack → ∀ rows ms,
              prepare E.setting (events.map (·.toConsumedEvent)) = .ok (rows, ms) →
              ∀ r ∈ conflicting w.tables E.epoch rows, (r.partitionKey, r.offset) ∈ w.deadLetters := by
            intro hreply rows ms hprepare r hr
            by_contra hdl
            rw [passesConflict, htask] at hok
            dsimp only at hok
            rw [hprepare] at hok
            dsimp only at hok
            rw [decide_eq_true hreply, Bool.true_and, List.any_eq_false] at hok
            exact hok r hr (decide_eq_true hdl)
          have hstored := @passed_persist E w hpassed events hmem.events t result hp
          cases reply with
          | committed =>
              exact @hstored (hnone fun h => by cases h) (w.record t (events.map CollectedEvent.place))
                rfl rfl key o ho
          | rolledBack => exact hpassed key o ho
          | unanswered =>
              exact @hstored (hnone fun h => by cases h) (w.record t (events.map CollectedEvent.place))
                rfl rfl key o ho
  | checkpointing record =>
      have hrecord := hmem.record record rfl
      have hskipped := @passed_ignored E w hpassed record hrecord
        (w.record (checkpointIgnoredRecords E.epoch [record] w.tables).1 [record.place]) rfl rfl key o
      cases reply with
      | committed => exact hskipped ho
      | rolledBack => exact hpassed key o ho
      | unanswered => exact hskipped ho
  | _ => exact hpassed key o ho

theorem passed_next (hsourced : Sourced E w)
    (hpassed : ∀ key o, o < w.checkpoint E key → Passed E w key o) {input : Input}
    (hok : passesConflict E w input = false) (key : PartitionKey) (o : Nat)
    (ho : o < (w.next E input).checkpoint E key) : Passed E (w.next E input) key o := by
  obtain ⟨v, hv, hstepped⟩ := @stepped_next E w input
  rw [hv] at ho ⊢
  cases hstepped with
  | quiet hquiet => exact passed_same hquiet.raw hquiet.checkpoint hquiet.deadLetters hpassed key o ho
  | @runs i task clock reply _ =>
      rw [settle_frame, runTask_frame] at ho ⊢
      exact hpassed key o ho
  | transacts reply htask =>
      rw [settle_frame] at ho ⊢
      exact passed_transact hsourced hpassed htask hok key o ho
  | _ => exact hpassed key o ho

/-- In every run of an epoch whose transactions pass no conflicting record, each record below a
checkpoint is stored with its content, is no metric input, or is in the dead-letter topic. -/
theorem checkpoint_safe
    (h : ((epochSystem E).restrict fun w input => passesConflict E w input = false).Reachable w) :
    ∀ key offset, offset < w.checkpoint E key → Passed E w key offset := by
  refine (System.invariant (I := fun w => Sourced E w ∧
    ∀ key o, o < w.checkpoint E key → Passed E w key o) ?_ ?_ h).2
  · rintro w ⟨hstart, hzero⟩
    refine ⟨sourced_start hstart, ?_⟩
    intro key o ho
    rw [World.checkpoint, hzero key] at ho
    exact absurd ho (Nat.not_lt_zero o)
  · rintro w input w' - ⟨hsourced, hpassed⟩ ⟨hok, rfl⟩
    exact ⟨hsourced.next input, passed_next hsourced hpassed hok⟩

/-! ## A conflict that is passed over -/

/-- A sample is consumed, and the poll thread goes on. -/
theorem run_sampleEvent_check (limits : BatchLimits) (values : List Bytes) {offset : Nat} (timestamp : Int)
    (hw : w.Waits offset) (hvalue : values[offset]? = some (sampleEvent offset timestamp).envelopeBytes)
    (ht : |timestamp| < 100000000000)
    (hportable : Portable cpython (telemetrySample Datetime newYear2026 timestamp))
    (hone : limits.maxEvents = 1) (hbytes : (sampleEvent offset timestamp).envelopeBytes.length ≤ limits.maxBytes)
    (hok : (inOneBatch openSetting 1 [(sampleEvent offset timestamp).toConsumedEvent] w.tables).raised = false) :
    (w.run (plantEnv limits values) (consumeOne offset ++ [.check 0])).Waits (offset + 1) ∧
      (w.run (plantEnv limits values) (consumeOne offset ++ [.check 0])).tables =
        afterBatch [(sampleEvent offset timestamp).toConsumedEvent] w.tables ∧
      (w.run (plantEnv limits values) (consumeOne offset ++ [.check 0])).deadLetters = w.deadLetters := by
  obtain ⟨result, hp⟩ := persisted_of_not_raised hok
  have hrun := run_sampleEvent hw hvalue ht hportable hone hbytes hp
  rw [run_append, hrun]
  exact ⟨hw.consumed _ _ _ _, rfl, rfl⟩

end Safety

/-- Two records under one id and time with other payloads. -/
def conflictingValues : List Bytes :=
  [encoded (telemetrySample Datetime newYear2026 1700000000),
    encoded (telemetrySample Datetime newYear2026 1700000001)]

def conflictEnv : Env := plantEnv ⟨1, 4194304, 100000⟩ conflictingValues

example : conflictEnv.log (plantTopic, 0) 2 = none := by decide +kernel

/-- The first is consumed, then the second. -/
def firstRun : World := (World.first.run conflictEnv assignPlant).run conflictEnv (consumeOne 0 ++ [.check 0])

def conflictRun : World := firstRun.run conflictEnv (consumeOne 1 ++ [.check 0])

/-- The tables after the first, and after both. -/
def firstTables : Tables :=
  afterBatch [(sampleEvent 0 1700000000).toConsumedEvent] (World.first.run conflictEnv assignPlant).tables

def conflictTables : Tables := afterBatch [(sampleEvent 1 1700000001).toConsumedEvent] firstTables

theorem firstRun_spec : firstRun.Waits 1 ∧ firstRun.tables = firstTables ∧ firstRun.deadLetters = [] :=
  run_sampleEvent_check ⟨1, 4194304, 100000⟩ conflictingValues 1700000000
    (waits_assignPlant ⟨1, 4194304, 100000⟩ conflictingValues)
    (by rw [envelopeBytes_sampleEvent, conflictingValues, List.getElem?_cons_zero])
    (by norm_num) portable_seconds rfl (length_sampleEvent_le _ _) (by decide +kernel)

/-- The transaction of the first record has no conflict. -/
theorem meets_firstRun :
    (World.first.run conflictEnv assignPlant).Meets conflictEnv
      (fun w input => passesConflict conflictEnv w input = false) (consumeOne 0 ++ [.check 0]) := by
  have hwaits : (World.first.run conflictEnv assignPlant).Waits 0 := waits_assignPlant _ _
  have hlog : conflictEnv.log (plantTopic, 0) 0 = some (some (sampleEvent 0 1700000000).envelopeBytes) := by
    rw [envelopeBytes_sampleEvent]
    exact log_plantEnv _ conflictingValues 0
  have htaken := run_taken hwaits hlog (isEvent_sampleEvent 0 (by norm_num) portable_seconds rfl) rfl
    (length_sampleEvent_le _ _)
  have hok : passesConflict conflictEnv ((World.first.run conflictEnv assignPlant).taken
      ⟨plantTopic, 0, 0, some (sampleEvent 0 1700000000).envelopeBytes⟩ (sampleEvent 0 1700000000))
      (.transact 0 .committed) = false := by
    decide +kernel
  rw [World.run, List.foldl_cons, List.foldl_cons, List.foldl_nil] at htaken
  rw [← htaken] at hok
  exact ⟨rfl, rfl, hok, rfl, rfl, rfl, trivial⟩

/-- The first record is below the checkpoint and accounted for. -/
theorem checkpoint_safe_first : Passed conflictEnv firstRun (plantTopic, 0) 0 := by
  have hstart : ((epochSystem conflictEnv).restrict
      fun w input => passesConflict conflictEnv w input = false).Reachable World.first :=
    .init ⟨isStart_first, fun _ => rfl⟩
  have hassigned := @reachable_run_restrict conflictEnv _ _ (fun _ _ => rfl) _ hstart assignPlant
    ⟨rfl, rfl, rfl, rfl, trivial⟩
  refine checkpoint_safe (reachable_run_restrict (fun _ _ => rfl) hassigned meets_firstRun) _ _ ?_
  show 0 < firstRun.checkpoint conflictEnv (plantTopic, 0)
  rw [World.checkpoint, firstRun_spec.2.1]
  decide +kernel

theorem portable_later : Portable cpython (telemetrySample Datetime newYear2026 1700000001) :=
  ⟨rfl, rfl, by decide +kernel, size_of_all (by decide +kernel)⟩

theorem conflictRun_spec : conflictRun.tables = conflictTables ∧ conflictRun.deadLetters = [] := by
  obtain ⟨hwaits, htables, hdead⟩ := firstRun_spec
  obtain ⟨-, htables', hdead'⟩ := run_sampleEvent_check ⟨1, 4194304, 100000⟩ conflictingValues 1700000001
    hwaits (by rw [envelopeBytes_sampleEvent]; exact List.getElem?_cons_succ) (by norm_num) portable_later rfl (length_sampleEvent_le _ _)
    (by rw [htables]; decide +kernel)
  rw [htables] at htables'
  rw [hdead] at hdead'
  exact ⟨htables', hdead'⟩

theorem key_of_rawRow {S : Setting} {e : ConsumedEvent} {r : RawInsertRow}
    (h : rawRowFromEvent S e = .ok r) : r.key = (e.envelope.time, e.eventId) := by
  rw [rawRowFromEvent] at h
  split at h
  · cases h
  · cases h
    rfl

/-- The content under the id is not that of the second record. -/
theorem conflictTables_hash :
    (conflictTables.raw.get? (newYear2026, firstId)).map (·.immutableContentHash) ≠
      (rawRowFromEvent openSetting (sampleEvent 1 1700000001).toConsumedEvent).toOption.map
        (·.immutableContentHash) := by
  decide +kernel

theorem reachable_first : (epochSystem conflictEnv).Reachable World.first :=
  .init ⟨isStart_first, fun _ => rfl⟩

/-- The second record is below the checkpoint, and only the first is stored. -/
theorem conflict_passed_over : ¬ ∀ E w, (epochSystem E).Reachable w →
    ∀ key offset, offset < w.checkpoint E key → Passed E w key offset := by
  intro h
  obtain ⟨htables, hdead⟩ := conflictRun_spec
  have hbelow : 1 < conflictRun.checkpoint conflictEnv (plantTopic, 0) := by
    rw [World.checkpoint, htables]
    decide +kernel
  have hevent : Message.IsEvent conflictEnv
      (messageAt (plantTopic, 0) 1 (some (sampleEvent 1 1700000001).envelopeBytes)) (sampleEvent 1 1700000001) :=
    isEvent_sampleEvent 1 (by norm_num) portable_later rfl
  have hlog : conflictEnv.log (plantTopic, 0) 1 = some (some (sampleEvent 1 1700000001).envelopeBytes) := by
    simp [conflictEnv, log_plantEnv, conflictingValues, sampleEvent]
  have hreach : (epochSystem conflictEnv).Reachable conflictRun :=
    reachable_runs (fun _ _ => rfl) (reachable_runs (fun _ _ => rfl)
      (reachable_runs (fun _ _ => rfl) reachable_first _) _) _
  have hpassed := h conflictEnv conflictRun hreach (plantTopic, 0) 1 hbelow _ hlog
  rcases hpassed with ⟨e, r, c, he, hr, hc, hhash⟩ | ⟨r, hr⟩ | hdl
  · obtain rfl := IsEvent.unique he hevent
    rw [key_of_rawRow hr, htables] at hc
    refine conflictTables_hash ?_
    have hr' : rawRowFromEvent openSetting (sampleEvent 1 1700000001).toConsumedEvent = .ok r := hr
    rw [hr']
    show (conflictTables.raw.get? (newYear2026, firstId)).map _ = _
    have hc' : conflictTables.raw.get? (newYear2026, firstId) = some c := hc
    rw [hc', Option.map_some, hhash]
    rfl
  · obtain ⟨legacy, hread, -⟩ := hevent
    rw [hr.1] at hread
    cases hread
  · rw [hdead] at hdl
    cases hdl

end Uns.Historian
