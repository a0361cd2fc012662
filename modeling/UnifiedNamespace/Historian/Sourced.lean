/-
# `Historian.Sourced` — what is in memory comes from the log

Every message a task waits with is a record of the log, every event in the collector
or taken out of it is the event of such a record, and every record that is
checkpointed as ignored is one the historian does not project (`Sourced`).  That is
what the facts about checkpoints, lost messages and failed flushes start from.
-/
import UnifiedNamespace.Historian.Consumer

namespace Uns.Historian

open Py Lib

section Sourced

variable {E : Env} {w : World}

def Message.place (msg : Message) : PartitionKey × Nat := (msg.partitionKey, msg.offset)

def Message.FromLog (E : Env) (msg : Message) : Prop := E.log msg.partitionKey msg.offset = some msg.value

def CollectedEvent.FromLog (E : Env) (e : CollectedEvent) : Prop :=
  ∃ msg : Message, msg.FromLog E ∧ msg.IsEvent E e

def IgnoredConsumedRecord.FromLog (E : Env) (r : IgnoredConsumedRecord) : Prop :=
  ∃ msg : Message, msg.FromLog E ∧ msg.IsIgnored E r

structure Task.Sourced (E : Env) (t : Task) : Prop where
  events : ∀ e ∈ t.events, e.FromLog E
  message : ∀ msg, t.pending.message = some msg → msg.FromLog E
  record : ∀ r, t.pending.record = some r → r.FromLog E

structure Sourced (E : Env) (w : World) : Prop where
  collector : ∀ e ∈ w.mapper.collector.events, e.FromLog E
  tasks : ∀ t ∈ w.tasks, t.Sourced E

/-! ## A stretch and a transaction -/

/-- What a stretch leaves in memory. -/
theorem Stretch.sourced {m : Mapper} {source : Resume} {out : Mapper × Option Task}
    (h : Stretch E m source out) (hcollector : ∀ e ∈ m.collector.events, e.FromLog E)
    (hmessage : ∀ msg, source.message = some msg → msg.FromLog E)
    (hrecord : ∀ r, source.record = some r → r.FromLog E) :
    (∀ e ∈ out.1.collector.events, e.FromLog E) ∧ ∀ t, out.2 = some t → t.Sourced E := by
  have hheld : ∀ e ∈ heldEvents out, e.FromLog E := by
    intro e he
    rcases h.events e he with hold | ⟨msg, hmsg, hevent, -⟩
    · exact hcollector e hold
    · exact ⟨msg, hmessage msg hmsg, hevent⟩
  refine ⟨fun e he => hheld e (List.mem_append_left _ he), ?_⟩
  intro t ht
  refine ⟨?_, ?_, ?_⟩
  · intro e he
    refine hheld e (List.mem_append_right _ ?_)
    rw [ht]
    exact he
  · exact fun msg hmsg => hmessage msg (h.message t msg ht hmsg)
  · intro r hr
    rcases h.record t r ht hr with hold | ⟨msg, hmsg, hignored⟩
    · exact hrecord r hold
    · exact ⟨msg, hmessage msg hmsg, hignored⟩

theorem Sourced.runTask (h : Sourced E w) {task : Task} (htask : task ∈ w.tasks) (clock : Clock)
    (reply : CommitReply) :
    (∀ e ∈ (w.runTask E clock reply task).1.mapper.collector.events, e.FromLog E) ∧
      ∀ t, (w.runTask E clock reply task).2 = some t → t.Sourced E := by
  obtain ⟨hevents, hmessage, hrecord⟩ := h.tasks task htask
  cases task with
  | flush => exact (stretch_flushTask _).sourced h.collector hmessage hrecord
  | handle msg => exact stretch_handle.1.sourced h.collector hmessage hrecord
  | observing next => exact (stretch_resume next).1.sourced h.collector hmessage hrecord
  | persisting events next =>
      refine ⟨h.collector, ?_⟩
      rintro t ⟨⟩
      exact ⟨hevents, hmessage, hrecord⟩
  | checkpointing record =>
      refine ⟨h.collector, ?_⟩
      rintro t ⟨⟩
      exact ⟨hevents, hmessage, hrecord⟩
  | persisted events outcome next =>
      cases outcome with
      | error raised => exact ⟨h.collector, fun _ ht => by cases ht⟩
      | ok result =>
          rw [World.runTask]
          dsimp only
          rw [commitKafka_frame]
          refine ⟨h.collector, ?_⟩
          intro t ht
          split at ht
          · cases ht
            exact ⟨fun _ he => (by cases he), hmessage, hrecord⟩
          · cases ht
  | checkpointed record outcome =>
      cases outcome with
      | none => exact ⟨h.collector, fun _ ht => by cases ht⟩
      | some result =>
          rw [World.runTask]
          dsimp only
          rw [commitKafka_frame]
          exact ⟨h.collector, fun _ ht => by cases ht⟩

/-! ## What a transaction passes -/

/-- An offset that a checkpoint passes with a batch is that of an event whose row could be made. -/
theorem passed_by_batch {S : Setting} {epoch : Nat} {events : List CollectedEvent} {t t' : Tables}
    {result : BatchPersistResult}
    (h : persistBatch S epoch (events.map (·.toConsumedEvent)) t = .ok (t', result)) {key : PartitionKey}
    {o : Nat} (hold : t.checkpoint epoch key ≤ o) (ho : o < t'.checkpoint epoch key) :
    ∃ rows, prepare S (events.map (·.toConsumedEvent)) = .ok (rows, rows.map (metricsOf S)) ∧
      Persisted epoch t rows (rows.map (metricsOf S)).flatten t' result ∧
      ∃ r ∈ rows, isHandled (t.checkpoint epoch) r = true ∧ r.partitionKey = key ∧ r.offset = o ∧
        ∃ e ∈ events, rowOf S e.toConsumedEvent = .ok r ∧ e.place = (key, o) := by
  obtain ⟨rows, hprepare, hrows, hpersisted⟩ := prepared_of_ok h
  refine ⟨rows, hprepare, hpersisted, ?_⟩
  rw [hpersisted.checkpoint key] at ho
  obtain ⟨r, hlive, hoffset⟩ := List.mem_map.mp ((lt_computeNextOffset_iff hold).mp ho o hold le_rfl)
  obtain ⟨hr, hkeyed⟩ := List.mem_filter.mp hlive
  obtain ⟨hkey, hhandled⟩ := of_decide_eq_true hkeyed
  obtain ⟨e', he', hrow⟩ := exists_event_of_mem hrows hr
  obtain ⟨e, he, rfl⟩ := List.mem_map.mp ((List.mem_insertionSort _).mp he')
  obtain ⟨hrkey, hroffset, -⟩ := rowOf_spec hrow
  refine ⟨r, hr, hhandled, hkey, hoffset, e, he, hrow, ?_⟩
  rw [CollectedEvent.place, ← hkey, ← hoffset, hrkey, hroffset]

/-- An offset that a checkpoint passes with an ignored record is the record's. -/
theorem passed_by_ignored {epoch : Nat} {record : IgnoredConsumedRecord} {t : Tables} {key : PartitionKey}
    {o : Nat} (hold : t.checkpoint epoch key ≤ o)
    (ho : o < (checkpointIgnoredRecords epoch [record] t).1.checkpoint epoch key) :
    record.place = (key, o) := by
  obtain ⟨-, hcheck, -, -⟩ := @checkpointIgnored_spec epoch t [record]
  obtain ⟨offsets, hoffsets, heq⟩ := hcheck key
  rw [heq] at ho
  have hmem := (lt_computeNextOffset_iff hold).mp ho o hold le_rfl
  obtain ⟨r, hr, hkey, hoffset, -⟩ := (hoffsets o).mp hmem
  obtain rfl := List.mem_singleton.mp hr
  rw [IgnoredConsumedRecord.place, hkey, hoffset]

/-! ## Every step -/

theorem Sourced.settle {out : World × Option Task} (i : Nat)
    (hcollector : ∀ e ∈ out.1.mapper.collector.events, e.FromLog E)
    (htasks : ∀ t ∈ out.1.tasks, t.Sourced E) (hnew : ∀ t, out.2 = some t → t.Sourced E) :
    Sourced E (World.settle i out) := by
  refine ⟨?_, ?_⟩
  · rw [settle_frame]
    exact hcollector
  · intro t ht
    rcases mem_settle ht with ht | ht
    · exact htasks t ht
    · exact hnew t ht

theorem Sourced.next (h : Sourced E w) (input : Input) : Sourced E (w.next E input) := by
  obtain ⟨v, hv, hstepped⟩ := @stepped_next E w input
  rw [hv]
  cases hstepped with
  | quiet hquiet =>
      refine ⟨?_, ?_⟩
      · rw [hquiet.mapper]
        exact h.collector
      · rw [hquiet.tasks]
        exact h.tasks
  | flushes =>
      refine ⟨h.collector, ?_⟩
      intro t ht
      rcases mem_append_one ht with ht | rfl
      · exact h.tasks t ht
      · exact ⟨fun _ he => (nomatch he), fun _ hm => (nomatch hm), fun _ hr => (nomatch hr)⟩
  | polls hpolls =>
      refine ⟨h.collector, ?_⟩
      intro t ht
      rcases mem_append_one ht with ht | rfl
      · exact h.tasks t ht
      · refine ⟨fun _ he => (nomatch he), ?_, fun _ hr => (nomatch hr)⟩
        rintro msg ⟨⟩
        exact hpolls.logged
  | revokes partitions => exact ⟨h.collector, h.tasks⟩
  | assigns _ _ => exact ⟨h.collector, h.tasks⟩
  | runs clock reply htask =>
      obtain ⟨hcollector, hnew⟩ := h.runTask (List.mem_of_getElem? htask) clock reply
      refine Sourced.settle _ hcollector ?_ hnew
      rw [runTask_frame]
      exact h.tasks
  | @transacts i task reply htask =>
      obtain ⟨hframe, hnew⟩ := runTransaction_frame (E := E) (w := w) reply task
      have htask := h.tasks task (List.mem_of_getElem? htask)
      refine Sourced.settle i ?_ ?_ ?_
      · rw [hframe]
        exact h.collector
      · rw [hframe]
        exact h.tasks
      · intro t ht
        obtain ⟨hevents, hpending⟩ := hnew t ht
        refine ⟨?_, ?_, ?_⟩
        · rw [hevents]
          exact htask.events
        · rw [hpending]
          exact htask.message
        · rw [hpending]
          exact htask.record
  | crashes => exact ⟨fun _ he => (nomatch he), fun _ ht => (nomatch ht)⟩

theorem sourced_start (h : w.IsStart) : Sourced E w := by
  obtain ⟨-, -, hstart⟩ := h
  rw [← hstart]
  exact ⟨fun _ he => (nomatch he), fun _ ht => (nomatch ht)⟩

end Sourced

end Uns.Historian
