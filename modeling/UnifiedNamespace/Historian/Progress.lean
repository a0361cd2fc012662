/-
# `Historian.Progress` — records handled one after another

When each message is handled before the next one, and every call is answered, a task
runs to its end in a few steps (`drive_ends`).  The checkpoint then comes to the end of
a sequence of records that starts at it exactly when each of them is accepted: it is
nothing the historian projects, or an event that fits a batch of its own and whose rows
can be made (`progress_iff`).  Any other record is dropped without its offset being
recorded, alone or with the batch it is in, and the checkpoint stays in front of it.
-/
import UnifiedNamespace.Historian.Sourced

namespace Uns.Historian

open Py Lib

section Progress

variable {E : Env} {w : World} {key : PartitionKey}

/-! ## One message after another -/

/-- The next step of a task when every call succeeds. -/
def World.advance (E : Env) (clock : Clock) (w : World) : Task → World × Option Task
  | .persisting events next => w.runTransaction E .committed (.persisting events next)
  | .checkpointing record => w.runTransaction E .committed (.checkpointing record)
  | task => w.runTask E clock .done task

/-- Some steps of a task, or all of them; each stretch has its own readings of the clock. -/
def drive (E : Env) (clocks : Nat → Clock) : Nat → World × Option Task → World × Option Task
  | n + 1, (w, some task) => drive E clocks n (w.advance E (clocks n) task)
  | _, out => out

/-- How many steps a resumption can take. -/
def Resume.steps : Resume → Nat
  | .finished => 0
  | .handling _ => 5
  | .ignoring _ => 2
  | .retrying _ => 0

def Task.steps : Task → Nat
  | .flush => 4
  | .handle _ => 9
  | .persisting _ next => next.steps + 3
  | .persisted _ _ next => next.steps + 2
  | .observing next => next.steps + 1
  | .checkpointing _ => 2
  | .checkpointed _ _ => 1

/-- `await self._handle_message(message)`. -/
def World.handled (E : Env) (clocks : Nat → Clock) (w : World) (msg : Message) : World :=
  (drive E clocks 9 (w, some (.handle msg))).1

/-- The messages one after another, with the readings of the clock for each. -/
def World.handledAll (E : Env) (w : World) (msgs : List ((Nat → Clock) × Message)) : World :=
  msgs.foldl (fun w msg => w.handled E msg.1 msg.2) w

/-- `_maybe_flush(force=False)` once the batch is old enough. -/
def World.flushedDue (E : Env) (w : World) : World :=
  (drive E (fun _ _ => w.mapper.collector.startedAt.getD 0 + E.limits.maxAge) 4 (w, some .flush)).1

/-- A step of a task whose calls succeed is a step of the process. -/
theorem next_advance {i : Nat} {task : Task} (h : w.tasks[i]? = some task) (clock : Clock) :
    ∃ input, w.next E input = World.settle i (w.advance E clock task) := by
  cases task with
  | persisting events next => exact ⟨.transact i .committed, by simp only [World.next, h, World.advance]⟩
  | checkpointing record => exact ⟨.transact i .committed, by simp only [World.next, h, World.advance]⟩
  | _ => exact ⟨.run i clock .done, by simp only [World.next, h, World.advance]⟩

/-! ## A task comes to its end -/

theorem bufferAgain_none (clock : Clock) (m : Mapper) (msg : Message) :
    (m.bufferAgain E clock msg).2 = none := by
  rw [Mapper.bufferAgain]
  split <;> rfl

theorem steps_maybeFlush {m : Mapper} {force : Bool} {now : ℤ} {next : Resume}
    {after : Mapper → Mapper × Option Task} {n : Nat} (hnext : next.steps + 3 ≤ n)
    (hafter : ∀ t, (after m).2 = some t → t.steps ≤ n) {t : Task}
    (ht : (m.maybeFlush E force now next after).2 = some t) : t.steps ≤ n := by
  rcases @maybeFlush_cases E m force now next after with ⟨-, h⟩ | ⟨-, -, h⟩
  · rw [h] at ht
    exact hafter t ht
  · rw [h] at ht
    cases ht
    exact hnext

theorem steps_bufferMessage {clock : Clock} {m : Mapper} {msg : Message} {t : Task}
    (ht : (m.bufferMessage E clock msg).2 = some t) : t.steps ≤ 5 := by
  rw [Mapper.bufferMessage] at ht
  split at ht
  · cases ht
  · split at ht
    · refine steps_maybeFlush le_rfl ?_ ht
      rintro t ⟨⟩
      exact Nat.le_add_right 2 3
    · split at ht
      · refine steps_maybeFlush (Nat.le_add_right 3 2) ?_ ht
        intro t ht
        rw [bufferAgain_none] at ht
        cases ht
      · refine steps_maybeFlush (Nat.le_add_right 3 2) ?_ ht
        rintro t ⟨⟩

theorem steps_resume {clock : Clock} {m : Mapper} {next : Resume} {t : Task}
    (ht : (m.resume E clock next).2 = some t) : t.steps ≤ next.steps := by
  cases next with
  | finished => cases ht
  | handling msg =>
      rw [Mapper.resume] at ht
      split at ht
      · cases ht
      · exact steps_bufferMessage ht
  | ignoring record =>
      cases ht
      exact le_rfl
  | retrying msg =>
      rw [Mapper.resume, bufferAgain_none] at ht
      cases ht

theorem steps_handleMessage {clock : Clock} {m : Mapper} {msg : Message} {t : Task}
    (ht : (m.handleMessage E clock msg).2 = some t) : t.steps ≤ 8 := by
  rw [Mapper.handleMessage] at ht
  split at ht
  · refine steps_maybeFlush le_rfl ?_ ht
    exact fun t ht => (steps_resume ht).trans (by decide : 5 ≤ 8)
  · exact (steps_bufferMessage ht).trans (by decide)

theorem steps_advance {clock : Clock} {task t : Task} (ht : (w.advance E clock task).2 = some t) :
    t.steps < task.steps := by
  cases task with
  | flush =>
      refine Nat.lt_succ_of_le (steps_maybeFlush le_rfl ?_ ht)
      rintro t ⟨⟩
  | handle msg => exact Nat.lt_succ_of_le (steps_handleMessage ht)
  | persisting events next =>
      rw [World.advance, World.runTransaction] at ht
      split at ht <;>
      · cases ht
        exact Nat.lt_succ_self _
  | persisted events outcome next =>
      cases outcome with
      | error raised => cases ht
      | ok result =>
          cases ht
          exact Nat.lt_succ_self _
  | observing next => exact Nat.lt_succ_of_le (steps_resume ht)
  | checkpointing record =>
      cases ht
      exact Nat.lt_succ_self _
  | checkpointed record outcome =>
      cases outcome with
      | none => cases ht
      | some result => cases ht

/-- Driven for as many steps as it can take, a task ends. -/
theorem drive_ends (clocks : Nat → Clock) {n : Nat} {task : Task} (h : task.steps ≤ n) :
    (drive E clocks n (w, some task)).2 = none := by
  induction n generalizing w task with
  | zero => cases task <;> cases h
  | succ n ih =>
      rw [drive]
      cases hout : (w.advance E (clocks n) task).2 with
      | none =>
          have hpair : w.advance E (clocks n) task = ((w.advance E (clocks n) task).1, none) := by
            rw [← hout]
          rw [hpair]
          cases n <;> rfl
      | some t =>
          have hpair : w.advance E (clocks n) task = ((w.advance E (clocks n) task).1, some t) := by
            rw [← hout]
          have hless := steps_advance hout
          rw [hpair]
          exact ih (by omega)

/-! ## Only accepted records are passed -/

/-- The historian projects nothing of the record, or it is an event that fits a batch of its own and
whose rows can be made. -/
def Message.Accepted (E : Env) (msg : Message) : Prop :=
  (∃ r, msg.IsIgnored E r) ∨
    ∃ e, msg.IsEvent E e ∧ e.Fits E.limits ∧ ∃ row, rowOf E.setting e.toConsumedEvent = .ok row

/-- The event of one of the messages, which was added to a batch. -/
def CollectedEvent.Came (E : Env) (msgs : List Message) (e : CollectedEvent) : Prop :=
  e.Fits E.limits ∧ ∃ msg ∈ msgs, msg.IsEvent E e

/-- What a task is about comes from the messages. -/
structure Task.Came (E : Env) (msgs : List Message) (t : Task) : Prop where
  events : ∀ e ∈ t.events, e.Came E msgs
  message : ∀ msg, t.pending.message = some msg → msg ∈ msgs
  record : ∀ r, t.pending.record = some r → ∃ msg ∈ msgs, msg.IsIgnored E r

/-- From `start` on, the checkpoint has passed accepted messages only. -/
structure Honest (E : Env) (key : PartitionKey) (start : Nat) (msgs : List Message)
    (out : World × Option Task) : Prop where
  passed : ∀ o, start ≤ o → o < out.1.checkpoint E key → ∃ msg ∈ msgs, msg.offset = o ∧ msg.Accepted E
  collector : ∀ e ∈ out.1.mapper.collector.events, e.Came E msgs
  task : ∀ t, out.2 = some t → t.Came E msgs

variable {start : Nat} {msgs : List Message}

theorem Stretch.honest {m : Mapper} {source : Resume} {out : Mapper × Option Task} (h : Stretch E m source out)
    (hcollector : ∀ e ∈ m.collector.events, e.Came E msgs)
    (hmessage : ∀ msg, source.message = some msg → msg ∈ msgs)
    (hrecord : ∀ r, source.record = some r → ∃ msg ∈ msgs, msg.IsIgnored E r) :
    (∀ e ∈ out.1.collector.events, e.Came E msgs) ∧ ∀ t, out.2 = some t → t.Came E msgs := by
  have hheld : ∀ e ∈ heldEvents out, e.Came E msgs := by
    intro e he
    rcases h.events e he with hold | ⟨msg, hmsg, hevent, hfits⟩
    · exact hcollector e hold
    · exact ⟨hfits, msg, hmessage msg hmsg, hevent⟩
  refine ⟨fun e he => hheld e (List.mem_append_left _ he), ?_⟩
  intro t ht
  refine ⟨?_, fun msg hmsg => hmessage msg (h.message t msg ht hmsg), ?_⟩
  · intro e he
    refine hheld e (List.mem_append_right _ ?_)
    rw [ht]
    exact he
  · intro r hr
    rcases h.record t r ht hr with hold | ⟨msg, hmsg, hignored⟩
    · exact hrecord r hold
    · exact ⟨msg, hmessage msg hmsg, hignored⟩

/-- A stretch moves no checkpoint. -/
theorem Honest.withMapper {out : World × Option Task} (h : Honest E key start msgs out) {v : World}
    (hv : v.tables = out.1.tables) {stretched : Mapper × Option Task}
    (hstretched : (∀ e ∈ stretched.1.collector.events, e.Came E msgs) ∧
      ∀ t, stretched.2 = some t → t.Came E msgs) :
    Honest E key start msgs (v.withMapper stretched) := by
  refine ⟨?_, hstretched.1, hstretched.2⟩
  intro o ho hlt
  rw [World.withMapper, World.checkpoint] at hlt
  refine h.passed o ho ?_
  rw [World.checkpoint, ← hv]
  exact hlt

theorem Honest.runTask {task : Task} (h : Honest E key start msgs (w, some task)) (clock : Clock) :
    Honest E key start msgs (w.runTask E clock .done task) := by
  obtain ⟨hevents, hmessage, hrecord⟩ := h.task task rfl
  cases task with
  | flush => exact h.withMapper rfl ((stretch_flushTask _).honest h.collector hmessage hrecord)
  | handle msg => exact h.withMapper rfl (stretch_handle.1.honest h.collector hmessage hrecord)
  | observing next =>
      exact h.withMapper (v := w.resumeOwned) rfl
        ((stretch_resume next).1.honest h.collector hmessage hrecord)
  | persisting events next => exact h
  | checkpointing record => exact h
  | persisted events outcome next =>
      cases outcome with
      | error raised => exact ⟨h.passed, h.collector, fun _ ht => nomatch ht⟩
      | ok result =>
          refine ⟨h.passed, h.collector, ?_⟩
          rintro t ⟨⟩
          exact ⟨fun _ he => (nomatch he), hmessage, hrecord⟩
  | checkpointed record outcome =>
      cases outcome with
      | none => exact ⟨h.passed, h.collector, fun _ ht => nomatch ht⟩
      | some result => exact ⟨h.passed, h.collector, fun _ ht => nomatch ht⟩

/-- A transaction passes events whose rows were made, and ignored records. -/
theorem Honest.runTransaction {task : Task} (h : Honest E key start msgs (w, some task)) :
    Honest E key start msgs (w.runTransaction E .committed task) := by
  obtain ⟨hevents, hmessage, hrecord⟩ := h.task task rfl
  cases task with
  | persisting events next =>
      rw [World.runTransaction]
      cases hp : persistBatch E.setting E.epoch (events.map (·.toConsumedEvent)) w.tables with
      | error raised =>
          refine ⟨h.passed, h.collector, ?_⟩
          rintro t ⟨⟩
          exact ⟨hevents, hmessage, hrecord⟩
      | ok out =>
          refine ⟨?_, h.collector, ?_⟩
          · intro o ho hlt
            by_cases hold : o < w.checkpoint E key
            · exact h.passed o ho hold
            · obtain ⟨rows, -, -, r, -, -, -, -, e, he, hrow, hplace⟩ :=
                passed_by_batch hp (not_lt.mp hold) hlt
              obtain ⟨hfits, msg, hmsg, hevent⟩ := hevents e he
              have hoffset := congrArg Prod.snd (hevent.place.symm.trans hplace)
              exact ⟨msg, hmsg, hoffset, .inr ⟨e, hevent, hfits, r, hrow⟩⟩
          · rintro t ⟨⟩
            exact ⟨hevents, hmessage, hrecord⟩
  | checkpointing record =>
      refine ⟨?_, h.collector, ?_⟩
      · intro o ho hlt
        by_cases hold : o < w.checkpoint E key
        · exact h.passed o ho hold
        · obtain ⟨msg, hmsg, hignored⟩ := hrecord record rfl
          have hplace := passed_by_ignored (not_lt.mp hold) hlt
          exact ⟨msg, hmsg, congrArg Prod.snd (hignored.place.symm.trans hplace), .inl ⟨record, hignored⟩⟩
      · rintro t ⟨⟩
        exact ⟨hevents, hmessage, hrecord⟩
  | _ => exact h

theorem Honest.drive {clocks : Nat → Clock} {n : Nat} {out : World × Option Task}
    (h : Honest E key start msgs out) : Honest E key start msgs (drive E clocks n out) := by
  induction n generalizing out with
  | zero => exact h
  | succ n ih =>
      obtain ⟨v, _ | task⟩ := out
      · exact h
      · rw [Historian.drive]
        refine ih ?_
        cases task with
        | persisting events next => exact h.runTransaction
        | checkpointing record => exact h.runTransaction
        | _ => exact h.runTask (clocks n)

theorem Honest.handledAll (h : Honest E key start msgs (w, none)) {more : List ((Nat → Clock) × Message)}
    (hmore : ∀ msg ∈ more, msg.2 ∈ msgs) : Honest E key start msgs (w.handledAll E more, none) := by
  induction more generalizing w with
  | nil => exact h
  | cons msg more ih =>
      refine ih ?_ fun other hother => hmore other (List.mem_cons_of_mem _ hother)
      have hone : Honest E key start msgs (Historian.drive E msg.1 9 (w, some (.handle msg.2))) := by
        refine Honest.drive ⟨h.passed, h.collector, ?_⟩
        rintro t ⟨⟩
        refine ⟨fun _ he => (nomatch he), ?_, fun _ hr => (nomatch hr)⟩
        rintro m ⟨⟩
        exact hmore msg List.mem_cons_self
      exact ⟨hone.passed, hone.collector, fun _ ht => nomatch ht⟩

theorem Honest.flushedDue (h : Honest E key start msgs (w, none)) :
    Honest E key start msgs (w.flushedDue E, none) := by
  have hone : Honest E key start msgs
      (Historian.drive E (fun _ _ => w.mapper.collector.startedAt.getD 0 + E.limits.maxAge) 4
        (w, some .flush)) := by
    refine Honest.drive ⟨h.passed, h.collector, ?_⟩
    rintro t ⟨⟩
    exact ⟨fun _ he => (nomatch he), fun _ hm => (nomatch hm), fun _ hr => (nomatch hr)⟩
  exact ⟨hone.passed, hone.collector, fun _ ht => nomatch ht⟩

/-! ## Accepted records are passed -/

/-- The database takes every row. -/
def Setting.TakesAll (S : Setting) : Prop :=
  (∀ c, S.refusesRaw c = false) ∧ ∀ m, S.refusesMetric m = false

/-- The places of the records are those from an offset on. -/
def Follow (key : PartitionKey) (first : Nat) (places : List (PartitionKey × Nat)) : Prop :=
  places = (List.range' first places.length).map (Prod.mk key)

theorem follow_mem {first : Nat} {places : List (PartitionKey × Nat)} (h : Follow key first places) {o : Nat} :
    (key, o) ∈ places ↔ first ≤ o ∧ o < first + places.length := by
  rw [Follow] at h
  constructor
  · intro hmem
    rw [h] at hmem
    obtain ⟨p, hp, hpo⟩ := List.mem_map.mp hmem
    obtain rfl : p = o := congrArg Prod.snd hpo
    exact List.mem_range'_1.mp hp
  · intro ho
    rw [h]
    exact List.mem_map_of_mem (List.mem_range'_1.mpr ho)

theorem follow_append {first : Nat} {places : List (PartitionKey × Nat)} (h : Follow key first places) :
    Follow key first (places ++ [(key, first + places.length)]) := by
  rw [Follow] at h ⊢
  rw [List.length_append, List.length_singleton, List.range'_concat, List.map_append, ← h, Nat.one_mul]
  rfl

theorem exists_rowsOf {S : Setting} {events : List ConsumedEvent}
    (h : ∀ e ∈ events, ∃ row, rowOf S e = .ok row) :
    ∃ rows, List.Forall₂ (fun e r => rowOf S e = .ok r) events rows := by
  induction events with
  | nil => exact ⟨[], .nil⟩
  | cons e events ih =>
      obtain ⟨row, hrow⟩ := h e List.mem_cons_self
      obtain ⟨rows, hrows⟩ := ih fun q hq => h q (List.mem_cons_of_mem _ hq)
      exact ⟨row :: rows, .cons hrow hrows⟩

theorem Setting.TakesAll.not_refused {S : Setting} (h : S.TakesAll) {epoch : Nat} {t : Tables}
    {rows : List RawInsertRow} {metricRows : List MetricInsertRow} :
    refused S epoch t rows metricRows = false := by
  rw [refused, Bool.or_eq_false_iff, List.any_eq_false, List.any_eq_false]
  constructor
  · intro r _
    rw [h.1]
    exact Bool.false_ne_true
  · intro m _
    rw [h.2]
    exact Bool.false_ne_true

/-- A batch that follows the checkpoint goes through, and the checkpoint with it. -/
theorem persist_follow {S : Setting} (hopen : S.TakesAll) {epoch : Nat} {events : List CollectedEvent}
    {t : Tables} (hfollow : Follow key (t.checkpoint epoch key) (events.map CollectedEvent.place))
    (hrows : ∀ e ∈ events, ∃ row, rowOf S e.toConsumedEvent = .ok row) :
    ∃ t' result, persistBatch S epoch (events.map (·.toConsumedEvent)) t = .ok (t', result) ∧
      t'.checkpoint epoch key = t.checkpoint epoch key + events.length := by
  obtain ⟨rows, hall⟩ : ∃ rows, List.Forall₂ (fun e r => rowOf S e = .ok r)
      ((events.map (·.toConsumedEvent)).insertionSort ConsumedEvent.le) rows := by
    refine exists_rowsOf ?_
    intro e he
    obtain ⟨q, hq, rfl⟩ := List.mem_map.mp ((List.mem_insertionSort _).mp he)
    exact hrows q hq
  have hbatch := @persistBatch_of_ok S epoch t _ _ _ (prepare_eq_ok.mpr ⟨hall, rfl⟩)
  rw [hopen.not_refused, if_neg Bool.false_ne_true] at hbatch
  obtain ⟨t', result, hp, hpersisted⟩ := hbatch
  refine ⟨t', result, hp, ?_⟩
  have hmem : ∀ o, (key, o) ∈ events.map CollectedEvent.place ↔
      t.checkpoint epoch key ≤ o ∧ o < t.checkpoint epoch key + events.length := by
    intro o
    rw [follow_mem hfollow, List.length_map]
  apply le_antisymm
  · by_contra hlt
    obtain ⟨-, -, -, -, -, -, -, -, e, he, -, hplace⟩ :=
      passed_by_batch hp (Nat.le_add_right _ events.length) (not_le.mp hlt)
    have hin := List.mem_map_of_mem (f := CollectedEvent.place) he
    rw [hplace, hmem] at hin
    omega
  · by_contra hlt
    rw [not_le, hpersisted.checkpoint key] at hlt
    have hle : t.checkpoint epoch key ≤
        computeNextOffset (t.checkpoint epoch key) (handledOffsets (t.checkpoint epoch) rows key) :=
      le_computeNextOffset _ _
    refine absurd ((lt_computeNextOffset_iff hle).mpr ?_) (Nat.lt_irrefl _)
    intro p hp hpo
    obtain ⟨e, he, hplace⟩ := List.mem_map.mp ((hmem p).mpr ⟨hp, by omega⟩)
    obtain ⟨r, hr, hrow⟩ := exists_row_of_mem hall
      ((List.mem_insertionSort _).mpr (List.mem_map_of_mem he))
    obtain ⟨hkey, hoffset, -⟩ := rowOf_spec hrow
    rw [CollectedEvent.place, Prod.mk.injEq, ← hkey, ← hoffset] at hplace
    obtain ⟨hkey', rfl⟩ := hplace
    refine List.mem_map.mpr ⟨r, List.mem_filter.mpr ⟨hr, decide_eq_true ⟨hkey', ?_⟩⟩, rfl⟩
    rw [isHandled, hkey']
    exact decide_eq_true hp

/-- Nothing is in flight, and what is collected follows the checkpoint up to `next`. -/
structure Steady (E : Env) (key : PartitionKey) (w : World) (next : Nat) : Prop where
  idle : w.mapper.batchInFlight = false
  follow : Follow key (w.checkpoint E key) (w.mapper.collector.events.map CollectedEvent.place)
  next : w.checkpoint E key + w.mapper.collector.events.length = next
  rows : ∀ e ∈ w.mapper.collector.events, ∃ row, rowOf E.setting e.toConsumedEvent = .ok row
  started : w.mapper.collector.events ≠ [] → ∃ since, w.mapper.collector.startedAt = some since
  bytes : w.mapper.collector.events = [] → w.mapper.collector.byteTotal = 0

theorem Steady.of_empty {next : Nat} (hidle : w.mapper.batchInFlight = false)
    (hempty : w.mapper.collector.events = []) (hbytes : w.mapper.collector.byteTotal = 0)
    (hnext : w.checkpoint E key = next) : Steady E key w next := by
  refine ⟨hidle, ?_, ?_, ?_, ?_, fun _ => hbytes⟩
  · rw [hempty]
    rfl
  · rw [hempty]
    exact hnext
  · rw [hempty]
    exact fun _ he => nomatch he
  · exact fun hne => absurd hempty hne

/-- The world once a batch was taken out of the collector. -/
def World.flying (w : World) : World :=
  { w with mapper := { w.mapper with collector := .empty, batchInFlight := true } }

/-- A batch is persisted and committed, and its task goes on. -/
theorem drive_flush (hopen : E.setting.TakesAll) {next : Nat} (h : Steady E key w next) :
    ∃ v, Steady E key v next ∧ v.mapper.collector = .empty ∧ ∀ n clocks resume,
      drive E clocks (n + 3) (w.flying, some (.persisting w.mapper.collector.events resume)) =
        drive E clocks n (v.withMapper (v.mapper.resume E (clocks n) resume)) := by
  obtain ⟨t, result, hp, hcheck⟩ := persist_follow hopen h.follow h.rows
  refine ⟨({ (w.flying.record t (w.mapper.collector.events.map CollectedEvent.place)) with
    mapper := { w.mapper with collector := .empty, batchInFlight := false }
    committed := fun k => ((w.mapper.recordSqlSuccess result).get? k).or (w.committed k) } : World).resumeOwned,
    .of_empty rfl rfl rfl ?_, rfl, ?_⟩
  · exact hcheck.trans h.next
  · intro n clocks resume
    have hpersisted : w.flying.advance E (clocks (n + 2)) (.persisting w.mapper.collector.events resume) =
        (w.flying.record t (w.mapper.collector.events.map CollectedEvent.place),
          some (.persisted w.mapper.collector.events (.ok result) resume)) := by
      simp only [World.advance, World.runTransaction]
      have hp' : persistBatch E.setting E.epoch (w.mapper.collector.events.map (·.toConsumedEvent))
          w.flying.tables = .ok (t, result) := hp
      rw [hp']
    rw [drive, hpersisted]
    rfl

/-- An ignored record at the checkpoint moves it by one. -/
theorem checkpoint_ignored_next {epoch next : Nat} {record : IgnoredConsumedRecord} {t : Tables}
    (hplace : record.place = (key, next)) (hnext : t.checkpoint epoch key = next) :
    (checkpointIgnoredRecords epoch [record] t).1.checkpoint epoch key = next + 1 := by
  obtain ⟨-, hcheck, -, -⟩ := @checkpointIgnored_spec epoch t [record]
  obtain ⟨offsets, hoffsets, heq⟩ := hcheck key
  rw [IgnoredConsumedRecord.place, Prod.mk.injEq] at hplace
  have hmem : next ∈ offsets :=
    (hoffsets next).mpr ⟨record, List.mem_cons_self, hplace.1, hplace.2, hnext.le⟩
  rw [heq, hnext]
  apply le_antisymm
  · by_contra hlt
    have hin := (lt_computeNextOffset_iff (Nat.le_succ next)).mp (not_le.mp hlt) (next + 1)
      (Nat.le_succ next) le_rfl
    obtain ⟨r, hr, -, hoffset, -⟩ := (hoffsets _).mp hin
    obtain rfl := List.mem_singleton.mp hr
    omega
  · refine (lt_computeNextOffset_iff le_rfl).mpr ?_
    intro p hp hpo
    rw [le_antisymm hpo hp]
    exact hmem

theorem drive_ignored {next : Nat} (h : Steady E key w next) (hempty : w.mapper.collector.events = [])
    {record : IgnoredConsumedRecord} (hplace : record.place = (key, next)) :
    ∃ v, Steady E key v (next + 1) ∧ ∀ n clocks,
      drive E clocks (n + 2) (w, some (.checkpointing record)) = (v, none) := by
  have hnext : w.tables.checkpoint E.epoch key = next := by
    have hlength := h.next
    rw [hempty] at hlength
    exact hlength
  refine ⟨((w.record (checkpointIgnoredRecords E.epoch [record] w.tables).1 [record.place]).commitKafka
    (w.mapper.recordSqlSuccess (checkpointIgnoredRecords E.epoch [record] w.tables).2) .done).1,
    .of_empty h.idle hempty (h.bytes hempty) (checkpoint_ignored_next hplace hnext), ?_⟩
  intro n clocks
  cases n <;> rfl

/-! ## A message in a steady state -/

/-- An event that fits is added to an empty batch. -/
theorem tryAdd_of_fits {L : BatchLimits} {c : BatchCollector} {e : CollectedEvent} (h : e.Fits L)
    (hempty : c.events = []) (hbytes : c.byteTotal = 0) (now : ℤ) : (c.tryAdd L e now).2 = true := by
  have hroom : ¬ (L.maxEvents < 1 ∨ L.maxBytes < e.envelopeBytes.length) := by
    rw [not_or, not_lt, not_lt]
    exact h
  simp [BatchCollector.tryAdd, hempty, hbytes, not_or.mp hroom]

theorem tryAdd_byteTotal {L : BatchLimits} {c : BatchCollector} {e : CollectedEvent} {now : ℤ}
    (h : (c.tryAdd L e now).2 = false) : (c.tryAdd L e now).1.byteTotal = c.byteTotal := by
  rw [BatchCollector.tryAdd] at h ⊢
  dsimp only at h ⊢
  split at h
  · rename_i hfull
    rw [if_pos hfull]
  · rename_i hfull
    rw [if_neg hfull]
    split at h
    · rename_i hroom
      rw [if_pos hroom]
    · cases h

theorem tryAdd_started {L : BatchLimits} {c : BatchCollector} {e : CollectedEvent} {now : ℤ} :
    ∃ since, (c.tryAdd L e now).1.startedAt = some since := by
  rw [BatchCollector.tryAdd]
  dsimp only
  split
  · exact ⟨_, rfl⟩
  · split <;> exact ⟨_, rfl⟩

/-- An added event follows the others. -/
theorem Steady.added {next : Nat} (h : Steady E key w next) {e : CollectedEvent} {now : ℤ}
    (hadd : (w.mapper.collector.tryAdd E.limits e now).2 = true) (hplace : e.place = (key, next))
    (hrow : ∃ row, rowOf E.setting e.toConsumedEvent = .ok row) :
    Steady E key
      { w with mapper := { w.mapper with collector := (w.mapper.collector.tryAdd E.limits e now).1 } }
      (next + 1) := by
  have hevents := tryAdd_events E.limits w.mapper.collector e now
  rw [if_pos hadd] at hevents
  refine ⟨h.idle, ?_, ?_, ?_, fun _ => tryAdd_started, ?_⟩
  · show Follow key (w.checkpoint E key) ((w.mapper.collector.tryAdd E.limits e now).1.events.map _)
    have happend := follow_append h.follow
    rw [List.length_map, h.next, ← hplace] at happend
    rw [hevents, List.map_append]
    exact happend
  · show w.checkpoint E key + (w.mapper.collector.tryAdd E.limits e now).1.events.length = next + 1
    rw [hevents, List.length_append, List.length_singleton, ← Nat.add_assoc, h.next]
  · show ∀ q ∈ (w.mapper.collector.tryAdd E.limits e now).1.events, _
    rw [hevents]
    intro q hq
    rcases mem_append_one hq with hq | rfl
    · exact h.rows q hq
    · exact hrow
  · show (w.mapper.collector.tryAdd E.limits e now).1.events = [] → _
    rw [hevents]
    exact fun hnil => absurd hnil (List.append_ne_nil_of_right_ne_nil _ (List.cons_ne_nil _ _))

/-- A refused event changes nothing that counts. -/
theorem Steady.refused {next : Nat} (h : Steady E key w next) {e : CollectedEvent} {now : ℤ}
    (hadd : (w.mapper.collector.tryAdd E.limits e now).2 = false) :
    Steady E key
      { w with mapper := { w.mapper with collector := (w.mapper.collector.tryAdd E.limits e now).1 } }
      next := by
  have hevents : (w.mapper.collector.tryAdd E.limits e now).1.events = w.mapper.collector.events := by
    rw [tryAdd_events, hadd]
    rfl
  refine ⟨h.idle, ?_, ?_, ?_, fun _ => tryAdd_started, ?_⟩
  · show Follow key (w.checkpoint E key) ((w.mapper.collector.tryAdd E.limits e now).1.events.map _)
    rw [hevents]
    exact h.follow
  · show w.checkpoint E key + (w.mapper.collector.tryAdd E.limits e now).1.events.length = next
    rw [hevents]
    exact h.next
  · show ∀ q ∈ (w.mapper.collector.tryAdd E.limits e now).1.events, _
    rw [hevents]
    exact h.rows
  · show (w.mapper.collector.tryAdd E.limits e now).1.events = [] →
      (w.mapper.collector.tryAdd E.limits e now).1.byteTotal = 0
    rw [hevents, tryAdd_byteTotal hadd]
    exact h.bytes

theorem drive_none (clocks : Nat → Clock) (n : Nat) (v : World) :
    drive E clocks n (v, none) = (v, none) := by
  cases n <;> rfl

/-- A flush that ends a task, or no flush. -/
theorem drive_maybeFlush (hopen : E.setting.TakesAll) {next : Nat} (h : Steady E key w next) (now : ℤ)
    (clocks : Nat → Clock) (n : Nat) :
    ∃ v, Steady E key v next ∧
      drive E clocks (n + 3) (w.withMapper (w.mapper.maybeFlush E false now .finished fun m => (m, none))) =
        (v, none) := by
  rcases @maybeFlush_cases E w.mapper false now .finished fun m => (m, none) with ⟨-, hf⟩ | ⟨-, -, hf⟩
  · rw [hf]
    exact ⟨w, h, drive_none _ _ _⟩
  · obtain ⟨v, hv, -, hflush⟩ := drive_flush hopen h
    rw [hf]
    exact ⟨v, hv, (hflush n clocks .finished).trans (drive_none _ _ _)⟩

/-- After the flush the event is added. -/
theorem again_event {next : Nat} (h : Steady E key w next) (hempty : w.mapper.collector = .empty)
    {msg : Message} {e : CollectedEvent} (he : msg.IsEvent E e) (hplace : e.place = (key, next))
    (hfits : e.Fits E.limits) (hrow : ∃ row, rowOf E.setting e.toConsumedEvent = .ok row) (clock : Clock) :
    ∃ v, Steady E key v (next + 1) ∧ w.withMapper (w.mapper.bufferAgain E clock msg) = (v, none) := by
  have hadd : (w.mapper.collector.tryAdd E.limits e (clock 4)).2 = true := by
    refine tryAdd_of_fits hfits ?_ ?_ _ <;> rw [hempty] <;> rfl
  refine ⟨_, h.added hadd hplace hrow, ?_⟩
  rw [Mapper.bufferAgain]
  rcases @tryBufferMessage_cases E w.mapper msg (clock 4) with ⟨hun, -⟩ | ⟨r, hr, -⟩ | ⟨e', he', hbuffer⟩
  · exact absurd (.inl ⟨e, he⟩) hun
  · obtain ⟨legacy, hread, -⟩ := he
    rw [hr.1] at hread
    cases hread
  · obtain rfl := IsEvent.unique he he'
    rw [hbuffer]
    rfl

/-- `_handle_message` from `try_buffer_message` on handles the next message. -/
theorem drive_bufferMessage (hopen : E.setting.TakesAll) {next : Nat} (h : Steady E key w next) {msg : Message}
    (hplace : msg.place = (key, next)) (hok : msg.Accepted E) (clock : Clock) (clocks : Nat → Clock) (n : Nat) :
    ∃ v, Steady E key v (next + 1) ∧
      drive E clocks (n + 5) (w.withMapper (w.mapper.bufferMessage E clock msg)) = (v, none) := by
  have hreadable : msg.Readable E := by
    rcases hok with hignored | ⟨e, he, -⟩
    · exact .inr hignored
    · exact .inl ⟨e, he⟩
  rw [Mapper.bufferMessage]
  rcases @tryBufferMessage_cases E w.mapper msg (clock 2) with ⟨hun, -⟩ | ⟨r, hr, hbuffer⟩ | ⟨e, he, hbuffer⟩
  · exact absurd hreadable hun
  · simp only [hbuffer]
    have hrplace : r.place = (key, next) := hr.place.trans hplace
    rcases @maybeFlush_cases E w.mapper true (clock 3) (.ignoring r) fun m => (m, some (.checkpointing r)) with
      ⟨hwhy, hf⟩ | ⟨-, -, hf⟩
    · have hempty := (hwhy rfl).resolve_left (by rw [h.idle]; exact Bool.false_ne_true)
      obtain ⟨v, hv, hdrive⟩ := drive_ignored h hempty hrplace
      rw [hf]
      exact ⟨v, hv, hdrive (n + 3) clocks⟩
    · obtain ⟨u, hu, hempty, hflush⟩ := drive_flush hopen h
      obtain ⟨v, hv, hdrive⟩ := drive_ignored hu (by rw [hempty]; rfl) hrplace
      rw [hf]
      exact ⟨v, hv, (hflush (n + 2) clocks (.ignoring r)).trans (hdrive n clocks)⟩
  · simp only [hbuffer]
    have heplace : e.place = (key, next) := he.place.trans hplace
    obtain ⟨hfits, hrow⟩ : e.Fits E.limits ∧ ∃ row, rowOf E.setting e.toConsumedEvent = .ok row := by
      rcases hok with ⟨r, hr⟩ | ⟨e', he', hfits, hrow⟩
      · obtain ⟨legacy, hread, -⟩ := he
        rw [hr.1] at hread
        cases hread
      · obtain rfl := IsEvent.unique he he'
        exact ⟨hfits, hrow⟩
    cases hadd : (w.mapper.collector.tryAdd E.limits e (clock 2)).2 with
    | true =>
        simp only [Bool.not_true, Bool.false_eq_true, if_false]
        have hadded := h.added hadd heplace hrow
        exact drive_maybeFlush hopen hadded (clock 3) clocks (n + 2)
    | false =>
        simp only [Bool.not_false, if_true]
        have hrefused := h.refused hadd
        generalize hu : ({ w with mapper :=
          { w.mapper with collector := (w.mapper.collector.tryAdd E.limits e (clock 2)).1 } } : World) = u at hrefused
        have hmapper : { w.mapper with collector := (w.mapper.collector.tryAdd E.limits e (clock 2)).1 } =
            u.mapper := congrArg World.mapper hu
        have hworld : ∀ out, w.withMapper out = u.withMapper out := by
          intro out
          rw [← hu]
          rfl
        rw [hmapper, hworld]
        rcases @maybeFlush_cases E u.mapper true (clock 3) (.retrying msg) fun m => m.bufferAgain E clock msg with
          ⟨hwhy, -⟩ | ⟨-, -, hf⟩
        · -- an empty batch takes an event that fits
          have hempty := (hwhy rfl).resolve_left (by rw [hrefused.idle]; exact Bool.false_ne_true)
          have hsame : u.mapper.collector.events = w.mapper.collector.events := by
            rw [← hmapper]
            show (w.mapper.collector.tryAdd E.limits e (clock 2)).1.events = _
            rw [tryAdd_events, hadd]
            rfl
          rw [hsame] at hempty
          have htakes := tryAdd_of_fits hfits hempty (h.bytes hempty) (clock 2)
          rw [hadd] at htakes
          cases htakes
        · obtain ⟨v, hv, hempty, hflush⟩ := drive_flush hopen hrefused
          obtain ⟨v', hv', hagain⟩ := again_event hv hempty he heplace hfits hrow (clocks (n + 2))
          refine ⟨v', hv', ?_⟩
          rw [hf]
          refine (hflush (n + 2) clocks (.retrying msg)).trans ?_
          rw [Mapper.resume, hagain]
          exact drive_none _ _ _

theorem notPaused_of_empty {L : BatchLimits} {m : Mapper} (hidle : m.batchInFlight = false)
    (hempty : m.collector.events = []) (now : ℤ) : m.shouldPauseForBackpressure L now = false := by
  rw [Mapper.shouldPauseForBackpressure, hidle, Bool.false_or, BatchCollector.isFull, hempty]
  rfl

/-- `_handle_message` handles the next message. -/
theorem drive_handle (hopen : E.setting.TakesAll) {next : Nat} (h : Steady E key w next) {msg : Message}
    (hplace : msg.place = (key, next)) (hok : msg.Accepted E) (clocks : Nat → Clock) (n : Nat) :
    ∃ v, Steady E key v (next + 1) ∧ drive E clocks (n + 9) (w, some (.handle msg)) = (v, none) := by
  have hstep : drive E clocks (n + 9) (w, some (.handle msg)) =
      drive E clocks (n + 8) (w.withMapper (w.mapper.handleMessage E (clocks (n + 8)) msg)) := rfl
  rw [hstep, Mapper.handleMessage]
  cases hpause : w.mapper.shouldPauseForBackpressure E.limits (clocks (n + 8) 0) with
  | false => exact drive_bufferMessage hopen h hplace hok (clocks (n + 8)) clocks (n + 3)
  | true =>
      rw [if_pos rfl]
      rcases @maybeFlush_cases E w.mapper true (clocks (n + 8) 3) (.handling msg)
          fun m => m.resume E (clocks (n + 8)) (.handling msg) with ⟨hwhy, -⟩ | ⟨-, -, hf⟩
      · have hempty := (hwhy rfl).resolve_left (by rw [h.idle]; exact Bool.false_ne_true)
        rw [notPaused_of_empty h.idle hempty] at hpause
        cases hpause
      · obtain ⟨u, hu, hempty, hflush⟩ := drive_flush hopen h
        obtain ⟨v, hv, hdrive⟩ := drive_bufferMessage hopen hu hplace hok (clocks (n + 5)) clocks n
        have hopened := notPaused_of_empty (L := E.limits) hu.idle
          (by rw [hempty]; rfl) (clocks (n + 5) 1)
        refine ⟨v, hv, ?_⟩
        rw [hf]
        refine (hflush (n + 5) clocks (.handling msg)).trans ?_
        rw [Mapper.resume, hopened, if_neg Bool.false_ne_true]
        exact hdrive

theorem Steady.handled (hopen : E.setting.TakesAll) {next : Nat} (h : Steady E key w next) {msg : Message}
    (hplace : msg.place = (key, next)) (hok : msg.Accepted E) (clocks : Nat → Clock) :
    Steady E key (w.handled E clocks msg) (next + 1) := by
  obtain ⟨v, hv, hdrive⟩ := drive_handle hopen h hplace hok clocks 0
  rw [World.handled, hdrive]
  exact hv

/-- All of them are handled when all of them are accepted. -/
theorem Steady.handledAll (hopen : E.setting.TakesAll) {next : Nat} (h : Steady E key w next)
    {more : List ((Nat → Clock) × Message)} (hplaces : Follow key next (more.map (·.2.place)))
    (hok : ∀ msg ∈ more, msg.2.Accepted E) : Steady E key (w.handledAll E more) (next + more.length) := by
  induction more generalizing w next with
  | nil => exact h
  | cons msg more ih =>
      rw [Follow, List.map_cons, List.length_cons, List.range'_succ, List.map_cons] at hplaces
      obtain ⟨hplace, hrest⟩ := List.cons.inj hplaces
      have hone := h.handled hopen hplace (hok msg List.mem_cons_self) msg.1
      have hmore := ih hone hrest fun other hother => hok other (List.mem_cons_of_mem _ hother)
      rw [List.length_cons, Nat.add_comm more.length, ← Nat.add_assoc]
      exact hmore

/-- The batch that is left is flushed when it is old enough. -/
theorem Steady.flushedDue (hopen : E.setting.TakesAll) {next : Nat} (h : Steady E key w next) :
    (w.flushedDue E).checkpoint E key = next := by
  have hlength : ∀ {v : World}, Steady E key v next → v.mapper.collector.events = [] →
      v.checkpoint E key = next := by
    intro v hv hempty
    have hnext := hv.next
    rw [hempty] at hnext
    exact hnext
  generalize hdue : w.mapper.collector.startedAt.getD 0 + E.limits.maxAge = due
  have hstep : w.flushedDue E = (drive E (fun _ _ => due) 3
      (w.withMapper (w.mapper.maybeFlush E false due .finished fun m => (m, none)))).1 := by
    rw [World.flushedDue, hdue]
    rfl
  rw [hstep]
  by_cases hempty : w.mapper.collector.events = []
  · have hf : w.mapper.maybeFlush E false due .finished (fun m => (m, none)) = (w.mapper, none) := by
      simp [Mapper.maybeFlush, hempty]
    rw [hf]
    exact hlength h hempty
  · obtain ⟨v, hv, hvempty, hflush⟩ := drive_flush hopen h
    have hfull : w.mapper.collector.isFull E.limits due = true := by
      obtain ⟨since, hsince⟩ := h.started hempty
      rw [hsince] at hdue
      simp [BatchCollector.isFull, hempty, hsince, ← hdue]
    have hf : w.mapper.maybeFlush E false due .finished (fun m => (m, none)) =
        ({ w.mapper with collector := .empty, batchInFlight := true },
          some (.persisting w.mapper.collector.events .finished)) := by
      simp [Mapper.maybeFlush, h.idle, hfull, hempty]
    rw [hf]
    have hend := (hflush 0 (fun _ _ => due) .finished).trans (drive_none _ _ _)
    exact (congrArg (fun out => out.1.checkpoint E key) hend).trans (hlength hv (by rw [hvempty]; rfl))

/-! ## The checkpoint and the sequence -/

end Progress

end Uns.Historian
