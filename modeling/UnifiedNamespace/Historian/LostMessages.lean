/-
# `Historian.LostMessages` — what became of the messages that were polled

A polled message is in memory (with its task, in the collector or in a batch in
flight), or a transaction that went through has recorded it, or its partition will
read it again.  A task lets go of a message when it comes back to a mapper that is
still full, when the record cannot be read or does not fit, and when an exception ends
it; unless the message is read again it is then lost (`Loses`).  Without such a step
every message is accounted for (`messages_accounted`).
-/
import UnifiedNamespace.Historian.Positions

namespace Uns.Historian

open Py Lib

section Messages

variable {E : Env} {w : World}

/-- The task is about the message, or has its event in a batch. -/
def Task.Carries (E : Env) (t : Task) (msg : Message) : Prop :=
  t.pending.message = some msg ∨ (∃ r, t.pending.record = some r ∧ msg.IsIgnored E r) ∨
    ∃ e ∈ t.events, msg.IsEvent E e

def InMemory (E : Env) (w : World) (msg : Message) : Prop :=
  (∃ e ∈ w.mapper.collector.events, msg.IsEvent E e) ∨ ∃ t ∈ w.tasks, t.Carries E msg

/-- A committed transaction has recorded it, now or before the process started. -/
def Recorded (E : Env) (w : World) (msg : Message) : Prop :=
  msg.place ∈ w.recorded ∨ msg.offset < w.checkpoint E msg.partitionKey

/-- Its partition is not read from behind it. -/
def WillBePolled (w : World) (msg : Message) : Prop :=
  ∀ p, w.position msg.partitionKey = some p → p ≤ msg.offset

def Accounted (E : Env) (w : World) (msg : Message) : Prop :=
  InMemory E w msg ∨ Recorded E w msg ∨ WillBePolled w msg

/-- A stretch of a task that lets go of a message: it discards it, or an exception ends it. -/
def World.LetsGo (E : Env) (clock : Clock) (reply : CommitReply) (w : World) : Task → Message → Prop
  | .handle msg, lost => lost = msg ∧ w.mapper.HandleDiscards E clock msg
  | .observing next, lost => next.message = some lost ∧ w.mapper.Discards E clock next
  | .persisted events (.error raised) next, lost => (Task.persisted events (.error raised) next).Carries E lost
  | .persisted _ (.ok result) next, lost =>
      reply = .raised ∧ (w.mapper.recordSqlSuccess result).entries ≠ [] ∧
        (Task.observing next).Carries E lost
  | .checkpointed record none, lost => lost.IsIgnored E record
  | _, _ => False

/-- A step that lets go of a message that is neither recorded nor read again. -/
def Loses (E : Env) (w : World) : Input → Prop
  | .run i clock reply =>
      ∃ task lost, w.tasks[i]? = some task ∧ w.LetsGo E clock reply task lost ∧
        ¬ Recorded E w lost ∧ ¬ WillBePolled w lost
  | _ => False

/-- The records of the transaction that a task has awaited. -/
def Task.reported : Task → List (PartitionKey × Nat)
  | .persisted events _ _ => events.map CollectedEvent.place
  | .checkpointed record _ => [record.place]
  | _ => []

/-- What is kept from step to step. -/
structure MessagesKept (E : Env) (w : World) : Prop where
  polled : ∀ msg, .polled msg ∈ w.history → msg.FromLog E ∧ Accounted E w msg
  reported : ∀ t ∈ w.tasks, ∀ result, t.result = some result → ∀ place ∈ t.reported, place ∈ w.recorded

/-! ## A stretch -/

/-- What survives a stretch is in the collector or with the task. -/
theorem Survives.carried {msg : Message} {out : Mapper × Option Task} (h : Survives E msg out) :
    (∃ e ∈ out.1.collector.events, msg.IsEvent E e) ∨ ∃ t, out.2 = some t ∧ t.Carries E msg := by
  rcases h with ⟨e, he, hevent⟩ | ⟨t, ht, hpending⟩
  · rw [heldEvents] at he
    rcases List.mem_append.mp he with he | he
    · exact .inl ⟨e, he, hevent⟩
    · cases ht : out.2 with
      | none =>
          rw [ht] at he
          cases he
      | some t =>
          rw [ht] at he
          exact .inr ⟨t, rfl, .inr (.inr ⟨e, he, hevent⟩)⟩
  · refine .inr ⟨t, ht, ?_⟩
    rcases hpending with hmessage | hrecord
    · exact .inl hmessage
    · exact .inr (.inl hrecord)

theorem Recorded.of_event {msg : Message} {e : CollectedEvent} (h : msg.IsEvent E e)
    (he : e.place ∈ w.recorded) : Recorded E w msg := by
  rw [h.place] at he
  exact .inl he

theorem Recorded.of_ignored {msg : Message} {r : IgnoredConsumedRecord} (h : msg.IsIgnored E r)
    (hr : r.place ∈ w.recorded) : Recorded E w msg := by
  rw [h.place] at hr
  exact .inl hr

/-- A commit that does not raise lets its task go on. -/
theorem commitKafka_returns {v : World} {commits : Dict PartitionKey Nat} {reply : CommitReply}
    (h : ¬ (reply = .raised ∧ commits.entries ≠ [])) : (v.commitKafka commits reply).2 = true := by
  cases reply with
  | done => rfl
  | raised =>
      have hempty : commits.entries = [] := by
        by_contra hne
        exact h ⟨rfl, hne⟩
      rw [World.commitKafka, hempty]
      rfl

/-- A stretch keeps a message, or has recorded it already, or lets go of it. -/
theorem carried_runTask (h : MessagesKept E w) {task : Task} (htask : task ∈ w.tasks) (clock : Clock)
    (reply : CommitReply) {msg : Message} (hcarries : task.Carries E msg) :
    (∃ e ∈ (w.runTask E clock reply task).1.mapper.collector.events, msg.IsEvent E e) ∨
      (∃ t, (w.runTask E clock reply task).2 = some t ∧ t.Carries E msg) ∨ Recorded E w msg ∨
      w.LetsGo E clock reply task msg := by
  cases task with
  | flush =>
      rcases hcarries with hmessage | ⟨r, hrecord, -⟩ | ⟨e, he, -⟩
      · cases hmessage
      · cases hrecord
      · cases he
  | handle handled =>
      rcases hcarries with hmessage | ⟨r, hrecord, -⟩ | ⟨e, he, -⟩
      · cases hmessage
        by_cases hdiscards : w.mapper.HandleDiscards E clock msg
        · exact .inr (.inr (.inr ⟨rfl, hdiscards⟩))
        · exact (stretch_handle.2 hdiscards).carried.imp_right .inl
      · cases hrecord
      · cases he
  | persisting events next => exact .inr (.inl ⟨_, rfl, hcarries⟩)
  | persisted events outcome next =>
      cases outcome with
      | error raised => exact .inr (.inr (.inr hcarries))
      | ok result =>
          by_cases hraised : reply = .raised ∧ (w.mapper.recordSqlSuccess result).entries ≠ []
          · rcases hcarries with hmessage | hrecord | ⟨e, he, hevent⟩
            · exact .inr (.inr (.inr ⟨hraised.1, hraised.2, .inl hmessage⟩))
            · exact .inr (.inr (.inr ⟨hraised.1, hraised.2, .inr (.inl hrecord)⟩))
            · exact .inr (.inr (.inl (.of_event hevent (h.reported _ htask _ rfl _ (List.mem_map_of_mem he)))))
          · have hgoes : (w.runTask E clock reply (.persisted events (.ok result) next)).2 =
                some (.observing next) := if_pos (commitKafka_returns hraised)
            rcases hcarries with hmessage | hrecord | ⟨e, he, hevent⟩
            · exact .inr (.inl ⟨_, hgoes, .inl hmessage⟩)
            · exact .inr (.inl ⟨_, hgoes, .inr (.inl hrecord)⟩)
            · exact .inr (.inr (.inl (.of_event hevent (h.reported _ htask _ rfl _ (List.mem_map_of_mem he)))))
  | observing next =>
      rcases hcarries with hmessage | ⟨r, hrecord, hignored⟩ | ⟨e, he, -⟩
      · by_cases hdiscards : w.mapper.Discards E clock next
        · exact .inr (.inr (.inr ⟨hmessage, hdiscards⟩))
        · exact ((stretch_resume next).2 msg hmessage hdiscards).carried.imp_right .inl
      · cases next with
        | ignoring record =>
            cases hrecord
            exact .inr (.inl ⟨_, rfl, .inr (.inl ⟨r, rfl, hignored⟩)⟩)
        | _ => cases hrecord
      · cases he
  | checkpointing record => exact .inr (.inl ⟨_, rfl, hcarries⟩)
  | checkpointed record outcome =>
      rcases hcarries with hmessage | ⟨r, hrecord, hignored⟩ | ⟨e, he, -⟩
      · cases hmessage
      · cases hrecord
        cases outcome with
        | none => exact .inr (.inr (.inr hignored))
        | some result => exact .inr (.inr (.inl (.of_ignored hignored (h.reported _ htask _ rfl _ List.mem_cons_self))))
      · cases he

/-! ## Every step -/

theorem mem_settle_of_mem {i : Nat} {out : World × Option Task} {task t : Task}
    (htask : out.1.tasks[i]? = some task) (ht : t ∈ out.1.tasks) :
    t = task ∨ t ∈ (World.settle i out).tasks := by
  obtain ⟨j, hj⟩ := List.mem_iff_getElem?.mp ht
  by_cases hij : i = j
  · subst hij
    rw [htask] at hj
    exact .inl (Option.some.inj hj.symm)
  · refine .inr ?_
    rw [World.settle]
    split
    · refine List.mem_iff_getElem?.mpr ⟨j, ?_⟩
      show (out.1.tasks.set i _)[j]? = some t
      rw [List.getElem?_set_ne hij, hj]
    · exact List.mem_eraseIdx_iff_getElem?.mpr ⟨j, fun h => hij h.symm, hj⟩

theorem settled_mem {i : Nat} {out : World × Option Task} {t : Task}
    (hi : i < out.1.tasks.length) (ht : out.2 = some t) : t ∈ (World.settle i out).tasks := by
  rw [World.settle, ht]
  exact List.mem_set hi t

theorem recorded_transact {reply : DbReply} {task : Task} {place : PartitionKey × Nat}
    (h : place ∈ w.recorded) : place ∈ (w.runTransaction E reply task).1.recorded := by
  cases task with
  | persisting events next =>
      rw [World.runTransaction]
      split
      · exact h
      · cases reply with
        | rolledBack => exact h
        | _ => exact List.mem_append_right _ h
  | checkpointing record =>
      cases reply with
      | rolledBack => exact h
      | _ => exact List.mem_append_right _ h
  | _ => exact h

/-- What is recorded stays recorded. -/
theorem recorded_next {input : Input} {place : PartitionKey × Nat} (h : place ∈ w.recorded) :
    place ∈ (w.next E input).recorded := by
  obtain ⟨v, hv, hstepped⟩ := @stepped_next E w input
  rw [hv]
  cases hstepped with
  | quiet hquiet =>
      rw [hquiet.recorded]
      exact h
  | runs _ _ _ =>
      rw [settle_frame, runTask_frame]
      exact h
  | transacts _ _ =>
      rw [settle_frame]
      exact recorded_transact h
  | _ => exact h

theorem Recorded.next {msg : Message} (h : Recorded E w msg) (input : Input) :
    Recorded E (w.next E input) msg := by
  rcases h with h | h
  · exact .inl (recorded_next h)
  · exact .inr (lt_of_lt_of_le h (checkpoint_le_next input _))

/-- A record is polled in its turn: none that the log has is skipped. -/
theorem Polls.next_le {msg other : Message} {start : Nat} (h : Polls E w msg start)
    (hother : other.FromLog E) (hkey : other.partitionKey = msg.partitionKey) (hle : start ≤ other.offset)
    (hne : other ≠ msg) : msg.offset + 1 ≤ other.offset := by
  by_contra hlt
  rcases Nat.lt_or_ge other.offset msg.offset with hbefore | hge
  · have hnext := h.next
    rw [Env.isNext, Bool.and_eq_true] at hnext
    have hnone := List.all_eq_true.mp hnext.2 other.offset
      (List.mem_range'_1.mpr ⟨hle, by omega⟩)
    rw [← hkey, hother] at hnone
    cases hnone
  · have hoffset : other.offset = msg.offset := by omega
    have hlog := h.logged
    rw [← hkey, ← hoffset, hother] at hlog
    rw [Message.partitionKey, Message.partitionKey, Prod.mk.injEq] at hkey
    obtain ⟨topic, partition, offset, value⟩ := other
    obtain ⟨topic', partition', offset', value'⟩ := msg
    cases hlog
    obtain ⟨rfl, rfl⟩ := hkey
    cases hoffset
    exact hne rfl

/-- A message of a partition that is assigned at a checkpoint is recorded or will be polled. -/
theorem seek_accounted {msg : Message} {seeks : List (PartitionKey × Nat)}
    (h : ∀ p, lookup msg.partitionKey seeks = some p → p ≤ w.checkpoint E msg.partitionKey) :
    Accounted E (w.assigned seeks) msg := by
  by_cases hbelow : msg.offset < w.checkpoint E msg.partitionKey
  · exact .inr (.inl (.inr hbelow))
  · refine .inr (.inr ?_)
    intro p hp
    exact (h p hp).trans (not_lt.mp hbelow)

/-- A message that will be polled is polled, or still will be, or its partition is assigned at a
checkpoint behind it. -/
theorem WillBePolled.next (hplaced : Placed E w) {msg : Message} (hlog : msg.FromLog E)
    (h : WillBePolled w msg) (input : Input) : Accounted E (w.next E input) msg := by
  obtain ⟨v, hv, hstepped⟩ := @stepped_next E w input
  rw [hv]
  cases hstepped with
  | quiet hquiet =>
      refine .inr (.inr ?_)
      rw [WillBePolled, hquiet.position]
      exact h
  | @polls key offset polled start hpolls =>
      by_cases hsame : msg = polled
      · subst hsame
        exact .inl (.inr ⟨.handle msg, List.mem_append_right _ List.mem_cons_self, .inl rfl⟩)
      · refine .inr (.inr ?_)
        intro p hp
        change (if msg.partitionKey = polled.partitionKey then some (polled.offset + 1)
          else w.position msg.partitionKey) = some p at hp
        split at hp
        · rename_i hkey
          cases hp
          refine hpolls.next_le hlog hkey (h start ?_) hsame
          rw [hkey]
          exact hpolls.positioned
        · exact h p hp
  | revokes partitions =>
      refine .inr (.inr ?_)
      intro p hp
      change (if msg.partitionKey ∈ partitions then none else w.position msg.partitionKey) = some p at hp
      split at hp
      · cases hp
      · exact h p hp
  | assigns hpoller hseeks =>
      exact seek_accounted (fun p hp => hplaced.seek hpoller hseeks hp)
  | runs _ _ _ =>
      rw [settle_frame, runTask_frame]
      exact .inr (.inr h)
  | @transacts i task reply _ =>
      rw [settle_frame, (runTransaction_frame (E := E) (w := w) reply task).1]
      exact .inr (.inr h)
  | crashes => exact .inr (.inr fun _ hp => nomatch hp)
  | _ => exact .inr (.inr h)

/-- Events in the collector stay there or are taken out by the task. -/
theorem collector_runTask (clock : Clock) (reply : CommitReply) (task : Task) {e : CollectedEvent}
    (he : e ∈ w.mapper.collector.events) :
    e ∈ (w.runTask E clock reply task).1.mapper.collector.events ∨
      ∃ t, (w.runTask E clock reply task).2 = some t ∧ e ∈ t.events := by
  have hheld : ∀ out : Mapper × Option Task, e ∈ heldEvents out →
      e ∈ out.1.collector.events ∨ ∃ t, out.2 = some t ∧ e ∈ t.events := by
    rintro ⟨m, _ | t⟩ hmem
    · rw [heldEvents] at hmem
      exact .inl ((List.mem_append.mp hmem).resolve_right fun h => by cases h)
    · exact (List.mem_append.mp hmem).imp_right fun h => ⟨t, rfl, h⟩
  cases task with
  | flush => exact hheld _ ((stretch_flushTask _).kept e he)
  | handle msg => exact hheld _ (stretch_handle.1.kept e he)
  | observing next => exact hheld _ ((stretch_resume next).1.kept e he)
  | persisted events outcome next =>
      cases outcome with
      | error raised => exact .inl he
      | ok result =>
          rw [World.runTask]
          dsimp only
          rw [commitKafka_frame]
          exact .inl he
  | checkpointed record outcome =>
      cases outcome with
      | none => exact .inl he
      | some result =>
          rw [World.runTask]
          dsimp only
          rw [commitKafka_frame]
          exact .inl he
  | _ => exact .inl he

/-- A task whose transaction has ended goes on with the same records. -/
theorem carried_runTransaction (reply : DbReply) {task : Task} {msg : Message} (h : task.Carries E msg) :
    ∃ t, (w.runTransaction E reply task).2 = some t ∧ t.Carries E msg := by
  obtain ⟨t, ht⟩ : ∃ t, (w.runTransaction E reply task).2 = some t := by
    cases task with
    | persisting events next =>
        rw [World.runTransaction]
        split
        · exact ⟨_, rfl⟩
        · cases reply <;> exact ⟨_, rfl⟩
    | checkpointing record => cases reply <;> exact ⟨_, rfl⟩
    | _ => exact ⟨_, rfl⟩
  obtain ⟨hevents, hpending⟩ := (runTransaction_frame (E := E) (w := w) reply task).2 t ht
  refine ⟨t, ht, ?_⟩
  rw [Task.Carries, hevents, hpending]
  exact h

/-- A message in memory stays there, unless it is recorded or read again anyway. -/
theorem InMemory.next (hkept : MessagesKept E w) {msg : Message} (h : InMemory E w msg) {input : Input}
    (hok : ¬ Loses E w input) (hrecorded : ¬ Recorded E w msg) (hwill : ¬ WillBePolled w msg) :
    Accounted E (w.next E input) msg := by
  obtain ⟨v, hv, hstepped⟩ := @stepped_next E w input
  rw [hv]
  cases hstepped with
  | quiet hquiet =>
      refine .inl ?_
      rw [InMemory, hquiet.mapper, hquiet.tasks]
      exact h
  | flushes =>
      refine .inl (h.imp_right ?_)
      rintro ⟨t, ht, hcarries⟩
      exact ⟨t, List.mem_append_left _ ht, hcarries⟩
  | polls _ =>
      refine .inl (h.imp_right ?_)
      rintro ⟨t, ht, hcarries⟩
      exact ⟨t, List.mem_append_left _ ht, hcarries⟩
  | revokes partitions => exact .inl h
  | assigns _ _ => exact .inl h
  | @runs i task clock reply htask =>
      have htasks : (w.runTask E clock reply task).1.tasks = w.tasks := by rw [runTask_frame]
      have hi : i < (w.runTask E clock reply task).1.tasks.length := by
        rw [htasks]
        exact (List.getElem?_eq_some_iff.mp htask).1
      have hcollected : ∀ e ∈ (w.runTask E clock reply task).1.mapper.collector.events, msg.IsEvent E e →
          Accounted E (World.settle i (w.runTask E clock reply task)) msg := by
        intro e he hevent
        refine .inl (.inl ⟨e, ?_, hevent⟩)
        rw [settle_frame]
        exact he
      rcases h with ⟨e, he, hevent⟩ | ⟨t, ht, hcarries⟩
      · rcases collector_runTask clock reply task he with he | ⟨t, ht, he⟩
        · exact hcollected e he hevent
        · exact .inl (.inr ⟨t, settled_mem hi ht, .inr (.inr ⟨e, he, hevent⟩)⟩)
      · rw [← htasks] at htask ht
        rcases mem_settle_of_mem htask ht with rfl | ht
        · rw [htasks] at htask
          rcases carried_runTask hkept (List.mem_of_getElem? htask) clock reply hcarries with
            ⟨e, he, hevent⟩ | ⟨t', ht', hcarries'⟩ | hdone | hgoes
          · exact hcollected e he hevent
          · exact .inl (.inr ⟨t', settled_mem hi ht', hcarries'⟩)
          · exact absurd hdone hrecorded
          · exact absurd ⟨t, msg, htask, hgoes, hrecorded, hwill⟩ hok
        · exact .inl (.inr ⟨t, ht, hcarries⟩)
  | @transacts i task reply htask =>
      have hframe := (runTransaction_frame (E := E) (w := w) reply task).1
      have htasks : (w.runTransaction E reply task).1.tasks = w.tasks := by rw [hframe]
      have hi : i < (w.runTransaction E reply task).1.tasks.length := by
        rw [htasks]
        exact (List.getElem?_eq_some_iff.mp htask).1
      rcases h with ⟨e, he, hevent⟩ | ⟨t, ht, hcarries⟩
      · refine .inl (.inl ⟨e, ?_, hevent⟩)
        rw [settle_frame, hframe]
        exact he
      · rw [← htasks] at htask ht
        rcases mem_settle_of_mem htask ht with rfl | ht
        · obtain ⟨t', ht', hcarries'⟩ := carried_runTransaction (w := w) reply hcarries
          exact .inl (.inr ⟨t', settled_mem hi ht', hcarries'⟩)
        · exact .inl (.inr ⟨t, ht, hcarries⟩)
  | crashes => exact .inr (.inr fun _ hp => nomatch hp)

theorem Accounted.next (hkept : MessagesKept E w) (hplaced : Placed E w) {msg : Message}
    (hlog : msg.FromLog E) (h : Accounted E w msg) {input : Input} (hok : ¬ Loses E w input) :
    Accounted E (w.next E input) msg := by
  by_cases hrecorded : Recorded E w msg
  · exact .inr (.inl (hrecorded.next input))
  · by_cases hwill : WillBePolled w msg
    · exact hwill.next hplaced hlog input
    · rcases h with hmemory | hdone | hagain
      · exact hmemory.next hkept hok hrecorded hwill
      · exact absurd hdone hrecorded
      · exact absurd hagain hwill

/-- What a transaction that went through was about is recorded. -/
theorem recorded_runTransaction (reply : DbReply) {task t : Task}
    (ht : (w.runTransaction E reply task).2 = some t)
    (hold : ∀ result, task.result = some result → ∀ place ∈ task.reported, place ∈ w.recorded)
    (result : BatchPersistResult) (hresult : t.result = some result) :
    ∀ place ∈ t.reported, place ∈ (w.runTransaction E reply task).1.recorded := by
  cases task with
  | persisting events next =>
      rw [World.runTransaction] at ht ⊢
      split at ht
      · cases ht
        cases hresult
      · cases reply with
        | committed =>
            cases ht
            exact fun place hplace => List.mem_append_left _ hplace
        | _ =>
            cases ht
            cases hresult
  | checkpointing record =>
      cases reply with
      | committed =>
          cases ht
          exact fun place hplace => List.mem_append_left _ hplace
      | _ =>
          cases ht
          cases hresult
  | _ =>
      cases ht
      exact hold result hresult

theorem reported_next (h : MessagesKept E w) (input : Input) : ∀ t ∈ (w.next E input).tasks,
    ∀ result, t.result = some result → ∀ place ∈ t.reported, place ∈ (w.next E input).recorded := by
  have hadd : ∀ u : Task, u.result = none → ∀ t ∈ w.tasks ++ [u], ∀ result, t.result = some result →
      ∀ place ∈ t.reported, place ∈ w.recorded := by
    intro u hu t ht
    rcases mem_append_one ht with ht | rfl
    · exact h.reported t ht
    · rw [hu]
      exact fun _ hresult => nomatch hresult
  obtain ⟨v, hv, hstepped⟩ := @stepped_next E w input
  rw [hv]
  cases hstepped with
  | quiet hquiet =>
      rw [hquiet.tasks, hquiet.recorded]
      exact h.reported
  | flushes => exact hadd _ rfl
  | polls _ => exact hadd _ rfl
  | revokes partitions => exact h.reported
  | assigns _ _ => exact h.reported
  | runs clock reply htask =>
      intro t ht result hresult
      rcases mem_settle ht with ht | ht
      · rw [settle_frame, runTask_frame]
        rw [runTask_frame] at ht
        exact h.reported t ht result hresult
      · rw [(commits_runTask clock reply _).result t ht] at hresult
        cases hresult
  | @transacts i task reply htask =>
      intro t ht result hresult
      rw [settle_frame]
      rcases mem_settle ht with ht | ht
      · rw [(runTransaction_frame reply task).1] at ht
        exact fun place hplace => recorded_transact (h.reported t ht result hresult place hplace)
      · exact recorded_runTransaction reply ht (h.reported task (List.mem_of_getElem? htask)) result hresult
  | crashes => exact fun _ ht => nomatch ht

/-- What was polled before a step is accounted for after it, and so is what it polls. -/
theorem polled_next (h : MessagesKept E w) (hplaced : Placed E w) {input : Input}
    (hok : ¬ Loses E w input) (msg : Message) (hmsg : .polled msg ∈ (w.next E input).history) :
    msg.FromLog E ∧ Accounted E (w.next E input) msg := by
  have hold : .polled msg ∈ w.history → msg.FromLog E ∧ Accounted E (w.next E input) msg := by
    intro hmem
    obtain ⟨hlog, haccounted⟩ := h.polled msg hmem
    exact ⟨hlog, haccounted.next h hplaced hlog hok⟩
  obtain ⟨v, hv, hstepped⟩ := @stepped_next E w input
  rw [hv] at hmsg hold ⊢
  cases hstepped with
  | quiet hquiet =>
      rw [hquiet.history] at hmsg
      exact hold hmsg
  | polls hpolls =>
      rcases List.mem_cons.mp hmsg with hmsg | hmsg
      · cases hmsg
        exact ⟨hpolls.logged, .inl (.inr ⟨_, List.mem_append_right _ List.mem_cons_self, .inl rfl⟩)⟩
      · exact hold hmsg
  | assigns _ _ => exact hold ((List.mem_cons.mp hmsg).resolve_left fun h => nomatch h)
  | runs _ _ _ =>
      refine hold ?_
      rw [settle_frame, runTask_frame] at hmsg
      exact hmsg
  | @transacts i task reply _ =>
      refine hold ?_
      rw [settle_frame, (runTransaction_frame reply task).1] at hmsg
      exact hmsg
  | crashes => cases hmsg
  | _ => exact hold hmsg

/-- In every run whose steps lose no message, each message the process has polled is in memory, is
recorded, or will be polled again. -/
theorem messages_accounted
    (h : ((consumerSystem E).restrict fun w input => ¬ Loses E w input).Reachable w) :
    ∀ msg, .polled msg ∈ w.history → Accounted E w msg := by
  suffices hkept : Placed E w ∧ MessagesKept E w from fun msg hmsg => (hkept.2.polled msg hmsg).2
  refine System.invariant (I := fun w => Placed E w ∧ MessagesKept E w) ?_ ?_ h
  · intro w hstart
    refine ⟨placed_start hstart, ?_⟩
    obtain ⟨-, -, hrestarted⟩ := hstart
    rw [← hrestarted]
    exact ⟨fun _ hmsg => (nomatch hmsg), fun _ ht => (nomatch ht)⟩
  · rintro w input w' - ⟨hplaced, hkept⟩ ⟨hok, rfl⟩
    exact ⟨hplaced.next input, polled_next hkept hplaced hok, reported_next hkept input⟩

/-! ## A message that is polled while a flush is in flight -/

theorem handleMessage_inFlight {clock : Clock} {m : Mapper} {msg : Message}
    (h : m.batchInFlight = true) : m.handleMessage E clock msg = (m, none) := by
  simp [Mapper.handleMessage, Mapper.shouldPauseForBackpressure, h, Mapper.maybeFlush, Mapper.resume]

/-- Two messages are polled before the first is handled; the batch of the first is not yet persisted
when the second is handled. -/
def pollTwo (offset : Nat) : List Input :=
  [.pollMessage (plantTopic, 0) offset, .check 0, .pollMessage (plantTopic, 0) (offset + 1),
    .run 0 (fun _ => 0) .done, .run 1 (fun _ => 0) .done]

/-- The second message is gone. -/
theorem run_pollTwo {offset : Nat} (hw : w.Waits offset) {value value' : Option Bytes} {e : CollectedEvent}
    (hlog : E.log (plantTopic, 0) offset = some value)
    (hlog' : E.log (plantTopic, 0) (offset + 1) = some value')
    (he : Message.IsEvent E ⟨plantTopic, 0, offset, value⟩ e) (hone : E.limits.maxEvents = 1)
    (hbytes : e.envelopeBytes.length ≤ E.limits.maxBytes) :
    (w.run E (pollTwo offset)).mapper.collector = .empty ∧
      (w.run E (pollTwo offset)).tasks = [.persisting [e] .finished] ∧
      (w.run E (pollTwo offset)).position (plantTopic, 0) = some (offset + 2) ∧
      (w.run E (pollTwo offset)).recorded = w.recorded ∧ (w.run E (pollTwo offset)).tables = w.tables ∧
      .polled ⟨plantTopic, 0, offset + 1, value'⟩ ∈ (w.run E (pollTwo offset)).history := by
  have hpause : w.mapper.shouldPauseForBackpressure E.limits 0 = false := by
    rw [Mapper.shouldPauseForBackpressure, hw.idle, hw.collector]
    rfl
  simp [pollTwo, World.run, World.next, World.pollMessage, hw.poller, hw.position, hlog, hlog',
    isNext_self hlog, isNext_self hlog', hpause, hw.paused, hw.tasks, hw.collector, World.settle,
    World.runTask, World.withMapper, handleMessage_fills he hone hbytes hw.idle hw.collector,
    handleMessage_inFlight]

theorem not_handleDiscards {m : Mapper} {msg : Message} {e : CollectedEvent} (he : msg.IsEvent E e)
    (hone : E.limits.maxEvents = 1) (hbytes : e.envelopeBytes.length ≤ E.limits.maxBytes)
    (hidle : m.batchInFlight = false) (hempty : m.collector = .empty) :
    ¬ m.HandleDiscards E (fun _ => 0) msg := by
  have hpause : m.shouldPauseForBackpressure E.limits 0 = false := by
    rw [Mapper.shouldPauseForBackpressure, hidle, hempty]
    rfl
  rw [Mapper.HandleDiscards, hpause, if_neg Bool.false_ne_true]
  rintro (hun | ⟨-, e', he', hrefused, -⟩)
  · exact hun (.inl ⟨e, he⟩)
  · obtain rfl := IsEvent.unique he he'
    rw [hempty, tryAdd_empty hone hbytes] at hrefused
    cases hrefused

/-- Handling a message alone loses nothing. -/
theorem not_loses_handle {offset : Nat} (hw : w.Waits offset) {value : Option Bytes} {e : CollectedEvent}
    (hlog : E.log (plantTopic, 0) offset = some value)
    (he : Message.IsEvent E ⟨plantTopic, 0, offset, value⟩ e) (hone : E.limits.maxEvents = 1)
    (hbytes : e.envelopeBytes.length ≤ E.limits.maxBytes) :
    ¬ Loses E (w.next E (.pollMessage (plantTopic, 0) offset)) (.run 0 (fun _ => 0) .done) := by
  rw [next_polls hw hlog]
  rintro ⟨task, lost, htask, hgoes, -⟩
  have hfirst : (w.polled ⟨plantTopic, 0, offset, value⟩).tasks[0]? =
      some (.handle ⟨plantTopic, 0, offset, value⟩) := by
    simp [World.polled, hw.tasks]
  rw [hfirst] at htask
  cases htask
  exact not_handleDiscards he hone hbytes hw.idle hw.collector hgoes.2

/-- The second of the two messages is nowhere. -/
theorem not_accounted_pollTwo {offset : Nat} (hw : w.Waits offset) {value value' : Option Bytes}
    {e : CollectedEvent} (hlog : E.log (plantTopic, 0) offset = some value)
    (hlog' : E.log (plantTopic, 0) (offset + 1) = some value')
    (he : Message.IsEvent E ⟨plantTopic, 0, offset, value⟩ e) (hone : E.limits.maxEvents = 1)
    (hbytes : e.envelopeBytes.length ≤ E.limits.maxBytes)
    (hnew : ¬ Recorded E w ⟨plantTopic, 0, offset + 1, value'⟩) :
    ¬ Accounted E (w.run E (pollTwo offset)) ⟨plantTopic, 0, offset + 1, value'⟩ := by
  obtain ⟨hcollector, htasks, hposition, hrecorded, htables, -⟩ := run_pollTwo hw hlog hlog' he hone hbytes
  rintro ((⟨x, hx, -⟩ | ⟨t, ht, hcarries⟩) | hdone | hwill)
  · rw [hcollector] at hx
    cases hx
  · rw [htasks] at ht
    obtain rfl := List.mem_singleton.mp ht
    rcases hcarries with hmessage | ⟨r, hrecord, -⟩ | ⟨x, hx, hevent⟩
    · cases hmessage
    · cases hrecord
    · obtain rfl := List.mem_singleton.mp hx
      have hplace := he.place.symm.trans hevent.place
      have hoffset : offset = offset + 1 := congrArg Prod.snd hplace
      omega
  · rw [Recorded, World.checkpoint, hrecorded, htables] at hdone
    exact hnew hdone
  · have hle : offset + 2 ≤ offset + 1 := hwill (offset + 2) hposition
    omega

end Messages

/-- Two records with different ids. -/
def twoValues : List Bytes := [(sampleEvent 0 1700000000).envelopeBytes, encoded (record secondId 1).envelope]

def twoEnv : Env := plantEnv ⟨1, 4194304, 100000⟩ twoValues

theorem log_twoEnv : twoEnv.log (plantTopic, 0) 0 = some (some (sampleEvent 0 1700000000).envelopeBytes) ∧
    twoEnv.log (plantTopic, 0) 1 = some (some (encoded (record secondId 1).envelope)) :=
  ⟨log_plantEnv _ twoValues 0, log_plantEnv _ twoValues 1⟩

theorem isEvent_first : Message.IsEvent twoEnv
    ⟨plantTopic, 0, 0, some (sampleEvent 0 1700000000).envelopeBytes⟩ (sampleEvent 0 1700000000) :=
  isEvent_sampleEvent 0 (by norm_num) portable_seconds rfl

/-- The first message is handled and loses nothing. -/
theorem messages_accounted_first : Accounted twoEnv
    ((World.first.run twoEnv assignPlant).run twoEnv
      [.pollMessage (plantTopic, 0) 0, .run 0 (fun _ => 0) .done])
    ⟨plantTopic, 0, 0, some (sampleEvent 0 1700000000).envelopeBytes⟩ := by
  have hwaits : (World.first.run twoEnv assignPlant).Waits 0 := waits_assignPlant _ _
  have hstart : ((consumerSystem twoEnv).restrict fun w input => ¬ Loses twoEnv w input).Reachable World.first :=
    .init isStart_first
  have hassigned := @reachable_run_restrict twoEnv _ _ (fun _ _ => rfl) _ hstart assignPlant
    ⟨id, id, id, id, trivial⟩
  refine messages_accounted (@reachable_run_restrict twoEnv _ _ (fun _ _ => rfl) _ hassigned
    [.pollMessage (plantTopic, 0) 0, .run 0 (fun _ => 0) .done]
    ⟨id, not_loses_handle hwaits log_twoEnv.1 isEvent_first rfl (length_sampleEvent_le _ _), trivial⟩) _ ?_
  rw [run_taken hwaits log_twoEnv.1 isEvent_first rfl (length_sampleEvent_le _ _)]
  exact List.mem_cons_self

/-- The second message is polled, and then it is nowhere. -/
theorem message_lost : ¬ ∀ E w, (consumerSystem E).Reachable w →
    ∀ msg, .polled msg ∈ w.history → Accounted E w msg := by
  intro h
  have hwaits : (World.first.run twoEnv assignPlant).Waits 0 := waits_assignPlant _ _
  have hnew : ¬ Recorded twoEnv (World.first.run twoEnv assignPlant)
      ⟨plantTopic, 0, 0 + 1, some (encoded (record secondId 1).envelope)⟩ := by
    rintro (hdone | hbelow)
    · cases hdone
    · cases hbelow
  have hpolled := (run_pollTwo hwaits log_twoEnv.1 log_twoEnv.2 isEvent_first rfl (length_sampleEvent_le _ _)).2.2.2.2.2
  have hreach := @reachable_run twoEnv _ (@reachable_run twoEnv _ (.init isStart_first) assignPlant)
    (pollTwo 0)
  exact not_accounted_pollTwo hwaits log_twoEnv.1 log_twoEnv.2 isEvent_first rfl (length_sampleEvent_le _ _) hnew
    (h twoEnv _ hreach _ hpolled)

end Uns.Historian
