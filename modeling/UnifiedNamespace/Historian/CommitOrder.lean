/-
# `Historian.CommitOrder` — Kafka never runs ahead of SQL

Offsets are committed to Kafka only from the result of a transaction, and a checkpoint
never moves back.  So whatever a task has still to commit, whatever the broker was sent
and may apply later, and what it holds as committed lie at or below the checkpoint
(`Ordered`).

`reconcile` reads the checkpoints in one transaction and the committed offsets later.
Between the two no task may commit, because the partitions were revoked and are not
assigned yet; that is the last part of the invariant.
-/
import UnifiedNamespace.Historian.Consumer

namespace Uns.Historian

open Py Lib

section CommitOrder

variable {E : Env} {w : World}

def World.mayCommit (w : World) : Bool := mayCommitKafka w.mapper.ownershipActive w.mapper.revoked

/-! ## Checkpoints never move back -/

theorem checkpoint_persist {events : List ConsumedEvent} {t t' : Tables} {result : BatchPersistResult}
    {S : Setting} {epoch : Nat} (h : persistBatch S epoch events t = .ok (t', result)) (key : PartitionKey) :
    t.checkpoint epoch key ≤ t'.checkpoint epoch key := by
  obtain ⟨rows, -, hpersisted⟩ := persisted_of_ok h
  rw [hpersisted.checkpoint key]
  exact le_computeNextOffset _ _

theorem checkpoint_ignored (epoch : Nat) (records : List IgnoredConsumedRecord) (t : Tables)
    (key : PartitionKey) :
    t.checkpoint epoch key ≤ (checkpointIgnoredRecords epoch records t).1.checkpoint epoch key := by
  obtain ⟨-, hcheck, -, -⟩ := @checkpointIgnored_spec epoch t records
  obtain ⟨offsets, -, h⟩ := hcheck key
  rw [h]
  exact le_computeNextOffset _ _

theorem checkpoint_runTransaction (reply : DbReply) (task : Task) (key : PartitionKey) :
    w.checkpoint E key ≤ (w.runTransaction E reply task).1.checkpoint E key := by
  cases task with
  | persisting events next =>
      rw [World.runTransaction]
      split
      · exact le_rfl
      · rename_i t result h
        cases reply with
        | committed => exact checkpoint_persist h key
        | rolledBack => exact le_rfl
        | unanswered => exact checkpoint_persist h key
  | checkpointing record =>
      cases reply with
      | committed => exact checkpoint_ignored _ _ _ key
      | rolledBack => exact le_rfl
      | unanswered => exact checkpoint_ignored _ _ _ key
  | _ => exact le_rfl

/-- A step moves no checkpoint back. -/
theorem checkpoint_le_next (input : Input) (key : PartitionKey) :
    w.checkpoint E key ≤ (w.next E input).checkpoint E key := by
  obtain ⟨v, hv, hstepped⟩ := @stepped_next E w input
  rw [hv]
  cases hstepped with
  | quiet hquiet => exact (hquiet.checkpoint key).ge
  | @runs i task clock reply _ =>
      rw [World.checkpoint, World.checkpoint, settle_frame, runTask_frame]
  | @transacts i task reply _ =>
      refine le_trans (checkpoint_runTransaction reply task key) ?_
      rw [World.checkpoint, World.checkpoint, settle_frame]
  | _ => exact le_rfl

/-! ## What is still to be committed -/

/-- What a task has to report to Kafka. -/
def Task.result : Task → Option BatchPersistResult
  | .persisted _ (.ok result) _ => some result
  | .checkpointed _ (some result) => some result
  | _ => none

/-- What a stretch does to the offsets in Kafka. -/
structure Commits (w : World) (task : Task) (out : World × Option Task) : Prop where
  poller : out.1.poller = w.poller
  mayCommit : out.1.mayCommit = w.mayCommit
  committed : ∀ key n, out.1.committed key = some n → w.committed key = some n ∨
    w.mayCommit = true ∧ ∃ result, task.result = some result ∧ result.nextOffsets.get? key = some n
  requests : ∀ r ∈ out.1.requests, r ∈ w.requests ∨
    w.mayCommit = true ∧ ∃ result, task.result = some result ∧ result.nextOffsets.get? r.1 = some r.2
  result : ∀ t, out.2 = some t → t.result = none
  tasks : out.1.tasks = w.tasks

theorem Stretch.commits {source : Resume} {task : Task} {out : Mapper × Option Task}
    (h : Stretch E w.mapper source out) : Commits w task (w.withMapper out) := by
  refine ⟨rfl, ?_, fun _ _ hn => .inl hn, fun _ hr => .inl hr, ?_, rfl⟩
  · simp only [World.mayCommit, World.withMapper, h.active, h.revoked]
  · intro t ht
    rcases h.task t ht with ⟨taken, next, rfl⟩ | ⟨r, rfl⟩ <;> rfl

theorem recordSqlSuccess_get? {m : Mapper} {result : BatchPersistResult} {key : PartitionKey} {n : Nat}
    (h : (m.recordSqlSuccess result).get? key = some n) :
    mayCommitKafka m.ownershipActive m.revoked = true ∧ result.nextOffsets.get? key = some n := by
  rw [Mapper.recordSqlSuccess] at h
  split at h
  · rename_i hmay
    exact ⟨hmay, h⟩
  · cases h

/-- The commits of a result that a task has to report. -/
theorem commits_commitKafka {task : Task} {result : BatchPersistResult} (hresult : task.result = some result)
    {m : Mapper} (hm : mayCommitKafka m.ownershipActive m.revoked = w.mayCommit) (reply : CommitReply)
    {next : Option Task} (hnext : ∀ t, next = some t → t.result = none) :
    Commits w task ((World.commitKafka { w with mapper := m } (m.recordSqlSuccess result) reply).1, next) := by
  have hrequests : ∀ r ∈ (m.recordSqlSuccess result).entries,
      w.mayCommit = true ∧ ∃ result, task.result = some result ∧ result.nextOffsets.get? r.1 = some r.2 := by
    intro r hr
    obtain ⟨hmay, hget⟩ := recordSqlSuccess_get? (Dict.get?_of_mem hr)
    exact ⟨hm ▸ hmay, result, hresult, hget⟩
  cases reply with
  | done =>
      refine ⟨rfl, hm, ?_, fun _ hr => .inl hr, hnext, rfl⟩
      intro key n hn
      rcases Option.or_eq_some_iff.mp hn with hn | ⟨-, hn⟩
      · obtain ⟨hmay, hget⟩ := recordSqlSuccess_get? hn
        exact .inr ⟨hm ▸ hmay, result, hresult, hget⟩
      · exact .inl hn
  | raised =>
      rw [World.commitKafka]
      split
      · exact ⟨rfl, hm, fun _ _ hn => .inl hn, fun _ hr => .inl hr, hnext, rfl⟩
      · refine ⟨rfl, hm, fun _ _ hn => .inl hn, ?_, hnext, rfl⟩
        intro r hr
        exact (List.mem_append.mp hr).imp_right (hrequests r)

theorem commits_runTask (clock : Clock) (reply : CommitReply) (task : Task) :
    Commits w task (w.runTask E clock reply task) := by
  have hsame : ∀ t, task.result = none → task = t → Commits w task (w, some t) := by
    rintro t hnone rfl
    refine ⟨rfl, rfl, fun _ _ hn => .inl hn, fun _ hr => .inl hr, ?_, rfl⟩
    rintro u hu
    cases hu
    exact hnone
  cases task with
  | flush => exact (stretch_flushTask _).commits
  | handle msg => exact stretch_handle.1.commits
  | persisting events next => exact hsame _ rfl rfl
  | checkpointing record => exact hsame _ rfl rfl
  | persisted events outcome next =>
      cases outcome with
      | error raised =>
          refine ⟨rfl, rfl, fun _ _ hn => .inl hn, fun _ hr => .inl hr, ?_, rfl⟩
          intro t ht
          cases ht
      | ok result =>
          refine @commits_commitKafka w (.persisted events (.ok result) next) result rfl
            { w.mapper with batchInFlight := false } rfl reply _ ?_
          intro t ht
          split at ht
          · cases ht
            rfl
          · cases ht
  | observing next =>
      have h := (@stretch_resume E clock w.mapper next).1
      have hc := @Stretch.commits E w.resumeOwned _ (.observing next) _ h
      exact ⟨hc.poller, hc.mayCommit, hc.committed, hc.requests, hc.result, hc.tasks⟩
  | checkpointed record outcome =>
      cases outcome with
      | none =>
          refine ⟨rfl, rfl, fun _ _ hn => .inl hn, fun _ hr => .inl hr, ?_, rfl⟩
          intro t ht
          cases ht
      | some result =>
          refine @commits_commitKafka w (.checkpointed record (some result)) result rfl w.mapper rfl
            reply _ ?_
          intro t ht
          cases ht

/-- Nothing that Kafka has, may come to have, or is about to get is past a checkpoint; and what
`reconcile` has read is not behind what it will find committed. -/
structure Ordered (E : Env) (w : World) : Prop where
  committed : ∀ key n, w.committed key = some n → n ≤ w.checkpoint E key
  requests : ∀ r ∈ w.requests, r.2 ≤ w.checkpoint E r.1
  reported : ∀ t ∈ w.tasks, ∀ result, t.result = some result → ∀ key n,
    result.nextOffsets.get? key = some n → n ≤ w.checkpoint E key
  reading : ∀ partitions, w.poller = .reading partitions → w.mayCommit = false
  reconciling : ∀ partitions checkpoints, w.poller = .reconciling partitions checkpoints →
    w.mayCommit = false ∧ ∀ p ∈ partitions,
      (∀ n, w.committed (E.topic, p) = some n → n ≤ (checkpoints.get? p).getD 0) ∧
      ∀ r ∈ w.requests, r.1 = (E.topic, p) → r.2 ≤ (checkpoints.get? p).getD 0

/-- A step that moves no checkpoint back and commits nothing need only account for its new
tasks and for where it leaves the poll thread. -/
theorem Ordered.frame (h : Ordered E w) {v : World} (hcheck : ∀ key, w.checkpoint E key ≤ v.checkpoint E key)
    (hcommitted : v.committed = w.committed) (hrequests : v.requests = w.requests)
    (hreading : ∀ ps, v.poller = .reading ps → v.mayCommit = false)
    (hreconciling : ∀ ps cs, v.poller = .reconciling ps cs →
      w.poller = .reconciling ps cs ∧ v.mayCommit = w.mayCommit)
    (htasks : ∀ t ∈ v.tasks, t ∈ w.tasks ∨ ∀ result, t.result = some result → ∀ key n,
      result.nextOffsets.get? key = some n → n ≤ v.checkpoint E key) : Ordered E v := by
  refine ⟨?_, ?_, ?_, hreading, ?_⟩
  · intro key n hn
    rw [hcommitted] at hn
    exact le_trans (h.committed key n hn) (hcheck key)
  · intro r hr
    rw [hrequests] at hr
    exact le_trans (h.requests r hr) (hcheck r.1)
  · intro t ht result hresult key n hn
    rcases htasks t ht with hold | hnew
    · exact le_trans (h.reported t hold result hresult key n hn) (hcheck key)
    · exact hnew result hresult key n hn
  · intro ps cs hps
    obtain ⟨hpoller, hmay⟩ := hreconciling ps cs hps
    obtain ⟨hno, hread⟩ := h.reconciling ps cs hpoller
    rw [hmay, hcommitted, hrequests]
    exact ⟨hno, hread⟩

/-- The poll thread moves on its own: neither reading checkpoints nor reconciling. -/
theorem Ordered.polls (h : Ordered E w) {v : World} (htables : v.tables = w.tables)
    (hcommitted : v.committed = w.committed) (hrequests : v.requests = w.requests)
    (hpoller : v.poller = .check ∨ v.poller = .poll ∨ v.poller = .dead)
    (htasks : ∀ t ∈ v.tasks, t ∈ w.tasks ∨ t.result = none) : Ordered E v := by
  refine h.frame ?_ hcommitted hrequests ?_ ?_ ?_
  · intro key
    rw [World.checkpoint, World.checkpoint, htables]
  · intro ps hps
    rcases hpoller with hp | hp | hp <;> rw [hp] at hps <;> cases hps
  · intro ps cs hps
    rcases hpoller with hp | hp | hp <;> rw [hp] at hps <;> cases hps
  · intro t ht
    refine (htasks t ht).imp_right ?_
    intro hnone result hresult
    rw [hnone] at hresult
    cases hresult

theorem Ordered.run (h : Ordered E w) {task : Task} (htask : task ∈ w.tasks) (i : Nat) (clock : Clock)
    (reply : CommitReply) : Ordered E (World.settle i (w.runTask E clock reply task)) := by
  have hc := commits_runTask (E := E) (w := w) clock reply task
  have htables : (w.runTask E clock reply task).1.tables = w.tables := by rw [runTask_frame]
  generalize w.runTask E clock reply task = out at hc htables
  have hcheck : ∀ key, (World.settle i out).checkpoint E key = w.checkpoint E key := by
    intro key
    rw [World.checkpoint, settle_frame, World.checkpoint, htables]
  have hrest : (World.settle i out).committed = out.1.committed ∧
      (World.settle i out).requests = out.1.requests ∧ (World.settle i out).poller = out.1.poller ∧
      (World.settle i out).mayCommit = out.1.mayCommit := by
    rw [World.settle]
    split <;> exact ⟨rfl, rfl, rfl, rfl⟩
  obtain ⟨ecommitted, erequests, epoller, emay⟩ := hrest
  have hreported : ∀ result, task.result = some result → ∀ key n,
      result.nextOffsets.get? key = some n → n ≤ w.checkpoint E key :=
    fun result hresult => h.reported task htask result hresult
  refine ⟨?_, ?_, ?_, ?_, ?_⟩
  · intro key n hn
    rw [ecommitted] at hn
    rw [hcheck]
    rcases hc.committed key n hn with hold | ⟨-, result, hresult, hget⟩
    · exact h.committed key n hold
    · exact hreported result hresult key n hget
  · intro r hr
    rw [erequests] at hr
    rw [hcheck]
    rcases hc.requests r hr with hold | ⟨-, result, hresult, hget⟩
    · exact h.requests r hold
    · exact hreported result hresult r.1 r.2 hget
  · intro t ht result hresult key n hn
    rw [hcheck]
    rcases mem_settle ht with ht | ht
    · rw [hc.tasks] at ht
      exact h.reported t ht result hresult key n hn
    · rw [hc.result t ht] at hresult
      cases hresult
  · intro ps hps
    rw [epoller, hc.poller] at hps
    rw [emay, hc.mayCommit]
    exact h.reading ps hps
  · intro ps cs hps
    rw [epoller, hc.poller] at hps
    obtain ⟨hno, hread⟩ := h.reconciling ps cs hps
    rw [emay, hc.mayCommit]
    refine ⟨hno, ?_⟩
    intro p hp
    obtain ⟨hcommitted, hrequests⟩ := hread p hp
    -- nothing is committed while the partitions are revoked
    have hnever : w.mayCommit ≠ true := by
      rw [hno]
      exact Bool.false_ne_true
    constructor
    · intro n hn
      rw [ecommitted] at hn
      rcases hc.committed _ n hn with hold | ⟨hmay, -⟩
      · exact hcommitted n hold
      · exact absurd hmay hnever
    · intro r hr
      rw [erequests] at hr
      rcases hc.requests r hr with hold | ⟨hmay, -⟩
      · exact hrequests r hold
      · exact absurd hmay hnever

/-- A transaction and its result. -/
theorem reported_runTransaction (reply : DbReply) (task : Task) :
    let out := w.runTransaction E reply task
    (out.1.committed = w.committed ∧ out.1.requests = w.requests ∧ out.1.poller = w.poller ∧
      out.1.mayCommit = w.mayCommit ∧ out.1.tasks = w.tasks) ∧
      ∀ t, out.2 = some t → t = task ∨ ∀ result, t.result = some result → ∀ key n,
        result.nextOffsets.get? key = some n → n ≤ out.1.checkpoint E key := by
  have hnothing : ∀ {v : World} {u t : Task}, u.result = none → some u = some t →
      t = task ∨ ∀ result, t.result = some result → ∀ key n,
        result.nextOffsets.get? key = some n → n ≤ v.checkpoint E key := by
    rintro v u t hnone ⟨⟩
    refine .inr ?_
    intro result hresult
    rw [hnone] at hresult
    cases hresult
  have hsame : ∀ {v : World} {t : Task}, some task = some t → t = task ∨ ∀ result,
      t.result = some result → ∀ key n,
        result.nextOffsets.get? key = some n → n ≤ v.checkpoint E key := by
    rintro v t ⟨⟩
    exact .inl rfl
  cases task with
  | persisting events next =>
      rw [World.runTransaction]
      split
      · exact ⟨⟨rfl, rfl, rfl, rfl, rfl⟩, fun t ht => hnothing rfl ht⟩
      · rename_i tables result h
        cases reply with
        | committed =>
            refine ⟨⟨rfl, rfl, rfl, rfl, rfl⟩, ?_⟩
            rintro t ⟨⟩
            refine .inr ?_
            rintro r ⟨⟩ key n hn
            exact (nextOffsets_of_ok h hn).ge
        | rolledBack => exact ⟨⟨rfl, rfl, rfl, rfl, rfl⟩, fun t ht => hnothing rfl ht⟩
        | unanswered => exact ⟨⟨rfl, rfl, rfl, rfl, rfl⟩, fun t ht => hnothing rfl ht⟩
  | checkpointing record =>
      cases reply with
      | committed =>
          refine ⟨⟨rfl, rfl, rfl, rfl, rfl⟩, ?_⟩
          rintro t ⟨⟩
          refine .inr ?_
          rintro r ⟨⟩ key n hn
          obtain ⟨-, -, -, hreports⟩ := @checkpointIgnored_spec E.epoch w.tables [record]
          exact (hreports key n hn).ge
      | rolledBack => exact ⟨⟨rfl, rfl, rfl, rfl, rfl⟩, fun t ht => hnothing rfl ht⟩
      | unanswered => exact ⟨⟨rfl, rfl, rfl, rfl, rfl⟩, fun t ht => hnothing rfl ht⟩
  | _ => exact ⟨⟨rfl, rfl, rfl, rfl, rfl⟩, fun t ht => hsame ht⟩

theorem Ordered.transact (h : Ordered E w) {task : Task} (htask : task ∈ w.tasks) (i : Nat)
    (reply : DbReply) : Ordered E (World.settle i (w.runTransaction E reply task)) := by
  obtain ⟨⟨hcommitted, hrequests, hpoller, hmay, htasks⟩, hreported⟩ :=
    reported_runTransaction (E := E) (w := w) reply task
  have hcheck := checkpoint_runTransaction (E := E) (w := w) reply task
  generalize w.runTransaction E reply task = out at *
  have hrest : (World.settle i out).committed = out.1.committed ∧
      (World.settle i out).requests = out.1.requests ∧ (World.settle i out).poller = out.1.poller ∧
      (World.settle i out).mayCommit = out.1.mayCommit ∧
      (World.settle i out).tables = out.1.tables := by
    rw [World.settle]
    split <;> exact ⟨rfl, rfl, rfl, rfl, rfl⟩
  obtain ⟨ecommitted, erequests, epoller, emay, etables⟩ := hrest
  have echeck : ∀ key, (World.settle i out).checkpoint E key = out.1.checkpoint E key := by
    intro key
    rw [World.checkpoint, etables, World.checkpoint]
  refine h.frame ?_ (ecommitted.trans hcommitted) (erequests.trans hrequests) ?_ ?_ ?_
  · intro key
    rw [echeck]
    exact hcheck key
  · intro ps hps
    rw [epoller, hpoller] at hps
    rw [emay, hmay]
    exact h.reading ps hps
  · intro ps cs hps
    rw [epoller, hpoller] at hps
    exact ⟨hps, emay.trans hmay⟩
  · intro t ht
    rcases mem_settle ht with ht | ht
    · rw [htasks] at ht
      exact .inl ht
    · rcases hreported t ht with rfl | hnew
      · exact .inl htask
      · refine .inr ?_
        intro result hresult key n hn
        rw [echeck]
        exact hnew result hresult key n hn

/-! ## Every run -/

theorem ordered_start (h : w.IsStart) : Ordered E w := by
  obtain ⟨hcommitted, hrequests, hstart⟩ := h
  refine ⟨?_, ?_, ?_, ?_, ?_⟩
  · intro key n hn
    rw [hcommitted key] at hn
    cases hn
  · intro r hr
    rw [hrequests] at hr
    cases hr
  · intro t ht
    rw [← hstart] at ht
    cases ht
  · intro ps hps
    rw [← hstart] at hps
    cases hps
  · intro ps cs hps
    rw [← hstart] at hps
    cases hps

theorem Ordered.readCheckpoints (h : Ordered E w) {partitions : List Nat}
    (hp : w.poller = .reading partitions) (reply : DbReply) :
    Ordered E (w.next E (.readCheckpoints reply)) := by
  obtain ⟨-, -, -, hcheck, hread⟩ := @readPartitionCheckpoints_spec E.epoch w.tables E.topic partitions
  have hsame : ∀ key, w.checkpoint E key =
      (readPartitionCheckpoints E.epoch E.topic partitions w.tables).1.checkpoint E.epoch key :=
    fun key => (congrFun (congrFun hcheck E.epoch) key).symm
  simp only [World.next, hp]
  cases reply with
  | committed =>
      refine ⟨?_, ?_, ?_, fun _ hps => (by cases hps), ?_⟩
      · exact fun key n hn => (h.committed key n hn).trans (hsame key).le
      · exact fun r hr => (h.requests r hr).trans (hsame r.1).le
      · exact fun t ht result hresult key n hn =>
          (h.reported t ht result hresult key n hn).trans (hsame key).le
      · rintro ps cs ⟨⟩
        refine ⟨h.reading partitions hp, ?_⟩
        intro p hmem
        rw [hread p hmem]
        constructor
        · exact fun n hn => h.committed _ n hn
        · rintro r hr hkey
          rw [Option.getD_some, ← hkey]
          exact h.requests r hr
  | rolledBack => exact h.polls rfl rfl rfl (.inr (.inr rfl)) fun _ ht => .inl ht
  | unanswered =>
      exact h.frame (fun key => (hsame key).le) rfl rfl (fun _ hps => (by cases hps))
        (fun _ _ hps => (by cases hps)) fun _ ht => .inl ht

theorem Ordered.next (h : Ordered E w) (input : Input) : Ordered E (w.next E input) := by
  cases input with
  | check now =>
      rw [World.next]
      split
      · exact h.polls rfl rfl rfl (.inr (.inl rfl)) fun _ ht => .inl ht
      · exact h
  | pollNothing =>
      rw [World.next]
      split
      · refine h.polls rfl rfl rfl (.inl rfl) ?_
        intro t ht
        refine (mem_append_one ht).imp_right ?_
        rintro rfl
        rfl
      · exact h
  | pollError =>
      rw [World.next]
      split
      · exact h.polls rfl rfl rfl (.inl rfl) fun _ ht => .inl ht
      · exact h
  | pollMessage key offset =>
      rw [World.next]
      split
      · rw [World.pollMessage]
        split
        · split
          · refine h.polls rfl rfl rfl (.inl rfl) ?_
            intro t ht
            refine (mem_append_one ht).imp_right ?_
            rintro rfl
            rfl
          · exact h
        · exact h
      · exact h
  | revoke partitions =>
      rw [World.next]
      split
      · rename_i hp
        refine h.frame (fun _ => le_rfl) rfl rfl ?_ ?_ fun _ ht => .inl ht
        · intro ps hps
          rw [hp] at hps
          cases hps
        · intro ps cs hps
          rw [hp] at hps
          cases hps
      · exact h
  | assign partitions =>
      rw [World.next]
      split
      · split
        · exact h
        · rename_i hno
          refine h.frame (fun _ => le_rfl) rfl rfl ?_ (fun _ _ hps => (by cases hps)) fun _ ht => .inl ht
          exact fun _ _ => Bool.eq_false_iff.mpr hno
      · exact h
  | readCheckpoints reply =>
      cases hp : w.poller with
      | reading partitions => exact h.readCheckpoints hp reply
      | _ =>
          simp only [World.next, hp]
          exact h
  | reconcile low raises =>
      rw [World.next]
      split
      · split
        · exact h.polls rfl rfl rfl (.inr (.inr rfl)) fun _ ht => .inl ht
        · split
          · exact h.polls rfl rfl rfl (.inr (.inr rfl)) fun _ ht => .inl ht
          · exact h.polls rfl rfl rfl (.inr (.inl rfl)) fun _ ht => .inl ht
      · exact h
  | run i clock reply =>
      rw [World.next]
      split
      · rename_i task htask
        exact h.run (List.mem_of_getElem? htask) i clock reply
      · exact h
  | transact i reply =>
      rw [World.next]
      split
      · rename_i task htask
        exact h.transact (List.mem_of_getElem? htask) i reply
      · exact h
  | applyRequest request =>
      rw [World.next]
      split
      · rename_i hmem
        refine ⟨?_, fun r hr => h.requests r (List.mem_of_mem_erase hr), h.reported, h.reading, ?_⟩
        · intro key n hn
          dsimp only at hn
          split at hn
          · rename_i hkey
            cases hn
            rw [hkey]
            exact h.requests request hmem
          · exact h.committed key n hn
        · intro ps cs hps
          obtain ⟨hno, hread⟩ := h.reconciling ps cs hps
          refine ⟨hno, ?_⟩
          intro p hp
          obtain ⟨hcommitted, hrequests⟩ := hread p hp
          refine ⟨?_, fun r hr => hrequests r (List.mem_of_mem_erase hr)⟩
          intro n hn
          dsimp only at hn
          split at hn
          · rename_i hkey
            cases hn
            exact hrequests request hmem hkey.symm
          · exact hcommitted n hn
      · exact h
  | deadLetter key offset => exact ⟨h.committed, h.requests, h.reported, h.reading, h.reconciling⟩
  | crash =>
      refine h.polls rfl rfl rfl (.inl rfl) ?_
      intro t ht
      cases ht

theorem reconcileAll_ordered {checkpoints : Dict Nat Nat} {committed : PartitionKey → Option Nat}
    {low : Nat → Nat} {partitions : List Nat}
    (h : ∀ p ∈ partitions, ∀ n, committed (E.topic, p) = some n → n ≤ (checkpoints.get? p).getD 0) :
    reconcileAll E checkpoints committed low partitions ≠ .error .kafkaAheadOfSql := by
  induction partitions with
  | nil => exact fun h => by cases h
  | cons p partitions ih =>
      have hone : reconcilePartitionOffset ((checkpoints.get? p).getD 0) (committed (E.topic, p))
          (some (low p)) ≠ .error .kafkaAheadOfSql := by
        rw [reconcilePartitionOffset, if_neg]
        · split <;> exact fun h => by cases h
        · intro hany
          cases hn : committed (E.topic, p) with
          | none =>
              rw [hn] at hany
              cases hany
          | some n =>
              rw [hn] at hany
              exact absurd (h p List.mem_cons_self n hn) (not_le.mpr (of_decide_eq_true hany))
      have hrest := ih fun q hq => h q (List.mem_cons_of_mem _ hq)
      have hcons : reconcileAll E checkpoints committed low (p :: partitions) =
          ((reconcilePartitionOffset ((checkpoints.get? p).getD 0) (committed (E.topic, p))
              (some (low p))).map fun seek => ((E.topic, p), seek)).bind fun x =>
            (reconcileAll E checkpoints committed low partitions).bind fun xs => .ok (x :: xs) := by
        rw [reconcileAll, List.mapM_cons]
        rfl
      rw [hcons]
      cases hp : reconcilePartitionOffset ((checkpoints.get? p).getD 0) (committed (E.topic, p))
          (some (low p)) with
      | error e =>
          rintro ⟨⟩
          exact hone hp
      | ok seek =>
          cases hps : reconcileAll E checkpoints committed low partitions with
          | error e =>
              rintro ⟨⟩
              exact hrest hps
          | ok seeks => exact fun h => by cases h

/-- In every state that runs of the consumer lead to, what Kafka has committed is at most the
checkpoint, no step moves a checkpoint back, and `reconcile` does not find Kafka ahead. -/
theorem kafka_never_ahead (h : (consumerSystem E).Reachable w) :
    (∀ key n, w.committed key = some n → n ≤ w.checkpoint E key) ∧
      (∀ input key, w.checkpoint E key ≤ (w.next E input).checkpoint E key) ∧
      ∀ partitions checkpoints low, w.poller = .reconciling partitions checkpoints →
        reconcileAll E checkpoints w.committed low partitions ≠ .error .kafkaAheadOfSql := by
  have hordered : Ordered E w := by
    refine System.invariant (fun _ => ordered_start) ?_ h
    rintro w input w' - hw rfl
    exact hw.next input
  refine ⟨hordered.committed, checkpoint_le_next, ?_⟩
  intro partitions checkpoints low hp
  exact reconcileAll_ordered fun p hmem => ((hordered.reconciling _ _ hp).2 p hmem).1

end CommitOrder

/-- One record is polled, persisted and committed; then the process dies. -/
def committedRun : World :=
  World.first.run (plantEnv ⟨1, 4194304, 100000⟩ [encoded (record firstId 0).envelope])
    (assignPlant ++ consumeOne 0 ++ [.crash])

theorem committed_committedRun : committedRun.committed (plantTopic, 0) = some 1 := by
  have hwaits := waits_assignPlant ⟨1, 4194304, 100000⟩ [encoded (record firstId 0).envelope]
  rw [committedRun, run_append, run_append]
  generalize hw : World.first.run (plantEnv ⟨1, 4194304, 100000⟩ _) assignPlant = w at hwaits ⊢
  have hnext : ((persistBatch openSetting 1 [(sampleEvent 0 1700000000).toConsumedEvent]
      w.tables).toOption.bind fun out => out.2.nextOffsets.get? (plantTopic, 0)) = some 1 := by
    rw [← hw]
    decide +kernel
  have howned : w.mapper.ownershipActive = true ∧ w.mapper.revoked = false := by
    rw [← hw]
    exact ⟨rfl, rfl⟩
  obtain ⟨⟨t, result⟩, hp, hresult⟩ := exists_of_toOption hnext
  rw [run_sampleEvent hwaits rfl (by norm_num) portable_seconds rfl (length_sampleEvent_le _ _) hp]
  show ((w.mapper.recordSqlSuccess result).get? _).or _ = some 1
  rw [Mapper.recordSqlSuccess, howned.1, howned.2]
  simp [mayCommitKafka, hresult]

theorem kafka_never_ahead_restarted :
    1 ≤ committedRun.checkpoint (plantEnv ⟨1, 4194304, 100000⟩ [encoded (record firstId 0).envelope])
      (plantTopic, 0) :=
  (kafka_never_ahead (reachable_run (.init ⟨fun _ => rfl, rfl, rfl⟩) _)).1 (plantTopic, 0) 1
    committed_committedRun

end Uns.Historian
