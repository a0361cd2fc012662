/-
# `Datalake.CommitSafety` — what a commit covers

Every offset below a commit that was handed to the mapper since the assignment is
settled: a row of an accepted object, published to the DLQ, or not eligible for
the archive.

The mapper is run as a system with five inputs, in any order: assignments,
revocations, messages, turns of the loop and retries of the rejections.  `Safe` is
the invariant, kept by every function of the mapper whatever the environment
answers.  Its fields go along the life of an offset: a resolved offset is settled;
a handed offset is observed or settled; what is buffered or frozen came from a
message; a pending commit offset has nothing unsettled below it.
-/
import UnifiedNamespace.Datalake.Mapper
import UnifiedNamespace.Lib.Transition
import UnifiedNamespace.Config.EventRoundTrip

namespace Uns

open Py Lib
open Eff (state change raise Spec Keeps Frames)

variable {lim : Limits} {env : Env lim}

/-! ## The system -/

/-- The offsets of a partition handed over since the last assignment. -/
def handedSince : List Event → PartitionKey → List Nat
  | [], _ => []
  | .assigned :: _, _ => []
  | .handed msg :: t, key =>
      if msg.partitionKey = key then msg.offset :: handedSince t key else handedSince t key
  | _ :: t, key => handedSince t key

/-- What became of a message. -/
inductive Outcome (env : Env lim) (t : List Event) (msg : Message) : Prop
  | archived {object : FrozenObject} {records : List LakeRecord} {batchId : Str}
      {resolved : ResolvedLakeEvent} :
      .published object .accepted ∈ t → .verified object .accepted ∈ t →
      env.recordsToParquet records batchId = some object.data →
      classify env msg.payload = .eligible resolved → msg.record resolved ∈ records →
      Outcome env t msg
  | rejected {reason : Str} : .dlqPublished (msg.rejection reason) true ∈ t → Outcome env t msg
  | ineligible : classify env msg.payload = .ineligible → Outcome env t msg

/-- The message at a coordinate has an outcome. -/
def Settled (env : Env lim) (t : List Event) (c : Coord) : Prop :=
  ∃ msg, .handed msg ∈ t ∧ msg.coord = c ∧ Outcome env t msg

inductive Input where
  | assign (partitions : Finset PartitionKey)
  | revoke (partitions : Finset PartitionKey)
  | handle (msg : Message)
  | run (poll : Poll)
  | retry

/-- The message an input can hand to the mapper. -/
def Input.message? : Input → Option Message
  | .handle msg => some msg
  | .run (.message msg) => some msg
  | _ => none

/-- The offset is above those handed over since the assignment. -/
def Increasing (m : Mapper) (msg : Message) : Prop :=
  ∀ o ∈ handedSince m.trace msg.partitionKey, o < msg.offset

def Input.apply (env : Env lim) : Input → Mapper → Mapper
  | .assign partitions, m => onAssign partitions m
  | .revoke partitions, m => (onRevoke partitions m).2
  | .handle msg, m => (handleMessage env msg m).2
  | .run poll, m => (runOnce env poll m).2
  | .retry, m => (tryAdvanceRejections env m).2

/-- Inputs in any order, with increasing offsets in each partition. -/
def mapperSystem (env : Env lim) : System Mapper Input where
  init m := m = Mapper.start env
  step m i m' := (∀ msg, i.message? = some msg → Increasing m msg) ∧ m' = i.apply env m

/-! ## The invariant -/

theorem Outcome.mono {t t' : List Event} {msg : Message} (ht : ∀ e ∈ t, e ∈ t')
    (h : Outcome env t msg) : Outcome env t' msg := by
  cases h with
  | archived hp hv hparquet hc hr => exact .archived (ht _ hp) (ht _ hv) hparquet hc hr
  | rejected h => exact .rejected (ht _ h)
  | ineligible h => exact .ineligible h

theorem Settled.mono {t t' : List Event} {c : Coord} (ht : ∀ e ∈ t, e ∈ t')
    (h : Settled env t c) : Settled env t' c := by
  obtain ⟨msg, hmsg, hc, ho⟩ := h
  exact ⟨msg, ht _ hmsg, hc, ho.mono ht⟩

theorem Settled.cons {t : List Event} {c : Coord} (e : Event) (h : Settled env t c) :
    Settled env (e :: t) c := h.mono fun _ => List.mem_cons_of_mem e

/-- Each commit so far covers settled offsets only. -/
def CommitsSafe (env : Env lim) : List Event → Prop
  | [] => True
  | .committed key n _ :: t =>
      (∀ o ∈ handedSince t key, o < n → Settled env t (key, o)) ∧ CommitsSafe env t
  | _ :: t => CommitsSafe env t

/-- The record of a message among `seen`. -/
def RecordOf (env : Env lim) (seen : Message → Prop) (r : LakeRecord) : Prop :=
  ∃ msg resolved, seen msg ∧ classify env msg.payload = .eligible resolved ∧ r = msg.record resolved

def RejectionOf (seen : Message → Prop) (r : PendingRejection) : Prop :=
  ∃ msg reason, seen msg ∧ r = msg.rejection reason

/-- `n` is at most one past an offset in `since`, and none of those below it is unsettled. -/
def Ready (env : Env lim) (since : PartitionKey → List Nat) (t : List Event) (key : PartitionKey)
    (n : Nat) : Prop :=
  (∃ w ∈ since key, n ≤ w + 1) ∧ ∀ o ∈ since key, o < n → Settled env t (key, o)

/-- `since` is what was handed over since the assignment, `seen` some messages handed over ever. -/
structure Safe (env : Env lim) (since : PartitionKey → List Nat) (seen : Message → Prop)
    (m : Mapper) : Prop where
  since_eq : ∀ key, handedSince m.trace key = since key
  seen_handed : ∀ msg, seen msg → .handed msg ∈ m.trace
  commits : CommitsSafe env m.trace
  resolved : ∀ key, ∀ o ∈ (m.consumedPrefixes key).resolved, Settled env m.trace (key, o)
  handed : ∀ key, ∀ o ∈ since key,
    o ∈ (m.consumedPrefixes key).observed ∨ Settled env m.trace (key, o)
  observed : ∀ key, ∀ o ∈ (m.consumedPrefixes key).observed, o ∈ since key
  buffered : ∀ e ∈ m.batch.buffers.entries, ∀ r ∈ e.2.records, RecordOf env seen r
  pending : ∀ r ∈ m.pendingRejections, RejectionOf seen r
  frozen : ∀ flush, m.frozenFlush = some flush → ∀ g ∈ flush.routeGroups, ∀ r ∈ g.records,
    r.partitionKey = flush.partitionKey ∧ RecordOf env seen r
  encoded : ∀ flush object, m.frozenFlush = some flush → m.frozenObject = some object →
    ∃ g, flush.routeGroups[m.groupIndex]? = some g ∧
      env.recordsToParquet g.records flush.flushId = some object.data
  generations : m.frozenGeneration ≤ m.generation
  ready : ∀ flush n, m.frozenFlush = some flush → m.pendingCommitOffset = some n →
    m.frozenGeneration = m.generation → Ready env since m.trace flush.partitionKey n

variable {since : PartitionKey → List Nat} {seen : Message → Prop} {m : Mapper}

theorem Ready.cons {t : List Event} {key : PartitionKey} {n : Nat} (e : Event)
    (h : Ready env since t key n) : Ready env since (e :: t) key n :=
  ⟨h.1, fun o ho hlt => (h.2 o ho hlt).cons e⟩

/-- The commit offset of a ledger has nothing unsettled below it. -/
theorem Safe.ready_nextOffset (h : Safe env since seen m) {key : PartitionKey} {n : Nat}
    (hn : (m.consumedPrefixes key).nextOffset = some n) : Ready env since m.trace key n := by
  constructor
  · obtain ⟨w, hw, hle⟩ := ConsumedPrefix.le_of_nextOffset hn
    exact ⟨w, h.observed key w hw, hle⟩
  · intro o ho hlt
    rcases h.handed key o ho with hobs | hs
    · exact h.resolved key o (ConsumedPrefix.resolved_of_lt_nextOffset hn hobs hlt)
    · exact hs

/-- The events that neither start an assignment, hand over a message nor commit. -/
def Event.plain : Event → Prop
  | .assigned => False
  | .handed _ => False
  | .committed .. => False
  | _ => True

theorem handedSince_plain {e : Event} (he : e.plain) (t : List Event) (key : PartitionKey) :
    handedSince (e :: t) key = handedSince t key := by
  cases e <;> first | exact he.elim | rfl

theorem commitsSafe_plain {e : Event} (he : e.plain) {t : List Event} (h : CommitsSafe env t) :
    CommitsSafe env (e :: t) := by
  cases e <;> first | exact he.elim | exact h

/-- A longer trace with the same handed offsets and safe commits. -/
theorem Safe.extend (h : Safe env since seen m) {e : Event} (ticks : Nat)
    (hsince : ∀ key, handedSince (e :: m.trace) key = since key)
    (hcommits : CommitsSafe env (e :: m.trace)) :
    Safe env since seen { m with ticks := ticks, trace := e :: m.trace } where
  since_eq := hsince
  seen_handed msg hm := List.mem_cons_of_mem _ (h.seen_handed msg hm)
  commits := hcommits
  resolved key o ho := (h.resolved key o ho).cons e
  handed key o ho := (h.handed key o ho).imp_right (Settled.cons e)
  observed := h.observed
  buffered := h.buffered
  pending := h.pending
  frozen := h.frozen
  encoded := h.encoded
  generations := h.generations
  ready flush n hf hn hg := (h.ready flush n hf hn hg).cons e

theorem Safe.ticks (h : Safe env since seen m) (n : Nat) :
    Safe env since seen { m with ticks := n } := by
  cases h
  constructor <;> assumption

section Keeps

theorem keeps_tick : Keeps (Safe env since seen) tick := fun _ h => h.ticks _

theorem keeps_log {e : Event} (he : e.plain) : Keeps (Safe env since seen) (log e) :=
  fun m h => h.extend m.ticks (fun key => (handedSince_plain he _ _).trans (h.since_eq key))
    (commitsSafe_plain he h.commits)

/-- The flush and what goes with it, the buffers and the rejections: the state without its ledgers,
ticks and trace. -/
def Mapper.work (m : Mapper) : Mapper :=
  { m with consumedPrefixes := fun _ => .empty, ticks := 0, trace := [] }

theorem frames_tick : Frames Mapper.work tick := fun _ => rfl

theorem frames_log (e : Event) : Frames Mapper.work (log e) := fun _ => rfl

theorem frames_onPrefix (key : PartitionKey)
    (f : ConsumedPrefix → Except PrefixError ConsumedPrefix) :
    Frames Mapper.work (onPrefix key f) := by
  refine Frames.state_bind fun m => ?_
  split
  · exact Frames.raise _
  · exact fun _ => rfl

theorem frames_resolve (key : PartitionKey) (o : Nat) : Frames Mapper.work (resolve key o) :=
  Frames.bind (frames_onPrefix key _) fun _ => frames_log _

theorem frames_resolveRecords (key : PartitionKey) (rs : List LakeRecord) :
    Frames Mapper.work (resolveRecords key rs) := by
  induction rs with
  | nil => exact Frames.pure _
  | cons r rs ih => exact Frames.bind (frames_resolve key r.offset) fun _ => ih

theorem frames_consumerCommit (env : Env lim) (key : PartitionKey) (n : Nat) :
    Frames Mapper.work (consumerCommit env key n) :=
  Frames.bind frames_tick fun _ => Frames.bind (frames_log _) fun _ => Frames.pure _

theorem frames_storeExact (env : Env lim) (object : FrozenObject) :
    Frames Mapper.work (storeExact env object) := by
  refine Frames.bind frames_tick fun n => Frames.bind (frames_log _) fun _ => ?_
  split
  · exact Frames.bind frames_tick fun _ => Frames.bind (frames_log _) fun _ => Frames.pure _
  · exact Frames.pure _

/-! ## Ledgers -/

theorem Safe.setPrefix (h : Safe env since seen m) {key : PartitionKey} {p : ConsumedPrefix}
    (hres : ∀ o ∈ p.resolved, Settled env m.trace (key, o))
    (hhand : ∀ o ∈ since key, o ∈ p.observed ∨ Settled env m.trace (key, o))
    (hobs : ∀ o ∈ p.observed, o ∈ since key) : Safe env since seen (m.setPrefix key p) where
  since_eq := h.since_eq
  seen_handed := h.seen_handed
  commits := h.commits
  resolved k o ho := by
    by_cases hk : k = key
    · subst hk
      rw [Mapper.setPrefix_self] at ho
      exact hres o ho
    · rw [Mapper.setPrefix_ne _ _ hk] at ho
      exact h.resolved k o ho
  handed k o ho := by
    by_cases hk : k = key
    · subst hk
      rw [Mapper.setPrefix_self]
      exact hhand o ho
    · rw [Mapper.setPrefix_ne _ _ hk]
      exact h.handed k o ho
  observed k o ho := by
    by_cases hk : k = key
    · subst hk
      rw [Mapper.setPrefix_self] at ho
      exact hobs o ho
    · rw [Mapper.setPrefix_ne _ _ hk] at ho
      exact h.observed k o ho
  buffered := h.buffered
  pending := h.pending
  frozen := h.frozen
  encoded := h.encoded
  generations := h.generations
  ready := h.ready

/-- Other settled offsets stay settled while one is resolved. -/
theorem spec_resolve {key : PartitionKey} {o : Nat} (os : List Nat) :
    Spec (fun m => Safe env since seen m ∧ Settled env m.trace (key, o) ∧
        ∀ x ∈ os, Settled env m.trace (key, x))
      (resolve key o)
      (fun _ m => Safe env since seen m ∧ ∀ x ∈ os, Settled env m.trace (key, x))
      (fun _ => Safe env since seen) := by
  intro m ⟨h, ho, hos⟩
  unfold resolve onPrefix
  simp only [Eff.bind_apply, Eff.state]
  cases hp : (m.consumedPrefixes key).resolve o with
  | error e => exact h
  | ok p =>
      obtain ⟨-, hobs, hres⟩ := ConsumedPrefix.resolve_ok hp
      have hset : Safe env since seen (m.setPrefix key p) := by
        refine h.setPrefix ?_ ?_ ?_
        · intro x hx
          rw [hres, Finset.mem_insert] at hx
          rcases hx with rfl | hx
          · exact ho
          · exact h.resolved key x hx
        · intro x hx
          rw [hobs]
          exact h.handed key x hx
        · intro x hx
          rw [hobs] at hx
          exact h.observed key x hx
      exact ⟨keeps_log (e := .resolved (key, o)) trivial _ hset, fun x hx => (hos x hx).cons _⟩

theorem spec_resolveRecords {key : PartitionKey} (rs : List LakeRecord) :
    Spec (fun m => Safe env since seen m ∧ ∀ x ∈ rs.map LakeRecord.offset, Settled env m.trace (key, x))
      (resolveRecords key rs) (fun _ => Safe env since seen) (fun _ => Safe env since seen) := by
  induction rs with
  | nil => exact Spec.pure fun m h => h.1
  | cons r rs ih =>
      refine Spec.bind ((spec_resolve (rs.map LakeRecord.offset)).conseq (fun m h => ⟨h.1, ?_, ?_⟩)
        (fun _ _ h => h) fun _ _ h => h) fun _ => ih
      · exact h.2 _ List.mem_cons_self
      · exact fun x hx => h.2 x (List.mem_cons_of_mem _ hx)

theorem spec_discardCommitted {key : PartitionKey} {n : Nat} :
    Spec (fun m => Safe env since seen m ∧ Ready env since m.trace key n) (discardCommitted key n)
      (fun _ => Safe env since seen) (fun _ => Safe env since seen) := by
  intro m ⟨h, hn⟩
  unfold discardCommitted onPrefix
  simp only [Eff.bind_apply, Eff.state]
  cases hp : (m.consumedPrefixes key).discardCommitted n with
  | error e => exact h
  | ok p =>
      obtain ⟨hobs, hres⟩ := ConsumedPrefix.discardCommitted_ok hp
      refine h.setPrefix (fun o ho => h.resolved key o ((hres o).mp ho).1) (fun o ho => ?_)
        fun o ho => h.observed key o ((hobs o).mp ho).1
      by_cases hlt : o < n
      · exact .inr (hn.2 o ho hlt)
      · exact (h.handed key o ho).imp_left fun hmem => (hobs o).mpr ⟨hmem, not_lt.mp hlt⟩

/-! ## Commits -/

theorem spec_consumerCommit {key : PartitionKey} {n : Nat} :
    Spec (fun m => Safe env since seen m ∧ Ready env since m.trace key n) (consumerCommit env key n)
      (fun _ m => Safe env since seen m ∧ Ready env since m.trace key n)
      (fun _ => Safe env since seen) := by
  intro m ⟨h, hn⟩
  have hsince : ∀ a k, handedSince (.committed key n a :: m.trace) k = since k :=
    fun _ k => h.since_eq k
  exact ⟨h.extend _ (hsince _) ⟨fun o ho hlt => hn.2 o (h.since_eq key ▸ ho) hlt, h.commits⟩,
    hn.cons _⟩

theorem spec_commitPartition {key : PartitionKey} {n : Nat} :
    Spec (fun m => Safe env since seen m ∧ Ready env since m.trace key n) (commitPartition env key n)
      (fun _ => Safe env since seen) (fun _ => Safe env since seen) := by
  refine Spec.state_bind fun m hm => Spec.ite (fun _ => Spec.pure fun s hs => hs ▸ hm.1) fun _ => ?_
  refine Spec.bind (spec_consumerCommit.conseq (fun s hs => hs ▸ hm) (fun _ _ h => h)
    fun _ _ h => h) fun answer => ?_
  cases answer with
  | raised => exact Spec.raise fun s hs => hs.1
  | returned result =>
      refine Spec.ite (fun _ => Spec.pure fun s hs => hs.1) fun _ => ?_
      exact Spec.bind spec_discardCommitted fun _ => Spec.pure fun s hs => hs

theorem keeps_tryCommitReadyPrefix (key : PartitionKey) :
    Keeps (Safe env since seen) (tryCommitReadyPrefix env key) := by
  refine Spec.keeps (Spec.state_bind fun m hm => Spec.ite (fun _ => Spec.pure fun s hs => hs ▸ hm)
    fun _ => ?_)
  cases hn : (m.consumedPrefixes key).nextOffset with
  | none => exact Spec.pure fun s hs => hs ▸ hm
  | some n =>
      refine Spec.ite (fun _ => Spec.pure fun s hs => hs ▸ hm) fun _ => ?_
      exact spec_commitPartition.conseq (fun s hs => hs ▸ ⟨hm, hm.ready_nextOffset hn⟩)
        (fun _ _ h => h) fun _ _ h => h

/-! ## Rejections -/

theorem spec_publishRejection (r : PendingRejection) :
    Spec (Safe env since seen) (publishRejection env r)
      (fun delivered m => Safe env since seen m ∧ (delivered = true → .dlqPublished r true ∈ m.trace))
      (fun _ => Safe env since seen) := by
  refine Spec.bind keeps_tick.spec fun n => ?_
  split
  · intro m h
    refine ⟨keeps_log (e := .dlqPublished r (env.dlqPublish n)) trivial m h, fun hd => ?_⟩
    rw [← hd]
    exact List.mem_cons_self
  · exact Spec.pure fun m h => ⟨h, fun hf => absurd hf Bool.false_ne_true⟩

theorem keeps_advanceRejection {r : PendingRejection} (hr : RejectionOf seen r) :
    Keeps (Safe env since seen) (advanceRejection env r) := by
  refine Spec.keeps (Spec.state_bind fun m hm => Spec.ite (fun _ => Spec.pure fun s hs => hs ▸ hm)
    fun _ => ?_)
  refine Spec.bind ((spec_publishRejection r).conseq (fun s hs => hs ▸ hm) (fun _ _ h => h)
    fun _ _ h => h) fun delivered => ?_
  cases delivered with
  | false => exact Spec.pure fun s hs => hs.1
  | true =>
      refine Spec.bind ((spec_resolve []).conseq (fun s hs => ⟨hs.1, ?_, ?_⟩) (fun _ _ h => h.1)
        fun _ _ h => h) fun _ => ?_
      · obtain ⟨msg, reason, hseen, rfl⟩ := hr
        exact ⟨msg, hs.1.seen_handed msg hseen, rfl, .rejected (hs.2 rfl)⟩
      · exact fun x hx => absurd hx List.not_mem_nil
      · exact Spec.bind (keeps_tryCommitReadyPrefix _).spec fun _ => Spec.pure fun s hs => hs

theorem spec_advanceRejections {rs : List PendingRejection} (hrs : ∀ r ∈ rs, RejectionOf seen r) :
    Spec (Safe env since seen) (advanceRejections env rs)
      (fun remaining m => Safe env since seen m ∧ ∀ r ∈ remaining, RejectionOf seen r)
      (fun _ => Safe env since seen) := by
  induction rs with
  | nil => exact Spec.pure fun m h => ⟨h, fun r hr => absurd hr List.not_mem_nil⟩
  | cons r rs ih =>
      refine Spec.bind (keeps_advanceRejection (hrs r List.mem_cons_self)).spec fun remains => ?_
      refine Spec.bind (ih fun s hs => hrs s (List.mem_cons_of_mem _ hs)) fun remaining => ?_
      refine Spec.pure fun m h => ⟨h.1, ?_⟩
      split
      · exact List.forall_mem_cons.mpr ⟨hrs r List.mem_cons_self, h.2⟩
      · exact h.2

theorem Safe.setPending (h : Safe env since seen m) {rs : List PendingRejection}
    (hrs : ∀ r ∈ rs, RejectionOf seen r) :
    Safe env since seen { m with pendingRejections := rs } := by
  cases h
  constructor <;> assumption

theorem keeps_tryAdvanceRejections : Keeps (Safe env since seen) (tryAdvanceRejections env) := by
  refine Spec.keeps (Spec.state_bind fun m hm => ?_)
  refine Spec.bind ((spec_advanceRejections hm.pending).conseq (fun s hs => hs ▸ hm)
    (fun _ _ h => h) fun _ _ h => h) fun remaining => ?_
  exact Spec.change_bind (fun s hs => hs.1.setPending hs.2) (Spec.pure fun s hs => hs)

/-! ## Freezing -/

theorem RecordOf.eligible {r : LakeRecord} (h : RecordOf env seen r) :
    isArchiveEligible r.envelope = true := by
  obtain ⟨msg, resolved, -, hc, rfl⟩ := h
  exact isArchiveEligible_of_classify hc

theorem Safe.freeze (h : Safe env since seen m) {flush : FrozenPartitionFlush}
    (hf : ∀ g ∈ flush.routeGroups, ∀ r ∈ g.records,
      r.partitionKey = flush.partitionKey ∧ RecordOf env seen r) :
    Safe env since seen (m.freeze flush) where
  since_eq := h.since_eq
  seen_handed := h.seen_handed
  commits := h.commits
  resolved := h.resolved
  handed := h.handed
  observed := h.observed
  buffered := h.buffered
  pending := h.pending
  frozen flush' hflush := by
    cases hflush
    exact hf
  encoded _ object _ ho := by cases ho
  generations := le_refl _
  ready _ n _ hn := by cases hn

theorem Safe.thaw (h : Safe env since seen m) : Safe env since seen m.thaw where
  since_eq := h.since_eq
  seen_handed := h.seen_handed
  commits := h.commits
  resolved := h.resolved
  handed := h.handed
  observed := h.observed
  buffered := h.buffered
  pending := h.pending
  frozen _ hf := by cases hf
  encoded _ _ hf := by cases hf
  generations := h.generations
  ready _ _ hf := by cases hf

theorem Safe.setPendingCommit (h : Safe env since seen m) {next : Option Nat}
    (hn : ∀ flush n, m.frozenFlush = some flush → next = some n →
      Ready env since m.trace flush.partitionKey n) :
    Safe env since seen { m with pendingCommitOffset := next } where
  since_eq := h.since_eq
  seen_handed := h.seen_handed
  commits := h.commits
  resolved := h.resolved
  handed := h.handed
  observed := h.observed
  buffered := h.buffered
  pending := h.pending
  frozen := h.frozen
  encoded := h.encoded
  generations := h.generations
  ready flush n hf hnext _ := hn flush n hf hnext

theorem keeps_setPaused (paused : Bool) : Keeps (Safe env since seen) (setPaused paused) := by
  refine Keeps.change fun m h => ?_
  cases h
  constructor <;> assumption

theorem setPaused_frozenFlush (paused : Bool) :
    Frames Mapper.frozenFlush (setPaused paused) := fun _ => rfl

theorem keeps_freezePartition {key : PartitionKey} {records : List LakeRecord}
    (hr : ∀ r ∈ records, r.partitionKey = key ∧ RecordOf env seen r) :
    Keeps (Safe env since seen) (freezePartition env key records) := by
  have hnone : (records.filter fun r => !isArchiveEligible r.envelope) = [] := by
    refine List.filter_eq_nil_iff.mpr fun r hmem => ?_
    rw [(hr r hmem).2.eligible]
    exact Bool.false_ne_true
  unfold freezePartition
  rw [hnone]
  refine Spec.keeps (Spec.bind (Keeps.pure ()).spec fun _ => Spec.bind keeps_tick.spec fun n => ?_)
  have hgroups : ∀ g ∈ (freezePartitionRecords key
      (records.filter fun r => isArchiveEligible r.envelope) (env.newFlushId n)
      (env.newObjectId n)).routeGroups, ∀ r ∈ g.records, r.partitionKey = key ∧ RecordOf env seen r :=
    fun g hg r hmem => hr r (List.mem_filter.mp (mem_freezePartitionRecords hg hmem)).1
  have hkey : (freezePartitionRecords key (records.filter fun r => isArchiveEligible r.envelope)
    (env.newFlushId n) (env.newObjectId n)).partitionKey = key := rfl
  generalize freezePartitionRecords key _ (env.newFlushId n) (env.newObjectId n) = flush
    at hgroups hkey ⊢
  have hpause := (@keeps_setPaused lim env since seen true).spec.frame
    (setPaused_frozenFlush true) (some flush)
  dsimp only
  refine Spec.change_bind (S := fun m => Safe env since seen m ∧ m.frozenFlush = some flush)
    (fun m h => ⟨h.freeze (hkey ▸ hgroups), rfl⟩) ?_
  refine Spec.change_bind (S := fun m => Safe env since seen m ∧ m.frozenFlush = some flush)
    (fun m h => ⟨keeps_log (e := .froze key) trivial m h.1, h.2⟩) ?_
  refine Spec.bind (hpause.conseq (fun _ h => h) (fun _ _ h => h) fun _ _ h => h.1) fun _ => ?_
  refine Spec.state_bind fun m hm => Spec.ite (fun _ => Spec.change fun s hs => ?_) fun _ =>
    Spec.pure fun s hs => hs ▸ hm.1
  subst hs
  refine hm.1.setPendingCommit fun flush' next hflush hnext => ?_
  rw [hm.2, Option.some.injEq] at hflush
  rw [← hflush, hkey]
  exact hm.1.ready_nextOffset hnext

theorem Safe.setBatch (h : Safe env since seen m) {batch : BatchManager}
    (hb : ∀ e ∈ batch.buffers.entries, ∀ r ∈ e.2.records, RecordOf env seen r) :
    Safe env since seen { m with batch := batch } := by
  cases h
  constructor <;> assumption

theorem keeps_flushPartition (key : PartitionKey) :
    Keeps (Safe env since seen) (flushPartition env key) := by
  refine Spec.keeps (Spec.state_bind fun m hm => ?_)
  have hrest : Safe env since seen { m with batch := (m.batch.popPartition key).2 } :=
    hm.setBatch fun e he => hm.buffered e (Dict.mem_entries_erase he)
  have hpopped : ∀ r ∈ (m.batch.popPartition key).1.records, r.partitionKey = key ∧
      RecordOf env seen r := by
    intro r hr
    refine ⟨BatchManager.mem_buffer hr, ?_⟩
    cases hb : m.batch.buffers.get? key with
    | none =>
        rw [BatchManager.popPartition, BatchManager.buffer, hb] at hr
        cases hr
    | some buffer =>
        rw [BatchManager.popPartition, BatchManager.buffer, hb] at hr
        exact hm.buffered _ (Dict.mem_of_get? hb) r hr
  refine Spec.change_bind (S := Safe env since seen) (fun s hs => hs ▸ hrest) <| Spec.ite (fun _ => Spec.pure fun s hs => hs) fun _ => ?_
  exact Spec.bind (keeps_freezePartition hpopped).spec fun _ => Spec.pure fun s hs => hs

theorem keeps_flushChosen : Keeps (Safe env since seen) (flushChosen env) := by
  refine Spec.keeps (Spec.bind keeps_tick.spec fun n => Spec.state_bind fun m hm => ?_)
  split
  · exact Spec.pure fun s hs => hs ▸ hm
  · refine Spec.bind ((keeps_flushPartition _).spec.conseq (fun s hs => hs ▸ hm) (fun _ _ h => h)
      fun _ _ h => h) fun _ => Spec.pure fun s hs => hs

theorem keeps_flushReadyPartitions (force : Option PartitionKey) :
    Keeps (Safe env since seen) (flushReadyPartitions env force) := by
  cases force with
  | none => exact keeps_flushChosen
  | some key =>
      refine Spec.keeps (Spec.bind (keeps_flushPartition key).spec fun flushed => ?_)
      exact Spec.ite (fun _ => Spec.pure fun s hs => hs) fun _ => keeps_flushChosen.spec

/-! ## The frozen flush -/

theorem spec_completeCommit {key : PartitionKey} {n : Nat} :
    Spec (fun m => Safe env since seen m ∧
        (m.frozenGeneration = m.generation → Ready env since m.trace key n))
      (completeCommit env key n) (fun _ => Safe env since seen) (fun _ => Safe env since seen) := by
  refine Spec.state_bind fun m hm => Spec.ite (fun _ => Spec.raise fun s hs => hs ▸ hm.1) fun _ =>
    Spec.ite (fun _ => Spec.raise fun s hs => hs ▸ hm.1) fun hgen => ?_
  refine Spec.bind (spec_consumerCommit.conseq
    (fun s hs => hs ▸ ⟨hm.1, hm.2 (not_not.mp hgen)⟩) (fun _ _ h => h) fun _ _ h => h) fun answer => ?_
  cases answer with
  | raised => exact Spec.raise fun s hs => hs.1
  | returned result =>
      refine Spec.ite (fun _ => ?_) fun _ => ?_
      · refine Spec.change_bind (S := Safe env since seen) (fun s hs => ?_) (Spec.pure fun s hs => hs)
        cases hs.1
        constructor <;> assumption
      · refine Spec.bind spec_discardCommitted fun _ => ?_
        refine Spec.change_bind (fun s hs => hs.thaw) ?_
        refine Spec.bind (keeps_log (e := .thawed key) trivial).spec fun _ => ?_
        exact Spec.bind (keeps_setPaused false).spec fun _ => keeps_tryAdvanceRejections.spec

theorem spec_commitResolved {flush : FrozenPartitionFlush} :
    Spec (fun m => Safe env since seen m ∧ m.frozenFlush = some flush)
      (commitResolved env flush.partitionKey) (fun _ => Safe env since seen)
      (fun _ => Safe env since seen) := by
  refine Spec.state_bind fun m hm => ?_
  cases hn : (m.consumedPrefixes flush.partitionKey).nextOffset with
  | none => exact Spec.pure fun s hs => hs ▸ hm.1
  | some n =>
      have hready := hm.1.ready_nextOffset hn
      refine Spec.change_bind (fun s hs => ?_) spec_completeCommit
      subst hs
      refine ⟨hm.1.setPendingCommit fun flush' next hflush hnext => ?_, fun _ => hready⟩
      rw [hm.2, Option.some.injEq] at hflush
      cases hnext
      exact hflush ▸ hready

theorem Safe.nextGroup (h : Safe env since seen m) :
    Safe env since seen m.nextGroup where
  since_eq := h.since_eq
  seen_handed := h.seen_handed
  commits := h.commits
  resolved := h.resolved
  handed := h.handed
  observed := h.observed
  buffered := h.buffered
  pending := h.pending
  frozen := h.frozen
  encoded _ _ _ ho := by cases ho
  generations := h.generations
  ready := h.ready

/-- The state with the flush and the group it is at. -/
def AtGroup (flush : FrozenPartitionFlush) (group : FrozenRouteGroup) (m : Mapper) : Prop :=
  m.frozenFlush = some flush ∧ flush.routeGroups[m.groupIndex]? = some group

theorem Safe.setObject (h : Safe env since seen m) {flush : FrozenPartitionFlush}
    {group : FrozenRouteGroup} (hat : AtGroup flush group m) {object : FrozenObject}
    (ho : env.recordsToParquet group.records flush.flushId = some object.data) :
    Safe env since seen { m with frozenObject := some object } where
  since_eq := h.since_eq
  seen_handed := h.seen_handed
  commits := h.commits
  resolved := h.resolved
  handed := h.handed
  observed := h.observed
  buffered := h.buffered
  pending := h.pending
  frozen := h.frozen
  encoded flush' object' hf hobj := by
    rw [hat.1, Option.some.injEq] at hf
    cases hf
    cases hobj
    exact ⟨group, hat.2, ho⟩
  generations := h.generations
  ready := h.ready

theorem spec_encodeGroup {flush : FrozenPartitionFlush} {group : FrozenRouteGroup} :
    Spec (fun m => Safe env since seen m ∧ AtGroup flush group m) (encodeGroup env flush group)
      (fun object m => (Safe env since seen m ∧ m.frozenFlush = some flush) ∧
        env.recordsToParquet group.records flush.flushId = some object.data)
      (fun _ => Safe env since seen) := by
  refine Spec.state_bind fun m hm => ?_
  cases hobj : m.frozenObject with
  | some object =>
      refine Spec.pure fun s hs => hs ▸ ⟨⟨hm.1, hm.2.1⟩, ?_⟩
      obtain ⟨g, hg, hparquet⟩ := hm.1.encoded flush object hm.2.1 hobj
      rw [hm.2.2, Option.some.injEq] at hg
      exact hg ▸ hparquet
  | none =>
      dsimp only
      split
      · exact Spec.raise fun s hs => hs ▸ hm.1
      · rename_i data hdata
        refine Spec.change_bind (S := fun m => Safe env since seen m ∧ m.frozenFlush = some flush)
          (fun s hs => ?_) (Spec.pure fun s hs => ⟨hs, hdata⟩)
        subst hs
        exact ⟨hm.1.setObject hm.2 hdata, hm.2.1⟩

theorem spec_storeExact (object : FrozenObject) :
    Spec (Safe env since seen) (storeExact env object)
      (fun answer m => Safe env since seen m ∧ (answer = .accepted →
        .published object .accepted ∈ m.trace ∧ .verified object .accepted ∈ m.trace))
      (fun _ => Safe env since seen) := by
  refine Spec.bind keeps_tick.spec fun n => ?_
  refine Spec.bind (R := _) (Q := fun _ m => Safe env since seen m ∧
    .published object (env.publishExact n) ∈ m.trace) ?_ fun _ => ?_
  · exact fun m h => ⟨keeps_log (e := .published object (env.publishExact n)) trivial m h,
      List.mem_cons_self⟩
  · split
    · rename_i hp
      intro m h
      have hverified := keeps_log (e := .verified object (env.verifyExact m.ticks)) trivial _
        (keeps_tick m h.1)
      refine ⟨hverified, fun ha => ⟨List.mem_cons_of_mem _ (hp ▸ h.2), ?_⟩⟩
      exact ha ▸ List.mem_cons_self
    · rename_i hp
      exact Spec.pure fun m h => ⟨h.1, fun ha => absurd ha hp⟩

theorem spec_publishGroup {flush : FrozenPartitionFlush} {group : FrozenRouteGroup}
    (hg : group ∈ flush.routeGroups) :
    Spec (fun m => Safe env since seen m ∧ AtGroup flush group m) (publishGroup env flush group)
      (fun _ => Safe env since seen) (fun _ => Safe env since seen) := by
  refine Spec.bind spec_encodeGroup fun object => ?_
  have hstore := (@spec_storeExact lim env since seen object).frame
    ((frames_storeExact env object).comp Mapper.frozenFlush) (some flush)
  refine Spec.bind (Q := fun answer m => Safe env since seen m ∧ m.frozenFlush = some flush ∧
    (answer = .accepted → ∀ o ∈ group.records.map LakeRecord.offset,
      Settled env m.trace (flush.partitionKey, o))) ?_ fun answer => ?_
  · refine Spec.of_point fun m hm => hstore.conseq (fun s hs => hs ▸ hm.1) (fun answer t ht => ?_)
      fun _ _ h => h.1
    refine ⟨ht.1.1, ht.2, fun ha o ho => ?_⟩
    obtain ⟨r, hr, rfl⟩ := List.mem_map.mp ho
    obtain ⟨hkey, msg, resolved, hseen, hc, rfl⟩ := ht.1.1.frozen flush ht.2 group hg r hr
    obtain ⟨hpublished, hverified⟩ := ht.1.2 ha
    exact ⟨msg, ht.1.1.seen_handed msg hseen, Prod.ext hkey rfl,
      .archived hpublished hverified hm.2 hc hr⟩
  · cases answer with
    | integrityError => exact Spec.pure fun m h => h.1
    | failed =>
        refine Spec.change_bind (S := Safe env since seen) (fun m h => ?_)
          (Spec.state_bind fun m hm => Spec.pure fun s hs => hs ▸ hm)
        cases h.1
        constructor <;> assumption
    | accepted =>
        have hresolve := (@spec_resolveRecords lim env since seen flush.partitionKey group.records).frame
          ((frames_resolveRecords flush.partitionKey group.records).comp Mapper.frozenFlush)
          (some flush)
        refine Spec.bind (hresolve.conseq (fun m h => ⟨⟨h.1, h.2.2 rfl⟩, h.2.1⟩) (fun _ _ h => h)
          fun _ _ h => h.1) fun _ => ?_
        refine Spec.change_bind (S := fun m => Safe env since seen m ∧ m.frozenFlush = some flush)
          (fun m h => ⟨h.1.nextGroup, h.2⟩) (Spec.state_bind fun m hm => ?_)
        exact Spec.ite (fun _ => spec_commitResolved.conseq (fun s hs => hs ▸ hm) (fun _ _ h => h)
          fun _ _ h => h) fun _ => Spec.pure fun s hs => hs ▸ hm.1

theorem spec_advanceFrozenFlush {flush : FrozenPartitionFlush} :
    Spec (fun m => Safe env since seen m ∧ m.frozenFlush = some flush) (advanceFrozenFlush env flush)
      (fun _ => Safe env since seen) (fun _ => Safe env since seen) := by
  refine Spec.state_bind fun m hm => Spec.ite (fun _ => Spec.raise fun s hs => hs ▸ hm.1) fun _ => ?_
  cases hn : m.pendingCommitOffset with
  | some n =>
      exact spec_completeCommit.conseq (fun s hs => hs ▸ ⟨hm.1, hm.1.ready flush n hm.2 hn⟩)
        (fun _ _ h => h) fun _ _ h => h
  | none =>
      dsimp only
      split
      · exact spec_commitResolved.conseq (fun s hs => hs ▸ hm) (fun _ _ h => h) fun _ _ h => h
      · rename_i group hgroup
        exact (spec_publishGroup (List.mem_of_getElem? hgroup)).conseq
          (fun s hs => hs ▸ ⟨hm.1, hm.2, hgroup⟩) (fun _ _ h => h) fun _ _ h => h

/-! ## Messages -/

theorem keeps_rejectMessage {msg : Message} (hmsg : seen msg) (reason : Str) :
    Keeps (Safe env since seen) (rejectMessage env msg reason) := by
  refine Spec.keeps (Spec.change_bind (fun m h => h.setPending fun r hr => ?_)
    keeps_tryAdvanceRejections.spec)
  rcases List.mem_append.mp hr with hr | hr
  · exact h.pending r hr
  · exact ⟨msg, reason, hmsg, List.mem_singleton.mp hr⟩

theorem keeps_tryAdd {r : LakeRecord} (hr : RecordOf env seen r) :
    Keeps (Safe env since seen) (tryAdd env r) := by
  refine Spec.keeps (Spec.bind keeps_tick.spec fun n => Spec.state_bind fun m hm => ?_)
  split
  · exact Spec.pure fun s hs => hs ▸ hm
  · exact Spec.pure fun s hs => hs ▸ hm
  · rename_i batch hadd
    refine Spec.change_bind (S := Safe env since seen) (fun s hs => hs ▸ hm.setBatch ?_)
      (Spec.bind (keeps_log (e := .buffered r) trivial).spec fun _ => Spec.pure fun s hs => hs)
    rw [BatchManager.tryAdd_true hadd]
    intro e he s hs
    rcases Dict.mem_entries_update he with he | rfl
    · exact hm.buffered e he s hs
    · rcases List.mem_append.mp hs with hs | hs
      · cases hb : m.batch.buffers.get? r.partitionKey with
        | none =>
            rw [hb] at hs
            cases hs
        | some buffer =>
            rw [hb] at hs
            exact hm.buffered _ (Dict.mem_of_get? hb) s hs
      · rw [List.mem_singleton.mp hs]
        exact hr

theorem keeps_afterBuffered : Keeps (Safe env since seen) (afterBuffered env) :=
  Keeps.bind (keeps_flushReadyPartitions none) fun _ => keeps_tryAdvanceRejections

theorem keeps_admitRecord {msg : Message} (hmsg : seen msg) {r : LakeRecord}
    (hr : RecordOf env seen r) : Keeps (Safe env since seen) (admitRecord env msg r) := by
  refine Keeps.bind (keeps_tryAdd hr) fun admitted => ?_
  match admitted with
  | none => exact keeps_rejectMessage hmsg _
  | some true => exact keeps_afterBuffered
  | some false =>
      refine Keeps.bind (keeps_flushReadyPartitions _) fun _ => Keeps.bind (keeps_tryAdd hr) ?_
      intro admitted
      match admitted with
      | none => exact Keeps.raise _
      | some true => exact keeps_afterBuffered
      | some false => exact Keeps.pure _

end Keeps

/-- A message handed over: the ledger observes it. -/
theorem Safe.observe (h : Safe env since seen m) {msg : Message} (hinc : Increasing m msg) :
    ∃ p, (m.consumedPrefixes msg.partitionKey).observe msg.offset = .ok p ∧
      Safe env (Function.update since msg.partitionKey (msg.offset :: since msg.partitionKey))
        (fun x => seen x ∨ x = msg)
        (m.handed msg p) := by
  have hbelow : ∀ o ∈ since msg.partitionKey, o < msg.offset :=
    fun o ho => hinc o (h.since_eq _ ▸ ho)
  obtain ⟨p, hp⟩ := ConsumedPrefix.observe_of_lt fun o ho => hbelow o (h.observed _ o ho)
  obtain ⟨hobs, hres⟩ := ConsumedPrefix.observe_ok hp
  have hcases : ∀ (key : PartitionKey) (o : Nat),
      o ∈ Function.update since msg.partitionKey (msg.offset :: since msg.partitionKey) key →
        (key = msg.partitionKey ∧ o = msg.offset) ∨ o ∈ since key := by
    intro key o ho
    by_cases hk : key = msg.partitionKey
    · subst hk
      rw [Function.update_self] at ho
      exact (List.mem_cons.mp ho).imp_left fun he => ⟨rfl, he⟩
    · rw [Function.update_of_ne hk] at ho
      exact .inr ho
  have hold : ∀ (key : PartitionKey) (o : Nat), o ∈ since key →
      o ∈ Function.update since msg.partitionKey (msg.offset :: since msg.partitionKey) key := by
    intro key o ho
    by_cases hk : key = msg.partitionKey
    · subst hk
      rw [Function.update_self]
      exact List.mem_cons_of_mem _ ho
    · rw [Function.update_of_ne hk]
      exact ho
  have hrecord : ∀ r, RecordOf env seen r → RecordOf env (fun x => seen x ∨ x = msg) r :=
    fun r ⟨x, resolved, hx, hc, hr⟩ => ⟨x, resolved, .inl hx, hc, hr⟩
  refine ⟨p, hp, ?_⟩
  exact {
    since_eq := fun key => by
      by_cases hk : msg.partitionKey = key
      · subst hk
        rw [Function.update_self, ← h.since_eq]
        exact if_pos rfl
      · rw [Function.update_of_ne fun he => hk he.symm, ← h.since_eq]
        exact if_neg hk
    seen_handed := fun x hx => by
      rcases hx with hx | rfl
      · exact List.mem_cons_of_mem _ (h.seen_handed x hx)
      · exact List.mem_cons_self
    commits := h.commits
    resolved := fun key o ho => by
      by_cases hk : key = msg.partitionKey
      · subst hk
        rw [Mapper.handed, Mapper.setPrefix_self, hres] at ho
        exact (h.resolved _ o ho).cons _
      · rw [Mapper.handed, Mapper.setPrefix_ne _ _ hk] at ho
        exact (h.resolved _ o ho).cons _
    handed := fun key o ho => by
      rcases hcases key o ho with ⟨rfl, rfl⟩ | ho
      · rw [Mapper.handed, Mapper.setPrefix_self, hobs]
        exact .inl (by simp)
      · by_cases hk : key = msg.partitionKey
        · subst hk
          rw [Mapper.handed, Mapper.setPrefix_self, hobs]
          exact (h.handed _ o ho).imp (fun hmem => List.mem_append_left _ hmem) (Settled.cons _)
        · rw [Mapper.handed, Mapper.setPrefix_ne _ _ hk]
          exact (h.handed _ o ho).imp_right (Settled.cons _)
    observed := fun key o ho => by
      by_cases hk : key = msg.partitionKey
      · subst hk
        rw [Mapper.handed, Mapper.setPrefix_self, hobs] at ho
        rcases List.mem_append.mp ho with ho | ho
        · exact hold _ o (h.observed _ o ho)
        · rw [List.mem_singleton.mp ho, Function.update_self]
          exact List.mem_cons_self
      · rw [Mapper.handed, Mapper.setPrefix_ne _ _ hk] at ho
        exact hold _ o (h.observed _ o ho)
    buffered := fun e he r hr => hrecord r (h.buffered e he r hr)
    pending := fun r hr => by
      obtain ⟨x, reason, hx, he⟩ := h.pending r hr
      exact ⟨x, reason, .inl hx, he⟩
    frozen := fun flush hf g hg r hr => (h.frozen flush hf g hg r hr).imp_right (hrecord r)
    encoded := h.encoded
    generations := h.generations
    ready := fun flush n hf hn hg => by
      obtain ⟨⟨w, hw, hle⟩, hready⟩ := h.ready flush n hf hn hg
      refine ⟨⟨w, hold _ w hw, hle⟩, fun o ho hlt => ?_⟩
      rcases hcases _ o ho with ⟨hk, rfl⟩ | ho
      · have := hbelow w (hk ▸ hw)
        omega
      · exact (hready o ho hlt).cons _ }

/-! ## Every input -/

theorem keeps_handlePayload {msg : Message} (hmsg : seen msg) :
    Keeps (Safe env since seen) (handlePayload env msg) := by
  unfold handlePayload
  cases hc : classify env msg.payload with
  | rejected reason => exact keeps_rejectMessage hmsg reason
  | escapes e => exact Keeps.raise _
  | ineligible =>
      have hsettled : ∀ m, Safe env since seen m →
          Settled env m.trace (msg.partitionKey, msg.offset) :=
        fun m h => ⟨msg, h.seen_handed msg hmsg, rfl, .ineligible hc⟩
      refine Spec.keeps (Spec.bind ((spec_resolve []).conseq (fun m h => ⟨h, hsettled m h, ?_⟩)
        (fun _ _ h => h.1) fun _ _ h => h) fun _ => (keeps_tryCommitReadyPrefix _).spec)
      exact fun x hx => absurd hx List.not_mem_nil
  | eligible resolved => exact keeps_admitRecord hmsg ⟨msg, resolved, hmsg, hc, rfl⟩

theorem keeps_untilPoll : Keeps (Safe env since seen) (untilPoll env) := by
  refine Spec.keeps (Spec.state_bind fun m hm => ?_)
  cases hf : m.frozenFlush with
  | some flush =>
      exact Spec.bind (spec_advanceFrozenFlush.conseq (fun s hs => hs ▸ ⟨hm, hf⟩) (fun _ _ h => h)
        fun _ _ h => h) fun _ => Spec.pure fun s hs => hs
  | none =>
      refine Spec.bind ((keeps_flushReadyPartitions none).spec.conseq (fun s hs => hs ▸ hm)
        (fun _ _ h => h) fun _ _ h => h) fun _ => Spec.bind keeps_tryAdvanceRejections.spec fun _ => ?_
      exact Spec.ite (fun _ => Spec.pure fun s hs => hs) fun _ =>
        Spec.state_bind fun s hs => Spec.pure fun t ht => ht ▸ hs

/-- Some offsets and messages make the state safe. -/
def IsSafe (env : Env lim) (m : Mapper) : Prop := ∃ since seen, Safe env since seen m

theorem Safe.increasing (h : Safe env since seen m) {m' : Mapper} (h' : Safe env since seen m')
    {msg : Message} (hinc : Increasing m msg) : Increasing m' msg := by
  intro o ho
  rw [h'.since_eq, ← h.since_eq] at ho
  exact hinc o ho

theorem isSafe_handleMessage (h : IsSafe env m) {msg : Message} (hinc : Increasing m msg) :
    IsSafe env (handleMessage env msg m).2 := by
  obtain ⟨since, seen, h⟩ := h
  obtain ⟨p, hp, hsafe⟩ := h.observe hinc
  rw [handleMessage_of_observe env hp]
  exact ⟨_, _, keeps_handlePayload (.inr rfl) _ hsafe⟩

theorem isSafe_runOnce (h : IsSafe env m) {poll : Poll}
    (hinc : ∀ msg, poll = .message msg → Increasing m msg) : IsSafe env (runOnce env poll m).2 := by
  obtain ⟨since, seen, h⟩ := h
  have h' := keeps_untilPoll m h
  rw [runOnce, Eff.bind_apply]
  rcases hx : untilPoll env m with ⟨_ | result, t⟩
  · rw [hx] at h'
    exact ⟨since, seen, h'⟩
  · rw [hx] at h'
    cases result with
    | some result => exact ⟨since, seen, h'⟩
    | none =>
        cases poll with
        | message msg => exact isSafe_handleMessage ⟨since, seen, h'⟩ (h.increasing h' (hinc msg rfl))
        | none => exact ⟨since, seen, h'⟩
        | partitionEof => exact ⟨since, seen, h'⟩
        | offsetOutOfRange => exact ⟨since, seen, h'⟩
        | error => exact ⟨since, seen, h'⟩

theorem isSafe_onAssign (h : IsSafe env m) (partitions : Finset PartitionKey) :
    IsSafe env (onAssign partitions m) := by
  obtain ⟨since, seen, h⟩ := h
  refine ⟨fun _ => [], seen, ?_⟩
  exact {
    since_eq := fun _ => rfl
    seen_handed := fun msg hmsg => List.mem_cons_of_mem _ (h.seen_handed msg hmsg)
    commits := h.commits
    resolved := fun _ o ho => absurd ho (Finset.notMem_empty o)
    handed := fun _ o ho => absurd ho List.not_mem_nil
    observed := fun _ o ho => absurd ho List.not_mem_nil
    buffered := h.buffered
    pending := h.pending
    frozen := h.frozen
    encoded := h.encoded
    generations := Nat.le_succ_of_le h.generations
    -- a flush frozen before this assignment cannot commit any more
    ready := fun _ _ _ _ hg => absurd hg (Nat.ne_of_lt (Nat.lt_succ_of_le h.generations)) }

theorem keeps_onRevoke (partitions : Finset PartitionKey) :
    Keeps (Safe env since seen) (onRevoke partitions) := by
  refine Spec.keeps (Spec.change_bind (S := Safe env since seen) (fun m h => ?_) ?_)
  · cases h
    constructor <;> assumption
  · refine Spec.change_bind (fun m h => h.thaw) ?_
    refine Spec.bind (keeps_setPaused false).spec fun _ => Spec.state_bind fun m hm => ?_
    exact Spec.ite (fun _ => Spec.raise fun s hs => hs ▸ hm) fun _ => Spec.pure fun s hs => hs ▸ hm

theorem isSafe_start : IsSafe env (Mapper.start env) := by
  refine ⟨fun _ => [], fun _ => False, ?_⟩
  exact {
    since_eq := fun _ => rfl
    seen_handed := fun _ h => h.elim
    commits := trivial
    resolved := fun _ o ho => absurd ho (Finset.notMem_empty o)
    handed := fun _ o ho => absurd ho List.not_mem_nil
    observed := fun _ o ho => absurd ho List.not_mem_nil
    buffered := fun _ he => absurd he List.not_mem_nil
    pending := fun _ hr => absurd hr List.not_mem_nil
    frozen := fun _ hf => by cases hf
    encoded := fun _ _ hf => by cases hf
    generations := le_refl _
    ready := fun _ _ hf => by cases hf }

theorem isSafe_apply (h : IsSafe env m) {i : Input}
    (hinc : ∀ msg, i.message? = some msg → Increasing m msg) : IsSafe env (i.apply env m) := by
  cases i with
  | assign partitions => exact isSafe_onAssign h partitions
  | revoke partitions =>
      obtain ⟨since, seen, h⟩ := h
      exact ⟨since, seen, keeps_onRevoke partitions m h⟩
  | handle msg => exact isSafe_handleMessage h (hinc msg rfl)
  | run poll => exact isSafe_runOnce h fun msg hp => hinc msg (hp ▸ rfl)
  | retry =>
      obtain ⟨since, seen, h⟩ := h
      exact ⟨since, seen, keeps_tryAdvanceRejections m h⟩

theorem isSafe_of_reachable (h : (mapperSystem env).Reachable m) : IsSafe env m :=
  System.invariant (fun _ hm => hm ▸ isSafe_start) (fun _ _ _ _ hs hstep => by
    obtain ⟨hinc, rfl⟩ := hstep
    exact isSafe_apply hs hinc) h

theorem CommitsSafe.of_append {later earlier : List Event} {key : PartitionKey} {n : Nat}
    {answer : CommitAnswer} (h : CommitsSafe env (later ++ .committed key n answer :: earlier)) :
    ∀ o ∈ handedSince earlier key, o < n → Settled env earlier (key, o) := by
  induction later with
  | nil => exact h.1
  | cons e later ih =>
      cases e <;> first | exact ih h.2 | exact ih h

/-- In every run, whatever the environment answers, each commit covers settled offsets only. -/
theorem commit_covers_settled (env : Env lim) {m : Mapper} (hm : (mapperSystem env).Reachable m)
    {later earlier : List Event} {key : PartitionKey} {n : Nat} {answer : CommitAnswer}
    (ht : m.trace = later ++ .committed key n answer :: earlier) :
    ∀ o ∈ handedSince earlier key, o < n → Settled env earlier (key, o) := by
  obtain ⟨since, seen, h⟩ := isSafe_of_reachable hm
  exact CommitsSafe.of_append (ht ▸ h.commits)

/-! ## A run -/

theorem minute_pos : (0 : ℚ) < 60 := by norm_num

/-- The default limits. -/
def defaultLimits : FlushLimits :=
  ⟨60, 8388608, 10000, 1048576, 33554432, 64, minute_pos, by decide, by decide, by decide, by decide,
    by decide, by decide⟩

/-- Every call succeeds, and the clocks stand still. -/
def steadyEnv (limits : FlushLimits) : Env cpython where
  limits := limits
  legacyMap := none
  uploadMaxAttempts := 3
  recordsToParquet := fun rs _ => some (rs.flatMap LakeRecord.envelopeBytes)
  monotonic := fun _ _ => 0
  now := fun _ => newYear2026
  newFlushId := fun _ => lit "flush"
  newObjectId := fun _ i => decimal i
  publishExact := fun _ => .accepted
  verifyExact := fun _ => .accepted
  dlqPublish := fun _ => true
  commit := fun _ => .returned none

def historicPartition : PartitionKey := (lit "uns.historic-events", 0)

/-- A tombstone, which does not decode. -/
def tombstone (offset : Nat) : Message := ⟨historicPartition.1, historicPartition.2, offset, none⟩

/-- The partition is assigned and a tombstone arrives. -/
def tombstoneRun : Mapper :=
  (Input.handle (tombstone 0)).apply (steadyEnv defaultLimits)
    ((Input.assign {historicPartition}).apply (steadyEnv defaultLimits)
      (Mapper.start (steadyEnv defaultLimits)))

theorem reachable_tombstoneRun : (mapperSystem (steadyEnv defaultLimits)).Reachable tombstoneRun := by
  refine .step (.step (.init rfl) ⟨(fun _ h => by cases h), rfl⟩)
    ⟨fun msg hmsg => ?_, rfl⟩
  cases hmsg
  exact fun o ho => absurd ho List.not_mem_nil

/-- What the newest event committed, and the answer. -/
def newestCommit : List Event → Option (PartitionKey × Nat × CommitAnswer)
  | .committed key n answer :: _ => some (key, n, answer)
  | _ => none

theorem eq_cons_of_newestCommit {trace : List Event} {key : PartitionKey} {n : Nat}
    {answer : CommitAnswer} (h : newestCommit trace = some (key, n, answer)) :
    trace = .committed key n answer :: trace.tail := by
  unfold newestCommit at h
  split at h
  · cases h
    rfl
  · cases h

theorem trace_tombstoneRun :
    tombstoneRun.trace = .committed historicPartition 1 (.returned none) :: tombstoneRun.trace.tail :=
  eq_cons_of_newestCommit (by decide +kernel)

/-- The commit of offset 1 finds the tombstone settled. -/
theorem commit_covers_tombstone :
    Settled (steadyEnv defaultLimits) tombstoneRun.trace.tail (tombstone 0).coord :=
  @commit_covers_settled _ (steadyEnv defaultLimits) _ reachable_tombstoneRun [] _ _ _ _
    trace_tombstoneRun 0 (by decide +kernel) Nat.one_pos

end Uns
