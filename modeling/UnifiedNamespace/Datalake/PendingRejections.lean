/-
# `Datalake.PendingRejections` — rejections that cannot be resolved

A rejection leaves the pending list when it is published, resolved and the commit
of its prefix succeeds.  When that commit is refused it stays, published and
resolved: it is published again at the next turn, and once a later commit of the
partition discards its offset, resolving it raises `unknown offset`.

In the runs where no commit is refused directly after a rejection was published,
every pending rejection is observed, none is published twice in an assignment, and
no turn raises `unknown offset` (`rejections_resolvable`).
-/
import UnifiedNamespace.Datalake.CustodyRuns

namespace Uns

open Py Lib

variable {lim : Limits} {env : Env lim} {m : Mapper}

/-- Every commit of the turn that directly follows a published rejection succeeds. -/
def CommitsHonoured (env : Env lim) (m : Mapper) : Turn → Prop
  | .run poll => Honoured (runOnce env poll m).2.trace
  | .rebalance _ _ => True

instance decidableHonoured : (t : List Event) → Decidable (Honoured t)
  | [] => isTrue trivial
  | .committed _ _ answer :: t =>
      have := decidableHonoured t
      inferInstanceAs (Decidable ((afterRejection t = true → answer.succeeded = true) ∧ Honoured t))
  | .assigned :: t => decidableHonoured t
  | .handed _ :: t => decidableHonoured t
  | .buffered _ :: t => decidableHonoured t
  | .resolved _ :: t => decidableHonoured t
  | .published _ _ :: t => decidableHonoured t
  | .verified _ _ :: t => decidableHonoured t
  | .dlqPublished _ _ :: t => decidableHonoured t
  | .froze _ :: t => decidableHonoured t
  | .thawed _ :: t => decidableHonoured t

/-- Pending rejections are observed, and no delivered one was published again. -/
def RejectionsResolvable (m : Mapper) : Prop :=
  (∀ r ∈ m.pendingRejections, r.offset ∈ (m.consumedPrefixes r.partitionKey).observed) ∧
    DlqOnce m.trace

/-- The turn's `resolve` meets no offset its ledger does not know. -/
def KnowsOffsets (env : Env lim) (m : Mapper) (poll : Poll) : Prop :=
  (runOnce env poll m).1 ≠ .error (.ledger .unknownOffset)

theorem honoured_of_reachable (h : ((lifecycle env).restrict (CommitsHonoured env)).Reachable m) :
    Honoured m.trace := by
  refine System.invariant (I := fun m => Honoured m.trace) ?_ ?_ h
  · rintro _ ⟨partitions, rfl⟩
    exact trivial
  · rintro s i t - hs ⟨hok, hstep⟩
    cases i with
    | run poll =>
        obtain ⟨-, rfl⟩ := hstep
        exact hok
    | rebalance revoked assigned =>
        obtain ⟨hrevoke, rfl⟩ := hstep
        change Honoured (onRevoke revoked s).2.trace
        rw [(onRevoke_ok hrevoke).2.2.2.2]
        exact hs

theorem RejectionsResolvable.of_honoured {since : PartitionKey → List Nat} (h : Kept since m)
    (hh : Honoured m.trace) : RejectionsResolvable m :=
  ⟨fun r hr => (h.unpublished hh r hr trivial).1.1, h.published hh⟩

/-- In the runs whose commits after rejections succeed, the rejections stay resolvable and no turn
that meets the condition raises `unknown offset`. -/
theorem rejections_resolvable (env : Env lim) {m : Mapper}
    (hm : ((lifecycle env).restrict (CommitsHonoured env)).Reachable m) {poll : Poll}
    (hinc : ∀ msg, poll = .message msg → Increasing m msg) (hok : CommitsHonoured env m (.run poll)) :
    RejectionsResolvable m ∧ KnowsOffsets env m poll := by
  obtain ⟨since, hk⟩ := kept_of_reachable hm.of_restrict
  refine ⟨.of_honoured hk (honoured_of_reachable hm), fun he => ?_⟩
  have hrun : runOnce env poll m = (.error (.ledger .unknownOffset), (runOnce env poll m).2) :=
    Prod.ext he rfl
  obtain ⟨since', hf⟩ := (custody_runOnce hk hinc).error rfl hrun
  exact hf.blame rfl hok

/-! ## A refused commit -/

theorem Poll.none_ne_message (msg : Message) : Poll.none ≠ .message msg := fun h => by cases h

/-- A turn of the loop with a tombstone, or without a message. -/
def tombstoneTurn (env : Env lim) (offset : Nat) (m : Mapper) : Mapper :=
  (runOnce env (.message (tombstone offset)) m).2

/-- The assigned mapper takes two tombstones. -/
def twoTombstones (env : Env lim) : Mapper :=
  tombstoneTurn env 1 (tombstoneTurn env 0 (onAssign {historicPartition} (Mapper.start env)))

/-- The third reading, the first commit, is refused; the DLQ fails at readings five and six. -/
def refusedEnv : Env cpython :=
  { steadyEnv defaultLimits with
    dlqPublish := fun n => decide (n ≠ 4 ∧ n ≠ 5)
    commit := fun n => if n = 2 then .returned (some [(0, some (-195))]) else .returned none }

theorem reachable_twoTombstones {ok : Mapper → Turn → Prop}
    (h : ∀ o ∈ handedSince (tombstoneTurn env 0 (onAssign {historicPartition}
      (Mapper.start env))).trace historicPartition, o < 1)
    (hok₀ : ok (onAssign {historicPartition} (Mapper.start env)) (.run (.message (tombstone 0))))
    (hok₁ : ok (tombstoneTurn env 0 (onAssign {historicPartition} (Mapper.start env)))
      (.run (.message (tombstone 1)))) :
    ((lifecycle env).restrict ok).Reachable (twoTombstones env) := by
  refine .step (i := .run (.message (tombstone 1)))
    (.step (i := .run (.message (tombstone 0))) (.init ⟨_, rfl⟩) ⟨hok₀, ?_, rfl⟩) ⟨hok₁, ?_, rfl⟩
  · intro msg hmsg
    injection hmsg with hmsg
    rw [← hmsg]
    exact fun o ho => absurd ho List.not_mem_nil
  · intro msg hmsg
    injection hmsg with hmsg
    rw [← hmsg]
    exact h

/-- With every call successful the rejections of two tombstones are done. -/
theorem twoTombstones_resolvable :
    RejectionsResolvable (twoTombstones (steadyEnv defaultLimits)) ∧
      KnowsOffsets (steadyEnv defaultLimits) (twoTombstones (steadyEnv defaultLimits)) .none := by
  refine rejections_resolvable (steadyEnv defaultLimits)
    (reachable_twoTombstones (by decide +kernel) (by unfold CommitsHonoured; decide +kernel)
      (by unfold CommitsHonoured; decide +kernel))
    (fun msg h => absurd h (Poll.none_ne_message msg)) (by unfold CommitsHonoured; decide +kernel)

/-- The first tombstone is published, but its commit is refused; the second one's commit discards
both offsets, and the first rejection is still pending. -/
theorem refused_commit_forgets_rejection : ¬ ∀ (env : Env cpython) (m : Mapper),
    (lifecycle env).Reachable m →
      RejectionsResolvable m ∧ ∀ poll, (∀ msg, poll = .message msg → Increasing m msg) →
        KnowsOffsets env m poll := by
  intro h
  have hreach : (lifecycle refusedEnv).Reachable (twoTombstones refusedEnv) :=
    (@reachable_twoTombstones _ refusedEnv (fun _ _ => True) (by decide +kernel) trivial
      trivial).of_restrict
  have hraises : (runOnce refusedEnv .none (twoTombstones refusedEnv)).1 =
      .error (.ledger .unknownOffset) := by decide +kernel
  have hknows := (h refusedEnv _ hreach).2 .none (fun msg hx => absurd hx (Poll.none_ne_message msg))
  exact hknows hraises

end Uns
