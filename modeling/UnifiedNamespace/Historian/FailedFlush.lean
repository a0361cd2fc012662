/-
# `Historian.FailedFlush` — a flush whose `persist_batch` raises

`flush_batch` takes the events out of the collector before the call that may raise, and
nothing after the call runs when it does: they are not put back, and what was paused is
not resumed, since that is the last thing `_maybe_flush` does.  The exception ends the
task; the process goes on.  Only a rebalance during the flush mends this, when it lets
the partitions be read from their checkpoints again (`failed_flush_iff`).
-/
import UnifiedNamespace.Historian.Positions

namespace Uns.Historian

open Py Lib

section FailedFlush

variable {E : Env} {w : World}

/-- The record is not below the checkpoint, and its partition is not read from behind it: by this
process, or by the one it is assigned to next. -/
def Rereads (E : Env) (w : World) (key : PartitionKey) (offset : Nat) : Prop :=
  w.checkpoint E key ≤ offset ∧ ∀ p, w.position key = some p → p ≤ offset

/-- What a failed flush should leave: its events wait or are read again, and nothing stays paused. -/
structure Recovered (E : Env) (w : World) (events : List CollectedEvent) : Prop where
  kept : ∀ e ∈ events, e ∈ w.mapper.collector.events ∨ Rereads E w e.partitionKey e.offset
  resumed : ∀ key ∈ w.mapper.ownedPartitions, key ∉ w.paused

/-- The event waits again, or its partition is not assigned, or nothing from it on was polled since
it was. -/
def Restored (E : Env) (w : World) (e : CollectedEvent) : Prop :=
  e ∈ w.mapper.collector.events ∨ w.checkpoint E e.partitionKey ≤ e.offset ∧
    (w.position e.partitionKey = none ∨ ¬ PolledSince e.partitionKey e.offset w.history)

theorem placed_of_reachable (h : (consumerSystem E).Reachable w) : Placed E w := by
  refine System.invariant (fun _ => placed_start) ?_ h
  rintro w input w' - hw rfl
  exact hw.next input

/-- The exception only ends the flight of the batch. -/
theorem next_failed {i : Nat} {events : List CollectedEvent} {raised : PersistRaised} {next : Resume}
    (htask : w.tasks[i]? = some (.persisted events (.error raised) next)) (clock : Clock)
    (reply : CommitReply) :
    w.next E (.run i clock reply) =
      { w with
        mapper := { w.mapper with batchInFlight := false }
        tasks := w.tasks.eraseIdx i } := by
  simp only [World.next, htask]
  rfl

/-- When `persist_batch` has raised, the events of the batch are kept for a retry and the partitions
resumed exactly when nothing that is owned is paused and each event waits in the collector again, or
is not below its checkpoint and was not polled since its partition was last assigned. -/
theorem failed_flush_iff (h : (consumerSystem E).Reachable w) {i : Nat} {events : List CollectedEvent}
    {raised : PersistRaised} {next : Resume}
    (htask : w.tasks[i]? = some (.persisted events (.error raised) next)) (clock : Clock)
    (reply : CommitReply) :
    Recovered E (w.next E (.run i clock reply)) events ↔
      (∀ key ∈ w.mapper.ownedPartitions, key ∉ w.paused) ∧ ∀ e ∈ events, Restored E w e := by
  have hplaced := placed_of_reachable h
  rw [next_failed htask]
  constructor
  · rintro ⟨hkept, hresumed⟩
    refine ⟨hresumed, ?_⟩
    intro e he
    rcases hkept e he with hbuffered | ⟨hcheck, hposition⟩
    · exact .inl hbuffered
    · exact .inr ⟨hcheck, (hplaced.reread_iff hcheck).mp hposition⟩
  · rintro ⟨hresumed, hrestored⟩
    refine ⟨?_, hresumed⟩
    intro e he
    rcases hrestored e he with hbuffered | ⟨hcheck, hsince⟩
    · exact .inl hbuffered
    · exact .inr ⟨hcheck, (hplaced.reread_iff hcheck).mpr hsince⟩

/-! ## A transaction that is rolled back -/

theorem next_rolledBack {i : Nat} {events : List CollectedEvent} {next : Resume}
    (htask : w.tasks[i]? = some (.persisting events next)) :
    ∃ raised, w.next E (.transact i .rolledBack) =
      { w with tasks := w.tasks.set i (.persisted events (.error raised) next) } := by
  simp only [World.next, htask, World.runTransaction]
  split
  · exact ⟨_, rfl⟩
  · exact ⟨_, rfl⟩

end FailedFlush

def failedEnv : Env :=
  plantEnv ⟨1, 4194304, 100000⟩ [encoded (telemetrySample Datetime newYear2026 1700000000)]

/-- A record is polled and its batch taken. -/
def takenRun : World :=
  (World.first.run failedEnv assignPlant).run failedEnv
    [.pollMessage (plantTopic, 0) 0, .run 0 (fun _ => 0) .done]

theorem takenRun_eq : takenRun = (World.first.run failedEnv assignPlant).taken
    ⟨plantTopic, 0, 0, some (sampleEvent 0 1700000000).envelopeBytes⟩ (sampleEvent 0 1700000000) := by
  have hlog : failedEnv.log (plantTopic, 0) 0 = some (some (sampleEvent 0 1700000000).envelopeBytes) := by
    rw [envelopeBytes_sampleEvent]
    exact log_plantEnv _ [_] 0
  exact run_taken (waits_assignPlant _ _) hlog (isEvent_sampleEvent 0 (by norm_num) portable_seconds rfl) rfl
    (length_sampleEvent_le _ _)

theorem reachable_takenRun : (consumerSystem failedEnv).Reachable takenRun :=
  reachable_run (reachable_run (.init isStart_first) _) _

/-- A rolled back transaction loses the record: it is not in the collector, and its partition is
read from behind it. -/
theorem failed_flush_forgets : ¬ ∀ E w, (consumerSystem E).Reachable w → ∀ i events raised next,
    w.tasks[i]? = some (.persisted events (.error raised) next) → ∀ clock reply,
    Recovered E (w.next E (.run i clock reply)) events := by
  intro h
  have htask : takenRun.tasks[0]? = some (.persisting [sampleEvent 0 1700000000] .finished) := by
    rw [takenRun_eq]
    rfl
  obtain ⟨raised, hnext⟩ := @next_rolledBack failedEnv _ _ _ _ htask
  have hfailed : (takenRun.next failedEnv (.transact 0 .rolledBack)).tasks[0]? =
      some (.persisted [sampleEvent 0 1700000000] (.error raised) .finished) := by
    rw [hnext, takenRun_eq]
    rfl
  have hrecovered := h failedEnv _ (.step reachable_takenRun rfl) 0 _ _ _ hfailed (fun _ => 0) .done
  rw [next_failed hfailed, hnext, takenRun_eq] at hrecovered
  rcases hrecovered.kept _ List.mem_cons_self with hbuffered | ⟨-, hposition⟩
  · cases hbuffered
  · exact absurd (hposition 1 rfl) (by decide)

/-- The partition is revoked and assigned again while the batch is in flight. -/
def rebalancedRun : World :=
  takenRun.run failedEnv [.check 0, .revoke [(plantTopic, 0)], .assign [0], .readCheckpoints .committed,
    .reconcile (fun _ => 0) false]

/-- Then the batch fails, and the record is read again. -/
theorem failed_flush_rebalanced :
    Recovered failedEnv ((rebalancedRun.next failedEnv (.transact 0 .rolledBack)).next failedEnv
      (.run 0 (fun _ => 0) .done)) [sampleEvent 0 1700000000] := by
  have htask : rebalancedRun.tasks[0]? = some (.persisting [sampleEvent 0 1700000000] .finished) := by
    rw [rebalancedRun, takenRun_eq]
    rfl
  obtain ⟨raised, hnext⟩ := @next_rolledBack failedEnv _ _ _ _ htask
  have hfailed : (rebalancedRun.next failedEnv (.transact 0 .rolledBack)).tasks[0]? =
      some (.persisted [sampleEvent 0 1700000000] (.error raised) .finished) := by
    rw [hnext, rebalancedRun, takenRun_eq]
    rfl
  have hreach : (consumerSystem failedEnv).Reachable
      (rebalancedRun.next failedEnv (.transact 0 .rolledBack)) :=
    .step (reachable_run reachable_takenRun _) rfl
  refine (failed_flush_iff hreach hfailed _ _).mpr ⟨?_, ?_⟩
  · rw [hnext, rebalancedRun, takenRun_eq]
    exact fun _ _ h => nomatch h
  · intro e he
    obtain rfl := List.mem_singleton.mp he
    refine .inr ⟨?_, .inr ?_⟩
    · rw [hnext, rebalancedRun, takenRun_eq]
      exact Nat.le_refl 0
    · rw [hnext, rebalancedRun, takenRun_eq]
      exact fun h => h

end Uns.Historian
