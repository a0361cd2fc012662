/-
# `Historian.Positions` — where a partition is read from

A partition is read from the checkpoint that was found when it was assigned, and from
then on from behind the last message polled.  So whether a record will be read again
can be told from what the process has polled since the assignment (`Placed`).
-/
import UnifiedNamespace.Historian.CommitOrder
import UnifiedNamespace.Historian.Sourced

namespace Uns.Historian

open Py Lib

section Positions

variable {E : Env} {w : World}

/-! ## What an assignment starts from -/

/-- What the poll thread reconciles with is what it has just read. -/
theorem next_reconciling {input : Input} {partitions : List Nat} {checkpoints : Dict Nat Nat}
    (h : (w.next E input).poller = .reconciling partitions checkpoints) :
    w.poller = .reconciling partitions checkpoints ∨
      ∀ p ∈ partitions, checkpoints.get? p = some (w.checkpoint E (E.topic, p)) := by
  cases input with
  | pollMessage key offset =>
      rw [World.next] at h
      split at h
      · rename_i hpoller
        rcases @pollMessage_cases E w key offset with hsame | ⟨msg, start, -, hsame⟩
        · rw [hsame] at h
          exact .inl h
        · rw [hsame] at h
          cases h
      · exact .inl h
  | readCheckpoints reply =>
      rw [World.next] at h
      split at h
      · rename_i ps _
        cases reply with
        | committed =>
            cases h
            exact .inr (readPartitionCheckpoints_spec E.topic partitions).2.2.2.2
        | rolledBack => cases h
        | unanswered => cases h
      · exact .inl h
  | reconcile low raises =>
      rw [World.next] at h
      split at h
      · split at h
        · cases h
        · split at h <;> cases h
      · exact .inl h
  | run i clock reply =>
      rw [World.next] at h
      split at h
      · rw [settle_frame, runTask_frame] at h
        exact .inl h
      · exact .inl h
  | transact i reply =>
      rw [World.next] at h
      split at h
      · rename_i task _
        rw [settle_frame, (runTransaction_frame (E := E) (w := w) reply task).1] at h
        exact .inl h
      · exact .inl h
  | assign partitions =>
      rw [World.next] at h
      split at h
      · split at h
        · exact .inl h
        · cases h
      · exact .inl h
  | applyRequest request =>
      rw [World.next] at h
      split at h <;> exact .inl h
  | deadLetter key offset => exact .inl h
  | crash => cases h
  | revoke partitions =>
      rw [World.next] at h
      split at h <;> exact .inl h
  | _ =>
      rw [World.next] at h
      split at h
      · cases h
      · exact .inl h

/-! ## Positions and what has been polled -/

/-- A message of the partition at the offset or behind it was polled since the last assignment. -/
def PolledSince (key : PartitionKey) (offset : Nat) : List Moment → Prop
  | [] => False
  | .polled msg :: earlier => msg.partitionKey = key ∧ offset ≤ msg.offset ∨ PolledSince key offset earlier
  | .assigned _ :: _ => False

/-- A position is behind what was polled since the assignment, and the assignment was at a
checkpoint. -/
structure Placed (E : Env) (w : World) : Prop where
  position : ∀ key p, w.position key = some p → ∃ start, start ≤ w.checkpoint E key ∧
    ∀ offset, start ≤ offset → (offset < p ↔ PolledSince key offset w.history)
  read : ∀ partitions checkpoints, w.poller = .reconciling partitions checkpoints →
    ∀ p ∈ partitions, (checkpoints.get? p).getD 0 ≤ w.checkpoint E (E.topic, p)

/-- What an assignment seeks to. -/
theorem reconcileAll_seek {checkpoints : Dict Nat Nat} {committed : PartitionKey → Option Nat}
    {low : Nat → Nat} {partitions : List Nat} {seeks : List (PartitionKey × Nat)}
    (h : reconcileAll E checkpoints committed low partitions = .ok seeks) {key : PartitionKey} {n : Nat}
    (hn : lookup key seeks = some n) :
    ∃ p ∈ partitions, key = (E.topic, p) ∧ n ≤ (checkpoints.get? p).getD 0 := by
  rw [reconcileAll, mapM_eq_ok] at h
  induction h with
  | nil => cases hn
  | @cons p seek _ _ hone _ ih =>
      cases hp : reconcilePartitionOffset ((checkpoints.get? p).getD 0) (committed (E.topic, p))
          (some (low p)) with
      | error e =>
          rw [hp] at hone
          cases hone
      | ok start =>
          rw [hp] at hone
          cases hone
          rw [lookup] at hn
          split at hn
          · rename_i hkey
            cases hn
            exact ⟨p, List.mem_cons_self, hkey.symm, reconcile_le hp⟩
          · obtain ⟨q, hq, hkey, hle⟩ := ih hn
            exact ⟨q, List.mem_cons_of_mem _ hq, hkey, hle⟩

theorem placed_start (h : w.IsStart) : Placed E w := by
  obtain ⟨-, -, hstart⟩ := h
  rw [← hstart]
  exact ⟨fun _ _ hp => (nomatch hp), fun _ _ hps => (nomatch hps)⟩

/-- An assigned partition is read from a checkpoint. -/
theorem Placed.seek (h : Placed E w) {partitions : List Nat} {checkpoints : Dict Nat Nat} {low : Nat → Nat}
    {seeks : List (PartitionKey × Nat)} (hpoller : w.poller = .reconciling partitions checkpoints)
    (hseeks : reconcileAll E checkpoints w.committed low partitions = .ok seeks) {key : PartitionKey}
    {n : Nat} (hn : lookup key seeks = some n) : n ≤ w.checkpoint E key := by
  obtain ⟨p, hp, rfl, hle⟩ := reconcileAll_seek hseeks hn
  exact hle.trans (h.read partitions checkpoints hpoller p hp)

/-- Positions that did not move, or are not known any more. -/
theorem Placed.stay (h : Placed E w) {v : World} (hcheck : ∀ key, w.checkpoint E key ≤ v.checkpoint E key)
    (hposition : ∀ key p, v.position key = some p → w.position key = some p)
    (hhistory : v.history = w.history) (key : PartitionKey) (p : Nat) (hp : v.position key = some p) :
    ∃ start, start ≤ v.checkpoint E key ∧
      ∀ offset, start ≤ offset → (offset < p ↔ PolledSince key offset v.history) := by
  obtain ⟨start, hstart, hpolled⟩ := h.position key p (hposition key p hp)
  rw [hhistory]
  exact ⟨start, hstart.trans (hcheck key), hpolled⟩

/-- The position of a polled message is behind it. -/
theorem Placed.polled (h : Placed E w) {msg : Message} {start : Nat} (hpolls : Polls E w msg start)
    (key : PartitionKey) (p : Nat) (hp : (w.polled msg).position key = some p) :
    ∃ start, start ≤ (w.polled msg).checkpoint E key ∧
      ∀ offset, start ≤ offset → (offset < p ↔ PolledSince key offset (w.polled msg).history) := by
  change (if key = msg.partitionKey then some (msg.offset + 1) else w.position key) = some p at hp
  change ∃ start, start ≤ w.checkpoint E key ∧ ∀ offset, start ≤ offset → (offset < p ↔
    msg.partitionKey = key ∧ offset ≤ msg.offset ∨ PolledSince key offset w.history)
  split at hp
  · rename_i hkey
    subst hkey
    cases hp
    obtain ⟨first, hfirst, hpolled⟩ := h.position _ start hpolls.positioned
    refine ⟨first, hfirst, ?_⟩
    intro offset ho
    rw [← hpolled offset ho]
    have hle : start ≤ msg.offset := by
      have hn := hpolls.next
      rw [Env.isNext, Bool.and_eq_true, Bool.and_eq_true] at hn
      exact of_decide_eq_true hn.1.1
    constructor
    · exact fun hlt => .inl ⟨rfl, Nat.le_of_lt_succ hlt⟩
    · rintro (⟨-, hlt⟩ | hlt)
      · exact Nat.lt_succ_of_le hlt
      · omega
  · rename_i hkey
    obtain ⟨first, hfirst, hpolled⟩ := h.position key p hp
    refine ⟨first, hfirst, ?_⟩
    intro offset ho
    rw [hpolled offset ho]
    constructor
    · exact .inr
    · rintro (⟨hsame, -⟩ | hlt)
      · exact absurd hsame.symm hkey
      · exact hlt

theorem Placed.next (h : Placed E w) (input : Input) : Placed E (w.next E input) := by
  have hcheck := fun key => @checkpoint_le_next E w input key
  refine ⟨?_, ?_⟩
  · obtain ⟨v, hv, hstepped⟩ := @stepped_next E w input
    rw [hv] at hcheck ⊢
    cases hstepped with
    | quiet hquiet =>
        refine h.stay hcheck ?_ hquiet.history
        rw [hquiet.position]
        exact fun _ _ hp => hp
    | flushes => exact h.position
    | polls hpolls => exact h.polled hpolls
    | revokes partitions =>
        refine h.stay hcheck ?_ rfl
        intro key p hp
        change (if key ∈ partitions then none else w.position key) = some p at hp
        split at hp
        · cases hp
        · exact hp
    | assigns hpoller hseeks =>
        intro key p hp
        refine ⟨p, h.seek hpoller hseeks hp, ?_⟩
        intro offset ho
        exact ⟨fun hlt => absurd hlt (not_lt.mpr ho), fun hpolled => hpolled.elim⟩
    | @runs i task clock reply _ =>
        rw [settle_frame, runTask_frame] at hcheck ⊢
        exact h.stay hcheck (fun _ _ hp => hp) rfl
    | @transacts i task reply _ =>
        rw [settle_frame, (runTransaction_frame (E := E) (w := w) reply task).1] at hcheck ⊢
        exact h.stay hcheck (fun _ _ hp => hp) rfl
    | crashes => exact fun _ _ hp => nomatch hp
  · intro partitions checkpoints hpoller p hp
    rcases next_reconciling hpoller with hsame | hread
    · exact (h.read partitions checkpoints hsame p hp).trans (hcheck _)
    · rw [hread p hp]
      exact hcheck _

/-- A record that the checkpoint has not passed will be read again unless its partition is assigned
and it, or one behind it, was polled since. -/
theorem Placed.reread_iff (h : Placed E w) {key : PartitionKey} {offset : Nat}
    (hoffset : w.checkpoint E key ≤ offset) :
    (∀ p, w.position key = some p → p ≤ offset) ↔
      w.position key = none ∨ ¬ PolledSince key offset w.history := by
  cases hp : w.position key with
  | none => exact ⟨fun _ => .inl rfl, fun _ _ hq => (nomatch hq)⟩
  | some p =>
      obtain ⟨start, hstart, hpolled⟩ := h.position key p hp
      have hiff := hpolled offset (hstart.trans hoffset)
      constructor
      · intro hle
        refine .inr ?_
        rw [← hiff]
        exact not_lt.mpr (hle p rfl)
      · rintro (hnone | hnot)
        · cases hnone
        · rintro q ⟨⟩
          rw [← hiff] at hnot
          exact not_lt.mp hnot

end Positions

end Uns.Historian
