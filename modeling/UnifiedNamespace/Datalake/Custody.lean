/-
# `Datalake.Custody` — who holds an offset

The run of a mapper as its process takes it: an assignment, turns of the loop, and
rebalances that did not end it.  `Custody` is the invariant of these runs.  It
counts each coordinate over the buffers and the frozen groups: it occurs at most
once, and what is still to be published is observed and unresolved.  The pending
rejections are other offsets than those.

Two of its fields have a condition on the trace, so that they can be used in the
runs that meet it: no flush was frozen over another (`NoOverwrite`), and no commit
that directly followed a dead letter was refused (`Honoured`).

The parameters `clean` and `out` are for the loops: which rejections are known to
be unpublished while the loop over them runs, and which records are being resolved
while their group is still counted.
-/
import UnifiedNamespace.Datalake.CommitSafety

namespace Uns

open Py Lib
open Eff (state change raise Spec Keeps Frames)

variable {lim : Limits} {env : Env lim}

/-! ## Runs -/

inductive Turn where
  | run (poll : Poll)
  | rebalance (revoked assigned : Finset PartitionKey)

/-- An assignment, then turns of the loop and rebalances that do not raise. -/
def lifecycle (env : Env lim) : System Mapper Turn where
  init m := ∃ partitions, m = onAssign partitions (Mapper.start env)
  step m i m' :=
    match i with
    | .run poll =>
        (∀ msg, poll = .message msg → Increasing m msg) ∧ m' = (runOnce env poll m).2
    | .rebalance revoked assigned =>
        (onRevoke revoked m).1 = .ok () ∧ m' = onAssign assigned (onRevoke revoked m).2

/-! ## The trace -/

/-- The events of the current assignment. -/
def sinceAssigned : List Event → List Event
  | [] => []
  | .assigned :: _ => []
  | e :: t => e :: sinceAssigned t

/-- The assignment has a frozen flush. -/
def frozenAfter : List Event → Bool
  | [] => false
  | .assigned :: _ => false
  | .froze _ :: _ => true
  | .thawed _ :: _ => false
  | _ :: t => frozenAfter t

/-- No flush was frozen while another was. -/
def NoOverwrite : List Event → Prop
  | [] => True
  | .froze _ :: t => frozenAfter t = false ∧ NoOverwrite t
  | _ :: t => NoOverwrite t

/-- A rejection was just published and resolved. -/
def afterRejection : List Event → Bool
  | .resolved _ :: .dlqPublished _ true :: _ => true
  | _ => false

/-- Each commit that directly follows a published rejection succeeded. -/
def Honoured : List Event → Prop
  | [] => True
  | .committed _ _ answer :: t => (afterRejection t = true → answer.succeeded = true) ∧ Honoured t
  | _ :: t => Honoured t

/-- No coordinate goes to the DLQ again after it was delivered, in one assignment. -/
def DlqOnce : List Event → Prop
  | [] => True
  | .dlqPublished r _ :: t =>
      (∀ r', .dlqPublished r' true ∈ sinceAssigned t → r'.coord ≠ r.coord) ∧ DlqOnce t
  | _ :: t => DlqOnce t

/-! ## What is held -/

def Mapper.frozenGroups (m : Mapper) : List FrozenRouteGroup :=
  match m.frozenFlush with
  | none => []
  | some flush => flush.routeGroups

/-- The groups that are still to be published. -/
def Mapper.remainingGroups (m : Mapper) : List FrozenRouteGroup := m.frozenGroups.drop m.groupIndex

/-- How often a coordinate occurs in the buffers and the frozen flush. -/
def Mapper.heldCount (m : Mapper) (c : Coord) : Nat := m.batch.held c + countGroups c m.frozenGroups

/-- The same without the published groups. -/
def Mapper.liveCount (m : Mapper) (c : Coord) : Nat := m.batch.held c + countGroups c m.remainingGroups

def Unresolved (m : Mapper) (c : Coord) : Prop :=
  c.2 ∈ (m.consumedPrefixes c.1).observed ∧ c.2 ∉ (m.consumedPrefixes c.1).resolved

theorem liveCount_le (m : Mapper) (c : Coord) : m.liveCount c ≤ m.heldCount c := by
  have h : countGroups c (m.frozenGroups.take m.groupIndex) + countGroups c m.remainingGroups =
      countGroups c m.frozenGroups := by
    rw [Mapper.remainingGroups, ← countGroups_append, List.take_append_drop]
  unfold Mapper.liveCount Mapper.heldCount
  omega

theorem countGroups_pos {c : Coord} {groups : List FrozenRouteGroup} (h : 0 < countGroups c groups) :
    ∃ g ∈ groups, ∃ r ∈ g.records, r.coord = c := by
  by_contra hne
  have hzero : countGroups c groups = 0 := by
    refine List.sum_eq_zero_iff.mpr fun n hn => ?_
    obtain ⟨g, hg, rfl⟩ := List.mem_map.mp hn
    refine List.count_eq_zero.mpr fun hmem => ?_
    obtain ⟨r, hr, hc⟩ := List.mem_map.mp hmem
    exact hne ⟨g, hg, r, hr, hc⟩
  omega

theorem countIn_pos {r : LakeRecord} {records : List LakeRecord} (h : r ∈ records) :
    0 < countIn r.coord records :=
  List.count_pos_iff.mpr (List.mem_map_of_mem h)

theorem countGroups_pos_of_mem {r : LakeRecord} {g : FrozenRouteGroup} {groups : List FrozenRouteGroup}
    (hg : g ∈ groups) (hr : r ∈ g.records) : 0 < countGroups r.coord groups :=
  lt_of_lt_of_le (countIn_pos hr) (List.le_sum_of_mem (List.mem_map_of_mem hg))

/-- The invariant of a run. -/
structure Custody (since : PartitionKey → List Nat) (clean out : Coord → Prop) (m : Mapper) : Prop where
  since_eq : ∀ key, handedSince m.trace key = since key
  observed : ∀ key, ∀ o ∈ (m.consumedPrefixes key).observed, o ∈ since key
  dlq_since : ∀ r delivered, .dlqPublished r delivered ∈ sinceAssigned m.trace →
    r.offset ∈ since r.partitionKey
  pendingBytes : m.batch.pendingRecordBytes = 0
  buffered : ∀ e ∈ m.batch.buffers.entries, ∀ r ∈ e.2.records,
    isArchiveEligible r.envelope = true ∧ r.envelopeBytes ≠ []
  once : ∀ c, m.heldCount c ≤ 1
  live : ∀ c, 0 < m.liveCount c → out c ∨ Unresolved m c
  held_since : ∀ c, 0 < m.heldCount c → c.2 ∈ since c.1
  pending_since : ∀ r ∈ m.pendingRejections, r.offset ∈ since r.partitionKey
  pending_free : ∀ r ∈ m.pendingRejections, m.heldCount r.coord = 0
  pending_nodup : (m.pendingRejections.map PendingRejection.coord).Nodup
  keyed : ∀ flush, m.frozenFlush = some flush → ∀ g ∈ flush.routeGroups, ∀ r ∈ g.records,
    r.partitionKey = flush.partitionKey
  ready : ∀ flush n, m.frozenFlush = some flush → m.pendingCommitOffset = some n →
    flush.routeGroups.length ≤ m.groupIndex ∧ 0 < n ∧
      ∀ o ∈ (m.consumedPrefixes flush.partitionKey).observed, o < n →
        o ∈ (m.consumedPrefixes flush.partitionKey).resolved
  owner : m.ownershipActive = true ∧ m.revoked = false
  generation : m.frozenFlush.isSome = true → m.frozenGeneration = m.generation
  paused : m.paused = true → m.ownedPartitions ≠ ∅
  frozen_trace : frozenAfter m.trace = m.frozenFlush.isSome
  done : ∀ c, 0 < countGroups c (m.frozenGroups.take m.groupIndex) →
    .resolved c ∈ sinceAssigned m.trace
  accounted : NoOverwrite m.trace → ∀ r, .buffered r ∈ sinceAssigned m.trace →
    .resolved r.coord ∈ sinceAssigned m.trace ∨ m.heldCount r.coord = 1
  published : Honoured m.trace → DlqOnce m.trace
  unpublished : Honoured m.trace → ∀ r ∈ m.pendingRejections, clean r.coord →
    Unresolved m r.coord ∧
      ∀ r', .dlqPublished r' true ∈ sinceAssigned m.trace → r'.coord ≠ r.coord

/-- The invariant between turns. -/
abbrev Kept (since : PartitionKey → List Nat) (m : Mapper) : Prop :=
  Custody since (fun _ => True) (fun _ => False) m

variable {since : PartitionKey → List Nat} {clean out : Coord → Prop} {m : Mapper}

/-- Once a commit after a rejection was refused, nothing more is claimed of the rejections. -/
theorem Custody.dirty (h : Custody since clean out m) (hd : ¬ Honoured m.trace)
    (clean' : Coord → Prop) : Custody since clean' out m :=
  { h with
    published := fun hh => absurd hh hd
    unpublished := fun hh => absurd hh hd }

theorem Custody.ticks (h : Custody since clean out m) (n : Nat) :
    Custody since clean out { m with ticks := n } :=
  { h with }

/-! ## Single moves -/

/-- A move that leaves the unresolved offsets unresolved, logged as an event of the store. -/
theorem Custody.logStore (h : Custody since clean out m) {e : Event}
    (he : (∃ object answer, e = .published object answer) ∨ ∃ object answer, e = .verified object answer) :
    Custody since clean out { m with trace := e :: m.trace } := by
  have hmem : ∀ e', e' ∈ sinceAssigned (e :: m.trace) ↔ e' = e ∨ e' ∈ sinceAssigned m.trace := by
    rcases he with ⟨object, answer, rfl⟩ | ⟨object, answer, rfl⟩ <;> exact fun _ => List.mem_cons
  have hdlq : ∀ r delivered, .dlqPublished r delivered ∈ sinceAssigned (e :: m.trace) →
      .dlqPublished r delivered ∈ sinceAssigned m.trace := by
    intro r delivered hr
    rcases he with ⟨object, answer, rfl⟩ | ⟨object, answer, rfl⟩ <;> simpa [hmem] using hr
  have hbuf : ∀ r, .buffered r ∈ sinceAssigned (e :: m.trace) → .buffered r ∈ sinceAssigned m.trace := by
    intro r hr
    rcases he with ⟨object, answer, rfl⟩ | ⟨object, answer, rfl⟩ <;> simpa [hmem] using hr
  have heq : (∀ key, handedSince (e :: m.trace) key = handedSince m.trace key) ∧
      frozenAfter (e :: m.trace) = frozenAfter m.trace ∧
      (NoOverwrite (e :: m.trace) → NoOverwrite m.trace) ∧
      (Honoured (e :: m.trace) → Honoured m.trace) ∧ (DlqOnce m.trace → DlqOnce (e :: m.trace)) := by
    rcases he with ⟨object, answer, rfl⟩ | ⟨object, answer, rfl⟩ <;>
      exact ⟨fun _ => rfl, rfl, id, id, id⟩
  exact { h with
    since_eq := fun key => (heq.1 key).trans (h.since_eq key)
    dlq_since := fun r delivered hr => h.dlq_since r delivered (hdlq r delivered hr)
    frozen_trace := heq.2.1.trans h.frozen_trace
    done := fun c hc => (hmem _).mpr (.inr (h.done c hc))
    accounted := fun hn r hr =>
      (h.accounted (heq.2.2.1 hn) r (hbuf r hr)).imp_left fun hx => (hmem _).mpr (.inr hx)
    published := fun hh => heq.2.2.2.2 (h.published (heq.2.2.2.1 hh))
    unpublished := fun hh r hr hc =>
      (h.unpublished (heq.2.2.2.1 hh) r hr hc).imp_right fun hx r' hr' => hx r' (hdlq r' true hr') }

/-- Resolving an observed offset that nothing needs unresolved. -/
theorem Custody.resolve (h : Custody since clean out m) {key : PartitionKey} {o : Nat}
    {p : ConsumedPrefix} (hp : (m.consumedPrefixes key).resolve o = .ok p)
    (hlive : 0 < m.liveCount (key, o) → out (key, o))
    (hclean : ∀ r ∈ m.pendingRejections, clean r.coord → r.coord ≠ (key, o)) :
    Custody since clean out
      { m.setPrefix key p with trace := .resolved (key, o) :: m.trace } := by
  obtain ⟨-, hobs, hres⟩ := ConsumedPrefix.resolve_ok hp
  have hsame : ∀ k, ((m.setPrefix key p).consumedPrefixes k).observed =
      (m.consumedPrefixes k).observed := by
    intro k
    by_cases hk : k = key
    · subst hk
      rw [Mapper.setPrefix_self, hobs]
    · rw [Mapper.setPrefix_ne _ _ hk]
  have hunres : ∀ c, c ≠ (key, o) → Unresolved m c → Unresolved (m.setPrefix key p) c := by
    intro c hc hu
    refine ⟨(hsame c.1).symm ▸ hu.1, ?_⟩
    by_cases hk : c.1 = key
    · rw [hk, Mapper.setPrefix_self, hres, Finset.mem_insert, not_or]
      exact ⟨fun ho => hc (Prod.ext hk ho), hk ▸ hu.2⟩
    · rw [Mapper.setPrefix_ne _ _ hk]
      exact hu.2
  have hmono : ∀ k, ∀ x ∈ (m.consumedPrefixes k).resolved,
      x ∈ ((m.setPrefix key p).consumedPrefixes k).resolved := by
    intro k x hx
    by_cases hk : k = key
    · subst hk
      rw [Mapper.setPrefix_self, hres]
      exact Finset.mem_insert_of_mem hx
    · rw [Mapper.setPrefix_ne _ _ hk]
      exact hx
  exact { h with
    observed := fun k x hx => h.observed k x (hsame k ▸ hx)
    dlq_since := fun r delivered hr =>
      h.dlq_since r delivered ((List.mem_cons.mp hr).resolve_left (by simp))
    live := fun c hc => by
      by_cases he : c = (key, o)
      · exact .inl (he ▸ hlive (he ▸ hc))
      · exact (h.live c hc).imp_right (hunres c he)
    ready := fun flush n hf hn => by
      obtain ⟨hlen, hpos, hall⟩ := h.ready flush n hf hn
      exact ⟨hlen, hpos, fun x hx hlt => hmono _ x (hall x (hsame _ ▸ hx) hlt)⟩
    done := fun c hc => List.mem_cons_of_mem _ (h.done c hc)
    accounted := fun hn r hr =>
      (h.accounted hn r ((List.mem_cons.mp hr).resolve_left (by simp))).imp_left
        (List.mem_cons_of_mem _)
    unpublished := fun hh r hr hc => by
      obtain ⟨hu, hd⟩ := h.unpublished hh r hr hc
      exact ⟨hunres _ (hclean r hr hc) hu, fun r' hr' =>
        hd r' ((List.mem_cons.mp hr').resolve_left (by simp))⟩ }

/-- A commit that the broker was asked for. -/
theorem Custody.logCommit (h : Custody since clean out m) (key : PartitionKey) (n ticks : Nat)
    (answer : CommitAnswer) :
    Custody since clean out
      { m with ticks := ticks, trace := .committed key n answer :: m.trace } :=
  { h with
    dlq_since := fun r delivered hr =>
      h.dlq_since r delivered ((List.mem_cons.mp hr).resolve_left (by simp))
    done := fun c hc => List.mem_cons_of_mem _ (h.done c hc)
    accounted := fun hn r hr =>
      (h.accounted hn r ((List.mem_cons.mp hr).resolve_left (by simp))).imp_left
        (List.mem_cons_of_mem _)
    published := fun hh => h.published hh.2
    unpublished := fun hh r hr hc =>
      (h.unpublished hh.2 r hr hc).imp_right fun hd r' hr' =>
        hd r' ((List.mem_cons.mp hr').resolve_left (by simp)) }

/-- Discarding a prefix that is resolved throughout. -/
theorem Custody.discard (h : Custody since clean out m) {key : PartitionKey} {n : Nat}
    {p : ConsumedPrefix} (hp : (m.consumedPrefixes key).discardCommitted n = .ok p)
    (hall : ∀ o ∈ (m.consumedPrefixes key).observed, o < n → o ∈ (m.consumedPrefixes key).resolved) :
    Custody since clean out (m.setPrefix key p) := by
  obtain ⟨hobs, hres⟩ := ConsumedPrefix.discardCommitted_ok hp
  have hunres : ∀ c, Unresolved m c → Unresolved (m.setPrefix key p) c := by
    intro c hu
    unfold Unresolved
    by_cases hk : c.1 = key
    · rw [hk, Mapper.setPrefix_self, hobs, hres]
      rw [Unresolved, hk] at hu
      exact ⟨⟨hu.1, not_lt.mp fun hlt => hu.2 (hall _ hu.1 hlt)⟩, fun hx => hu.2 hx.1⟩
    · rw [Mapper.setPrefix_ne _ _ hk]
      exact hu
  exact { h with
    observed := fun k x hx => by
      by_cases hk : k = key
      · subst hk
        rw [Mapper.setPrefix_self] at hx
        exact h.observed k x ((hobs x).mp hx).1
      · rw [Mapper.setPrefix_ne _ _ hk] at hx
        exact h.observed k x hx
    live := fun c hc => (h.live c hc).imp_right (hunres c)
    ready := fun flush k hf hk => by
      obtain ⟨hlen, hpos, hready⟩ := h.ready flush k hf hk
      refine ⟨hlen, hpos, fun x hx hlt => ?_⟩
      by_cases he : flush.partitionKey = key
      · rw [he, Mapper.setPrefix_self] at hx ⊢
        have hx' := (hobs x).mp hx
        exact (hres x).mpr ⟨he ▸ hready x (he ▸ hx'.1) hlt, hx'.2⟩
      · rw [Mapper.setPrefix_ne _ _ he] at hx ⊢
        exact hready x hx hlt
    unpublished := fun hh r hr hc => (h.unpublished hh r hr hc).imp_left (hunres r.coord) }

/-- A rejection sent to the DLQ is not clean any more when it was delivered. -/
theorem Custody.logDlq (h : Custody since clean out m) {r : PendingRejection}
    (hr : r ∈ m.pendingRejections) (hclean : clean r.coord) (ticks : Nat) (delivered : Bool) :
    Custody since (fun c => clean c ∧ (delivered = true → c ≠ r.coord)) out
      { m with ticks := ticks, trace := .dlqPublished r delivered :: m.trace } :=
  { h with
    dlq_since := fun r' delivered' hr' => by
      rcases List.mem_cons.mp hr' with he | hr'
      · cases he
        exact h.pending_since r hr
      · exact h.dlq_since r' delivered' hr'
    done := fun c hc => List.mem_cons_of_mem _ (h.done c hc)
    accounted := fun hn r' hr' =>
      (h.accounted hn r' ((List.mem_cons.mp hr').resolve_left (by simp))).imp_left
        (List.mem_cons_of_mem _)
    published := fun hh => ⟨(h.unpublished hh r hr hclean).2, h.published hh⟩
    unpublished := fun hh r'' hr'' hc => by
      obtain ⟨hu, hd⟩ := h.unpublished hh r'' hr'' hc.1
      refine ⟨hu, fun r' hr' => ?_⟩
      rcases List.mem_cons.mp hr' with he | hr'
      · cases he
        exact fun he => hc.2 rfl he.symm
      · exact hd r' hr' }

/-! ## Freezing and thawing -/

/-- The state after a partition with eligible records is frozen. -/
def Mapper.flushed (env : Env lim) (m : Mapper) (key : PartitionKey) : Mapper :=
  { m.freeze (freezePartitionRecords key (m.batch.buffer key).records (env.newFlushId m.ticks)
      (env.newObjectId m.ticks)) with
    batch := (m.batch.popPartition key).2
    ticks := m.ticks + 1
    paused := if m.ownedPartitions = ∅ then m.paused else true
    trace := .froze key :: m.trace }

theorem setPaused_apply (paused : Bool) (m : Mapper) :
    setPaused paused m =
      (.ok (), { m with paused := if m.ownedPartitions = ∅ then m.paused else paused }) := rfl

theorem flushPartition_apply (env : Env lim) {key : PartitionKey}
    (helig : ∀ r ∈ (m.batch.buffer key).records, isArchiveEligible r.envelope = true)
    (hne : (m.batch.buffer key).isEmpty = false) :
    flushPartition env key m = (.ok true, m.flushed env key) := by
  have hall : (m.batch.buffer key).records.filter (fun r => isArchiveEligible r.envelope) =
      (m.batch.buffer key).records := List.filter_eq_self.mpr helig
  have hnone : (m.batch.buffer key).records.filter (fun r => !isArchiveEligible r.envelope) = [] :=
    List.filter_eq_nil_iff.mpr fun r hr => by simp [helig r hr]
  obtain ⟨r, hr⟩ : ∃ r, r ∈ (m.batch.buffer key).records := by
    refine List.exists_mem_of_ne_nil _ fun hnil => ?_
    rw [PartitionBuffer.isEmpty, hnil] at hne
    cases hne
  have hgroups : (freezePartitionRecords key (m.batch.buffer key).records (env.newFlushId m.ticks)
      (env.newObjectId m.ticks)).routeGroups ≠ [] := by
    intro hnil
    have hcount := count_freezePartitionRecords r.coord key (m.batch.buffer key).records
      (env.newFlushId m.ticks) (env.newObjectId m.ticks)
    rw [hnil] at hcount
    exact absurd hcount (Nat.ne_of_lt (countIn_pos hr))
  have hfreeze : freezePartition env key (m.batch.buffer key).records
      { m with batch := (m.batch.popPartition key).2 } = (.ok (), m.flushed env key) := by
    simp only [freezePartition, hall, hnone, resolveRecords, tick, log, Eff.bind_apply, Eff.pure_apply,
      Eff.state, Eff.change, setPaused_apply]
    rw [if_neg hgroups]
    rfl
  unfold flushPartition
  rw [Eff.state_bind, Eff.change_bind]
  change (if (m.batch.buffer key).isEmpty = true then _ else _ : Action Bool) _ = _
  rw [hne, if_neg Bool.false_ne_true]
  exact Eff.bind_of_ok hfreeze fun _ => pure true

theorem Custody.flushed (h : Custody since clean out m) (env : Env lim) (key : PartitionKey) :
    Custody since clean out (m.flushed env key) := by
  have hheld : ∀ c, (m.flushed env key).heldCount c = m.batch.held c := by
    intro c
    exact (congrArg _ (count_freezePartitionRecords c key _ _ _)).trans
      (m.batch.held_popPartition key c)
  have hle : ∀ c, (m.flushed env key).heldCount c ≤ m.heldCount c := by
    intro c
    rw [hheld]
    exact Nat.le_add_right _ _
  exact { h with
    dlq_since := fun r delivered hr =>
      h.dlq_since r delivered ((List.mem_cons.mp hr).resolve_left (by simp))
    buffered := fun e he => h.buffered e (Dict.mem_entries_erase he)
    once := fun c => (hle c).trans (h.once c)
    live := fun c hc => by
      refine h.live c (lt_of_lt_of_le hc ?_)
      refine (liveCount_le _ c).trans ?_
      rw [hheld]
      exact Nat.le_add_right _ _
    held_since := fun c hc => h.held_since c (lt_of_lt_of_le hc (hle c))
    pending_free := fun r hr => Nat.le_zero.mp (h.pending_free r hr ▸ hle r.coord)
    keyed := fun flush hf g hg r hr => by
      cases hf
      exact BatchManager.mem_buffer (mem_freezePartitionRecords hg hr)
    ready := fun _ _ _ hn => by cases hn
    generation := fun _ => rfl
    paused := fun hp ho => by
      have ho' : m.ownedPartitions = ∅ := ho
      simp only [Mapper.flushed, ho', if_true] at hp
      exact h.paused hp ho'
    frozen_trace := rfl
    done := fun c hc => absurd hc (Nat.lt_irrefl 0)
    accounted := fun hn r hr => by
      have hfree : m.frozenFlush = none := by
        have hf := h.frozen_trace
        rw [hn.1] at hf
        exact Option.isSome_eq_false_iff.mp hf.symm |> Option.isNone_iff_eq_none.mp
      rcases h.accounted hn.2 r ((List.mem_cons.mp hr).resolve_left (by simp)) with hr' | hone
      · exact .inl (List.mem_cons_of_mem _ hr')
      · refine .inr ?_
        rw [hheld]
        rw [Mapper.heldCount, Mapper.frozenGroups, hfree] at hone
        exact hone
    unpublished := fun hh r hr hc =>
      (h.unpublished hh r hr hc).imp_right fun hd r' hr' =>
        hd r' ((List.mem_cons.mp hr').resolve_left (by simp)) }

/-- The state after the flush is committed and discarded. -/
def Mapper.thawed (m : Mapper) (key : PartitionKey) : Mapper :=
  { m.thaw with
    paused := if m.ownedPartitions = ∅ then m.paused else false
    trace := .thawed key :: m.trace }

theorem Custody.thawed (h : Custody since clean out m) (key : PartitionKey)
    (hdone : m.frozenGroups.length ≤ m.groupIndex) : Custody since clean out (m.thawed key) := by
  have hheld : ∀ c, (m.thawed key).heldCount c = m.batch.held c := fun _ => rfl
  have hle : ∀ c, (m.thawed key).heldCount c ≤ m.heldCount c := fun c => Nat.le_add_right _ _
  exact { h with
    dlq_since := fun r delivered hr =>
      h.dlq_since r delivered ((List.mem_cons.mp hr).resolve_left (by simp))
    once := fun c => (hle c).trans (h.once c)
    live := fun c hc => h.live c (lt_of_lt_of_le hc (Nat.le_add_right _ _))
    held_since := fun c hc => h.held_since c (lt_of_lt_of_le hc (hle c))
    pending_free := fun r hr => Nat.le_zero.mp (h.pending_free r hr ▸ hle r.coord)
    keyed := fun _ hf => by cases hf
    ready := fun _ _ hf => by cases hf
    generation := fun hf => by cases hf
    paused := fun hp ho => by
      have ho' : m.ownedPartitions = ∅ := ho
      simp only [Mapper.thawed, ho', if_true] at hp
      exact h.paused hp ho'
    frozen_trace := rfl
    done := fun c hc => absurd hc (Nat.lt_irrefl 0)
    accounted := fun hn r hr => by
      rcases h.accounted hn r ((List.mem_cons.mp hr).resolve_left (by simp)) with hr' | hone
      · exact .inl (List.mem_cons_of_mem _ hr')
      · by_cases hb : m.batch.held r.coord = 1
        · exact .inr hb
        · refine .inl (List.mem_cons_of_mem _ (h.done r.coord ?_))
          rw [List.take_of_length_le hdone]
          rw [Mapper.heldCount] at hone
          omega
    unpublished := fun hh r hr hc =>
      (h.unpublished hh r hr hc).imp_right fun hd r' hr' =>
        hd r' ((List.mem_cons.mp hr').resolve_left (by simp)) }

/-! ## Messages and rejections -/

/-- A coordinate that is observed and nowhere yet. -/
structure Fresh (m : Mapper) (c : Coord) : Prop where
  unresolved : Unresolved m c
  free : m.heldCount c = 0
  not_pending : ∀ r ∈ m.pendingRejections, r.coord ≠ c
  unpublished : ∀ r, .dlqPublished r true ∈ sinceAssigned m.trace → r.coord ≠ c

theorem countIn_singleton (c : Coord) (r : LakeRecord) : countIn c [r] = if r.coord = c then 1 else 0 := by
  simp only [countIn, List.map_singleton, List.count_singleton, beq_iff_eq]

theorem Custody.add (h : Custody since clean out m) {r : LakeRecord} (hf : Fresh m r.coord)
    (hr : isArchiveEligible r.envelope = true ∧ r.envelopeBytes ≠ []) (monotonic : ℚ) :
    Custody since clean out
      { m with batch := m.batch.add monotonic r, trace := .buffered r :: m.trace } := by
  have hheld : ∀ c, { m with batch := m.batch.add monotonic r, trace := .buffered r :: m.trace }.heldCount c
      = m.heldCount c + if r.coord = c then 1 else 0 := by
    intro c
    simp only [Mapper.heldCount, Mapper.frozenGroups, m.batch.held_add, countIn_singleton]
    omega
  have hlive : ∀ c, { m with batch := m.batch.add monotonic r, trace := .buffered r :: m.trace }.liveCount c
      = m.liveCount c + if r.coord = c then 1 else 0 := by
    intro c
    simp only [Mapper.liveCount, Mapper.remainingGroups, Mapper.frozenGroups, m.batch.held_add,
      countIn_singleton]
    omega
  have hzero : ∀ r', .dlqPublished r' true ∈ sinceAssigned (.buffered r :: m.trace) →
      .dlqPublished r' true ∈ sinceAssigned m.trace :=
    fun r' hr' => (List.mem_cons.mp hr').resolve_left (by simp)
  exact { h with
    dlq_since := fun r delivered hr =>
      h.dlq_since r delivered ((List.mem_cons.mp hr).resolve_left (by simp))
    pendingBytes := rfl
    buffered := fun e he s hs => by
      rcases Dict.mem_entries_update he with he | rfl
      · exact h.buffered e he s hs
      · rcases List.mem_append.mp hs with hs | hs
        · cases hb : m.batch.buffers.get? r.partitionKey with
          | none =>
              rw [hb] at hs
              cases hs
          | some buffer =>
              rw [hb] at hs
              exact h.buffered _ (Dict.mem_of_get? hb) s hs
        · rw [List.mem_singleton.mp hs]
          exact hr
    once := fun c => by
      rw [hheld]
      split
      · rename_i he
        rw [← he, hf.free]
      · exact h.once c
    live := fun c hc => by
      rw [hlive] at hc
      split at hc
      · rename_i he
        exact .inr (he ▸ hf.unresolved)
      · exact h.live c hc
    held_since := fun c hc => by
      rw [hheld] at hc
      split at hc
      · rename_i he
        exact h.observed _ _ (he ▸ hf.unresolved).1
      · exact h.held_since c hc
    pending_free := fun s hs => by
      rw [hheld, h.pending_free s hs, if_neg fun he => hf.not_pending s hs he.symm]
    done := fun c hc => List.mem_cons_of_mem _ (h.done c hc)
    accounted := fun hn s hs => by
      rcases List.mem_cons.mp hs with he | hs
      · cases he
        rw [hheld, hf.free, if_pos rfl]
        exact .inr rfl
      · rcases h.accounted hn s hs with hres | hone
        · exact .inl (List.mem_cons_of_mem _ hres)
        · refine .inr ?_
          rw [hheld, hone, if_neg]
          intro he
          rw [← he, hf.free] at hone
          exact absurd hone (by decide)
    unpublished := fun hh s hs hc =>
      (h.unpublished hh s hs hc).imp_right fun hd r' hr' => hd r' (hzero r' hr') }

/-- A fresh message becomes a pending rejection. -/
theorem Custody.reject (h : Kept since m) {msg : Message} (hf : Fresh m msg.coord) (reason : Str) :
    Kept since { m with pendingRejections := m.pendingRejections ++ [msg.rejection reason] } := by
  have hcases : ∀ r ∈ m.pendingRejections ++ [msg.rejection reason],
      r ∈ m.pendingRejections ∨ r = msg.rejection reason :=
    fun r hr => (List.mem_append.mp hr).imp_right List.mem_singleton.mp
  exact { h with
    pending_since := fun r hr => by
      rcases hcases r hr with hr | rfl
      · exact h.pending_since r hr
      · exact h.observed _ _ hf.unresolved.1
    pending_free := fun r hr => by
      rcases hcases r hr with hr | rfl
      · exact h.pending_free r hr
      · exact hf.free
    pending_nodup := by
      rw [List.map_append, List.nodup_append]
      refine ⟨h.pending_nodup, List.nodup_singleton _, ?_⟩
      intro c hc d hd
      obtain ⟨r, hr, rfl⟩ := List.mem_map.mp hc
      rw [List.mem_singleton.mp hd]
      exact hf.not_pending r hr
    unpublished := fun hh r hr hc => by
      rcases hcases r hr with hr | rfl
      · exact h.unpublished hh r hr hc
      · exact ⟨hf.unresolved, hf.unpublished⟩ }

theorem Custody.setPending (h : Custody since clean out m) {rs : List PendingRejection}
    (hsub : rs.Sublist m.pendingRejections) (hclean : ∀ r ∈ rs, clean r.coord) :
    Custody since (fun _ => True) out { m with pendingRejections := rs } :=
  { h with
    pending_since := fun r hr => h.pending_since r (hsub.subset hr)
    pending_free := fun r hr => h.pending_free r (hsub.subset hr)
    pending_nodup := h.pending_nodup.sublist (hsub.map _)
    unpublished := fun hh r hr _ => h.unpublished hh r (hsub.subset hr) (hclean r hr) }

/-- A message handed over between flushes is observed, and its coordinate is fresh. -/
theorem Custody.handed (h : Kept since m) (hfree : m.frozenFlush = none) {msg : Message}
    (hinc : Increasing m msg) :
    ∃ p, (m.consumedPrefixes msg.partitionKey).observe msg.offset = .ok p ∧
      Kept (Function.update since msg.partitionKey (msg.offset :: since msg.partitionKey))
        (m.handed msg p) ∧ Fresh (m.handed msg p) msg.coord := by
  have hbelow : ∀ o ∈ since msg.partitionKey, o < msg.offset :=
    fun o ho => hinc o (h.since_eq _ ▸ ho)
  have hnew : msg.offset ∉ since msg.partitionKey := fun ho => absurd (hbelow _ ho) (lt_irrefl _)
  obtain ⟨p, hp⟩ := ConsumedPrefix.observe_of_lt fun o ho => hbelow o (h.observed _ o ho)
  obtain ⟨hobs, hres⟩ := ConsumedPrefix.observe_ok hp
  have hold : ∀ (key : PartitionKey) (o : Nat), o ∈ since key →
      o ∈ Function.update since msg.partitionKey (msg.offset :: since msg.partitionKey) key := by
    intro key o ho
    by_cases hk : key = msg.partitionKey
    · subst hk
      rw [Function.update_self]
      exact List.mem_cons_of_mem _ ho
    · rw [Function.update_of_ne hk]
      exact ho
  have hobserved : ∀ key, ∀ o ∈ (m.consumedPrefixes key).observed,
      o ∈ ((m.handed msg p).consumedPrefixes key).observed := by
    intro key o ho
    by_cases hk : key = msg.partitionKey
    · subst hk
      rw [Mapper.handed, Mapper.setPrefix_self, hobs]
      exact List.mem_append_left _ ho
    · rw [Mapper.handed, Mapper.setPrefix_ne _ _ hk]
      exact ho
  have hresolved : ∀ key, ((m.handed msg p).consumedPrefixes key).resolved =
      (m.consumedPrefixes key).resolved := by
    intro key
    by_cases hk : key = msg.partitionKey
    · subst hk
      rw [Mapper.handed, Mapper.setPrefix_self, hres]
    · rw [Mapper.handed, Mapper.setPrefix_ne _ _ hk]
  have hunres : ∀ c, Unresolved m c → Unresolved (m.handed msg p) c :=
    fun c hu => ⟨hobserved _ _ hu.1, by rw [hresolved]; exact hu.2⟩
  have hdlq : ∀ r delivered, .dlqPublished r delivered ∈ sinceAssigned (m.handed msg p).trace →
      .dlqPublished r delivered ∈ sinceAssigned m.trace :=
    fun r delivered hr => (List.mem_cons.mp hr).resolve_left (by simp)
  have hcoord : ∀ (key : PartitionKey) (o : Nat), o ∈ since key → (key, o) ≠ msg.coord := by
    intro key o ho he
    cases he
    exact hnew ho
  refine ⟨p, hp, ?_, ?_⟩
  · exact { h with
      since_eq := fun key => by
        by_cases hk : msg.partitionKey = key
        · subst hk
          rw [Function.update_self, ← h.since_eq]
          exact if_pos rfl
        · rw [Function.update_of_ne fun he => hk he.symm, ← h.since_eq]
          exact if_neg hk
      observed := fun key o ho => by
        by_cases hk : key = msg.partitionKey
        · subst hk
          rw [Mapper.handed, Mapper.setPrefix_self, hobs] at ho
          rcases List.mem_append.mp ho with ho | ho
          · exact hold _ o (h.observed _ o ho)
          · rw [List.mem_singleton.mp ho, Function.update_self]
            exact List.mem_cons_self
        · rw [Mapper.handed, Mapper.setPrefix_ne _ _ hk] at ho
          exact hold _ o (h.observed _ o ho)
      dlq_since := fun r delivered hr => hold _ _ (h.dlq_since r delivered (hdlq r delivered hr))
      live := fun c hc => (h.live c hc).imp_right (hunres c)
      held_since := fun c hc => hold _ _ (h.held_since c hc)
      pending_since := fun r hr => hold _ _ (h.pending_since r hr)
      ready := fun flush _ hf => by
        have hnone : m.frozenFlush = some flush := hf
        rw [hfree] at hnone
        cases hnone
      done := fun c hc => List.mem_cons_of_mem _ (h.done c hc)
      accounted := fun hn r hr =>
        (h.accounted hn r ((List.mem_cons.mp hr).resolve_left (by simp))).imp_left
          (List.mem_cons_of_mem _)
      unpublished := fun hh r hr hc =>
        (h.unpublished hh r hr hc).imp (hunres _) fun hd r' hr' => hd r' (hdlq r' true hr') }
  · constructor
    · refine ⟨?_, ?_⟩
      · change msg.offset ∈ ((m.handed msg p).consumedPrefixes msg.partitionKey).observed
        rw [Mapper.handed, Mapper.setPrefix_self, hobs]
        simp
      · rw [hresolved]
        exact fun ho => hnew (h.observed _ _ ((m.consumedPrefixes _).known _ ho))
    · by_contra hne
      exact hnew (h.held_since msg.coord (Nat.pos_of_ne_zero hne))
    · exact fun r hr => hcoord _ _ (h.pending_since r hr)
    · exact fun r hr => hcoord _ _ (h.dlq_since r true (hdlq r true hr))

/-! ## Groups -/

theorem Custody.widen (h : Custody since clean (fun _ => False) m) (out : Coord → Prop) :
    Custody since clean out m :=
  { h with live := fun c hc => (h.live c hc).imp_left False.elim }

theorem Custody.nextGroup {group : FrozenRouteGroup}
    (h : Custody since clean (fun c => ∃ r ∈ group.records, r.coord = c) m)
    (hgroup : m.frozenGroups[m.groupIndex]? = some group)
    (hres : ∀ r ∈ group.records, .resolved r.coord ∈ sinceAssigned m.trace) :
    Custody since clean (fun _ => False) m.nextGroup := by
  have hdrop : m.remainingGroups = group :: m.nextGroup.remainingGroups := by
    obtain ⟨hlt, he⟩ := List.getElem?_eq_some_iff.mp hgroup
    rw [Mapper.remainingGroups, List.drop_eq_getElem_cons hlt, he]
    rfl
  have hlive : ∀ c, m.liveCount c = countIn c group.records + m.nextGroup.liveCount c := by
    intro c
    have hbatch : m.nextGroup.batch.held c = m.batch.held c := rfl
    rw [Mapper.liveCount, Mapper.liveCount, hdrop, hbatch]
    simp only [countGroups, List.map_cons, List.sum_cons]
    omega
  exact { h with
    live := fun c hc => by
      rcases h.live c (by rw [hlive]; omega) with ⟨r, hr, rfl⟩ | hu
      · have hone := (liveCount_le m r.coord).trans (h.once r.coord)
        have := countIn_pos hr
        rw [hlive] at hone
        omega
      · exact .inr hu
    ready := fun flush n hf hn => by
      obtain ⟨hlen, hrest⟩ := h.ready flush n hf hn
      exact ⟨Nat.le_succ_of_le hlen, hrest⟩
    done := fun c hc => by
      have htake : m.frozenGroups.take (m.groupIndex + 1) =
          m.frozenGroups.take m.groupIndex ++ [group] := by
        rw [List.take_add_one, hgroup]
        rfl
      change 0 < countGroups c (m.frozenGroups.take (m.groupIndex + 1)) at hc
      rw [htake, countGroups_append] at hc
      by_cases hold : 0 < countGroups c (m.frozenGroups.take m.groupIndex)
      · exact h.done c hold
      · obtain ⟨g, hg, r, hr, rfl⟩ := @countGroups_pos c [group] (by omega)
        rw [List.mem_singleton.mp hg] at hr
        exact hres r hr }

theorem Custody.setPendingCommit (h : Custody since clean out m) {flush : FrozenPartitionFlush}
    (hf : m.frozenFlush = some flush) {n : Nat} (hlen : flush.routeGroups.length ≤ m.groupIndex)
    (hn : (m.consumedPrefixes flush.partitionKey).nextOffset = some n) :
    Custody since clean out { m with pendingCommitOffset := some n } :=
  { h with
    ready := fun flush' k hf' hk => by
      have he : flush' = flush := Option.some.inj (hf'.symm.trans hf)
      cases hk
      rw [he]
      exact ⟨hlen, ConsumedPrefix.nextOffset_pos hn,
        fun o ho hlt => ConsumedPrefix.resolved_of_lt_nextOffset hn ho hlt⟩ }

end Uns
