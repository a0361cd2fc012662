/-
# `Datalake.Wedged` — when a frozen flush clears

While a flush is frozen `run_once` only advances it: one route group a turn, and after the last
one the commit, which needs the first observed offset of the partition to be resolved.  A
rejection that could not be published holds its offset, and is tried again only while nothing
is frozen.  So a flush clears, in a turn for each group that is left, unless an offset that is
not its own comes first and is unresolved, or a group does not encode (`flush_advances_iff`).
-/
import UnifiedNamespace.Datalake.Overwrite
import UnifiedNamespace.Datalake.PendingRejections

namespace Uns

open Py Lib
open Eff (state change raise Spec Frames)

variable {lim : Limits} {env : Env lim} {m : Mapper} {since : PartitionKey → List Nat}
  {flush : FrozenPartitionFlush}

/-! ## The condition -/

/-- Every store, DLQ and commit call from a reading on succeeds. -/
structure Succeeds (env : Env lim) (reading : Nat) : Prop where
  publish : ∀ n, reading ≤ n → env.publishExact n = .accepted
  verify : ∀ n, reading ≤ n → env.verifyExact n = .accepted
  dlq : ∀ n, reading ≤ n → env.dlqPublish n = true
  commit : ∀ n, reading ≤ n → (env.commit n).succeeded = true

theorem Succeeds.later {reading n : Nat} (h : Succeeds env reading) (hle : reading ≤ n) : Succeeds env n :=
  ⟨fun k hk => h.publish k (hle.trans hk), fun k hk => h.verify k (hle.trans hk),
    fun k hk => h.dlq k (hle.trans hk), fun k hk => h.commit k (hle.trans hk)⟩

/-- The flush is done and the consumer resumed. -/
def Cleared (m : Mapper) : Prop := m.frozenFlush = none ∧ m.paused = false

/-- The group at the index is encoded already, or can be. -/
def Encodes (env : Env lim) (m : Mapper) (flush : FrozenPartitionFlush) (i : Nat) (group : FrozenRouteGroup) : Prop :=
  (i = m.groupIndex ∧ m.frozenObject.isSome = true) ∨
    (env.recordsToParquet group.records flush.flushId).isSome = true

/-- The groups that are left encode, and the first observed offset of the partition is resolved or
in one of them; a commit that was refused needs neither. -/
def Clears (env : Env lim) (m : Mapper) (flush : FrozenPartitionFlush) : Prop :=
  (∀ i group, m.groupIndex ≤ i → flush.routeGroups[i]? = some group → Encodes env m flush i group) ∧
    (m.pendingCommitOffset.isSome = true ∨
      ∃ o, (m.consumedPrefixes flush.partitionKey).observed.head? = some o ∧
        (o ∈ (m.consumedPrefixes flush.partitionKey).resolved ∨
          ∃ group ∈ flush.routeGroups.drop m.groupIndex, ∃ r ∈ group.records, r.offset = o))

/-! ## One turn -/

section Turn

theorem runOnce_frozen (hf : m.frozenFlush = some flush) (poll : Poll) :
    (runOnce env poll m).2 = (advanceFrozenFlush env flush m).2 := by
  have hpoll : untilPoll env m = (do
      let result ← advanceFrozenFlush env flush
      pure (some result) : Action (Option Bool)) m := by
    unfold untilPoll
    rw [Eff.state_bind, hf]
  rcases ha : advanceFrozenFlush env flush m with ⟨e | result, t⟩
  · have hraised : untilPoll env m = (.error e, t) := hpoll.trans (Eff.bind_of_error ha _)
    rw [runOnce, Eff.bind_of_error hraised]
  · have hdone : untilPoll env m = (.ok (some result), t) := hpoll.trans (Eff.bind_of_ok ha _)
    rw [runOnce, Eff.bind_of_ok hdone]
    rfl

theorem frames_tryAdvanceRejections (env : Env lim) :
    Frames (fun m : Mapper => (m.frozenFlush, m.paused)) (tryAdvanceRejections env) :=
  Frames.state_bind fun m =>
    Frames.bind ((frames_advanceRejections m.pendingRejections).comp fun w => (w.frozenFlush, w.paused))
      fun _ _ => rfl

theorem completeCommit_clears (h : Kept since m) (hf : m.frozenFlush = some flush) {n : Nat}
    (hn : m.pendingCommitOffset = some n) (hs : Succeeds env m.ticks) :
    Cleared (completeCommit env flush.partitionKey n m).2 := by
  have hmay : mayCommitKafka m.ownershipActive m.revoked ≠ false := by
    rw [h.owner.1, h.owner.2]
    decide
  have hgen : m.frozenGeneration = m.generation := h.generation (by rw [hf]; rfl)
  obtain ⟨-, hpos, -⟩ := h.ready flush n hf hn
  have hcommit := hs.commit m.ticks le_rfl
  unfold completeCommit
  rw [Eff.state_bind, if_neg hmay, if_neg (not_not.mpr hgen),
    Eff.bind_of_ok (consumerCommit_apply flush.partitionKey n)]
  cases ha : env.commit m.ticks with
  | raised =>
      rw [ha] at hcommit
      cases hcommit
  | returned result =>
      rw [ha] at hcommit
      have hr : inspectCommitResult result = [] := List.isEmpty_iff.mp hcommit
      obtain ⟨p, hp⟩ := ConsumedPrefix.discardCommitted_of_pos
        (p := m.consumedPrefixes flush.partitionKey) hpos
      have hdiscard := @discardCommitted_apply (m.asked env flush.partitionKey n) flush.partitionKey n p hp
      dsimp only
      rw [if_neg (not_not.mpr hr), Eff.bind_of_ok hdiscard]
      have hend := frames_tryAdvanceRejections env
        (((m.asked env flush.partitionKey n).setPrefix flush.partitionKey p).thawed flush.partitionKey)
      obtain ⟨hfrozen, hpaused⟩ := Prod.mk.inj hend
      refine ⟨hfrozen, hpaused.trans ?_⟩
      change (if m.ownedPartitions = ∅ then m.paused else false) = false
      split
      · next howned =>
        cases hp : m.paused with
        | false => rfl
        | true => exact absurd howned (h.paused hp)
      · rfl

/-- With no group left the flush clears, or the turn is stuck. -/
theorem commitResolved_cases (h : Kept since m) (hf : m.frozenFlush = some flush)
    (hlen : flush.routeGroups.length ≤ m.groupIndex) (hpending : m.pendingCommitOffset = none)
    (hs : Succeeds env m.ticks) :
    (Clears env m flush ∧ Cleared (commitResolved env flush.partitionKey m).2) ∨
      (¬ Clears env m flush ∧ (commitResolved env flush.partitionKey m).2 = m) := by
  unfold commitResolved
  rw [Eff.state_bind]
  cases hn : (m.consumedPrefixes flush.partitionKey).nextOffset with
  | none =>
      refine .inr ⟨?_, rfl⟩
      rintro ⟨-, hsome | ⟨o, ho, hresolved | ⟨group, hgroup, -⟩⟩⟩
      · rw [hpending] at hsome
        cases hsome
      · have hsome := ConsumedPrefix.nextOffset_isSome.mpr ⟨o, ho, hresolved⟩
        rw [hn] at hsome
        cases hsome
      · rw [List.drop_eq_nil_of_le hlen] at hgroup
        cases hgroup
  | some n =>
      have hsome : (m.consumedPrefixes flush.partitionKey).nextOffset.isSome = true := by
        rw [hn]
        rfl
      obtain ⟨o, ho, hresolved⟩ := ConsumedPrefix.nextOffset_isSome.mp hsome
      refine .inl ⟨⟨fun i group hi hg => ?_, .inr ⟨o, ho, .inl hresolved⟩⟩, ?_⟩
      · rw [List.getElem?_eq_none (hlen.trans hi)] at hg
        cases hg
      · exact @completeCommit_clears _ env { m with pendingCommitOffset := some n } since flush
          (h.setPendingCommit hf hlen hn) hf n rfl hs

/-- The encoder fails and nothing changes, or the object of the group is kept. -/
theorem encodeGroup_iff (env : Env lim) (m : Mapper) (flush : FrozenPartitionFlush) (group : FrozenRouteGroup) :
    (encodeGroup env flush group m = (.error .encodeRaised, m) ∧ m.frozenObject = none ∧
        env.recordsToParquet group.records flush.flushId = none) ∨
      ∃ object, encodeGroup env flush group m = (.ok object, { m with frozenObject := some object }) ∧
        Encodes env m flush m.groupIndex group := by
  unfold encodeGroup
  rw [Eff.state_bind]
  cases ho : m.frozenObject with
  | some object =>
      refine .inr ⟨object, ?_, .inl ⟨rfl, by rw [ho]; rfl⟩⟩
      change (Except.ok object, m) = _
      rw [← ho]
  | none =>
      cases hp : env.recordsToParquet group.records flush.flushId with
      | none => exact .inl ⟨rfl, rfl, rfl⟩
      | some data => exact .inr ⟨_, rfl, .inr (by rw [hp]; rfl)⟩

/-- The state after the object is stored and verified. -/
def Mapper.stored (m : Mapper) (object : FrozenObject) : Mapper :=
  { m with
    frozenObject := some object
    ticks := m.ticks + 2
    trace := .verified object .accepted :: .published object .accepted :: m.trace }

theorem storeExact_apply (hs : Succeeds env m.ticks) (object : FrozenObject) :
    storeExact env object { m with frozenObject := some object } = (.ok .accepted, m.stored object) := by
  unfold storeExact
  simp only [Eff.bind_apply, tick, log, Eff.state, Eff.change, Eff.pure_apply, hs.publish m.ticks le_rfl,
    hs.verify (m.ticks + 1) (Nat.le_succ _)]
  rfl

theorem ticks_resolveRecords (key : PartitionKey) (rs : List LakeRecord) :
    Frames Mapper.ticks (resolveRecords key rs) := by
  induction rs with
  | nil => exact Frames.pure _
  | cons r rs ih =>
      refine Frames.bind (Frames.bind (Frames.state_bind fun m => ?_) fun _ _ => rfl) fun _ => ih
      split
      · exact Frames.raise _
      · exact fun _ => rfl

/-- The next group has the same condition: the first group was encoded, and its offsets are resolved. -/
theorem clears_nextGroup (env : Env lim) {group : FrozenRouteGroup} {object : FrozenObject} {t : Mapper}
    (hpending : m.pendingCommitOffset = none) (hgroup : flush.routeGroups[m.groupIndex]? = some group)
    (hencodes : Encodes env m flush m.groupIndex group)
    (hres : Resolves flush.partitionKey group.records (m.stored object) t) :
    Clears env t.nextGroup flush ↔ Clears env m flush := by
  have hindex : t.groupIndex = m.groupIndex := (congrArg Mapper.groupIndex hres.work :)
  have hnone : t.pendingCommitOffset = none := (congrArg Mapper.pendingCommitOffset hres.work :).trans hpending
  obtain ⟨hlt, hget⟩ := List.getElem?_eq_some_iff.mp hgroup
  have hdrop : flush.routeGroups.drop m.groupIndex = group :: flush.routeGroups.drop (m.groupIndex + 1) := by
    rw [List.drop_eq_getElem_cons hlt, hget]
  refine and_congr ⟨fun hnext i g hi hg => ?_, fun hall i g hi hg => ?_⟩ ?_
  · rcases Nat.eq_or_lt_of_le hi with rfl | hi
    · rw [hgroup] at hg
      cases hg
      exact hencodes
    · have hencodes' := hnext i g (by change t.groupIndex + 1 ≤ i; omega) hg
      exact .inr (hencodes'.resolve_left fun hfirst => Bool.false_ne_true hfirst.2)
  · change t.groupIndex + 1 ≤ i at hi
    exact .inr ((hall i g (by omega) hg).resolve_left fun hfirst => by omega)
  · change (t.pendingCommitOffset.isSome = true ∨
      ∃ o, (t.consumedPrefixes flush.partitionKey).observed.head? = some o ∧
        (o ∈ (t.consumedPrefixes flush.partitionKey).resolved ∨
          ∃ g ∈ flush.routeGroups.drop (t.groupIndex + 1), ∃ r ∈ g.records, r.offset = o)) ↔ _
    rw [hnone, hpending, hindex, hdrop, hres.observed flush.partitionKey]
    refine or_congr Iff.rfl (exists_congr fun o => and_congr Iff.rfl ?_)
    rw [hres.resolved, or_assoc]
    refine or_congr Iff.rfl ?_
    simp only [List.mem_cons, exists_eq_or_imp, List.mem_map, true_and]

/-- One more group is settled, and the condition is the same. -/
structure Settles (env : Env lim) (since : PartitionKey → List Nat) (flush : FrozenPartitionFlush)
    (m t : Mapper) : Prop where
  kept : Kept since t
  frozen : t.frozenFlush = some flush
  index : t.groupIndex = m.groupIndex + 1
  left : m.groupIndex < flush.routeGroups.length
  ticks : m.ticks ≤ t.ticks
  clears : Clears env t flush ↔ Clears env m flush

/-- A turn clears the flush, is stuck or settles one group. -/
def TurnCases (env : Env lim) (since : PartitionKey → List Nat) (flush : FrozenPartitionFlush)
    (m t : Mapper) : Prop :=
  (Clears env m flush ∧ Cleared t) ∨ (¬ Clears env m flush ∧ t = m) ∨ Settles env since flush m t

theorem settleGroup_cases {group : FrozenRouteGroup} {object : FrozenObject} (h : Kept since m)
    (hf : m.frozenFlush = some flush) (hs : Succeeds env m.ticks) (hpending : m.pendingCommitOffset = none)
    (hgroup : flush.routeGroups[m.groupIndex]? = some group)
    (hencodes : Encodes env m flush m.groupIndex group) :
    TurnCases env since flush m (settleGroup env flush group (m.stored object)).2 := by
  have hobject : Kept since { m with frozenObject := some object } := { h with }
  have hstored : Kept since (m.stored object) := (custody_storeExact object).ok hobject (storeExact_apply hs object)
  obtain ⟨t, ht, hk, hres⟩ := resolveGroup_apply hstored hf hgroup
  have hticks : t.ticks = m.ticks + 2 := by
    have hframe := ticks_resolveRecords flush.partitionKey group.records (m.stored object)
    rw [ht] at hframe
    exact hframe
  have hlater : m.ticks ≤ t.nextGroup.ticks := by
    change m.ticks ≤ t.ticks
    omega
  have hnone : t.nextGroup.pendingCommitOffset = none :=
    (congrArg Mapper.pendingCommitOffset hres.work :).trans hpending
  have hsettles : Settles env since flush m t.nextGroup :=
    ⟨hk, (congrArg Mapper.frozenFlush hres.work :).trans hf,
      congrArg (· + 1) (congrArg Mapper.groupIndex hres.work :), (List.getElem?_eq_some_iff.mp hgroup).1, hlater,
      clears_nextGroup env hpending hgroup hencodes hres⟩
  unfold settleGroup
  rw [Eff.bind_of_ok ht, Eff.change_bind, Eff.state_bind]
  by_cases hlast : flush.routeGroups.length ≤ t.nextGroup.groupIndex
  · rw [if_pos hlast]
    rcases commitResolved_cases hk hsettles.frozen hlast hnone (hs.later hlater) with
      ⟨hclears, hcleared⟩ | ⟨-, hsame⟩
    · exact .inl ⟨hsettles.clears.mp hclears, hcleared⟩
    · rw [hsame]
      exact .inr (.inr hsettles)
  · rw [if_neg hlast]
    exact .inr (.inr hsettles)

theorem advance_cases (h : Kept since m) (hf : m.frozenFlush = some flush) (hs : Succeeds env m.ticks) :
    TurnCases env since flush m (advanceFrozenFlush env flush m).2 := by
  have hlost : ¬ (m.frozenGeneration ≠ m.generation ∨ m.revoked = true) := by
    rw [h.owner.2]
    simp [h.generation (by rw [hf]; rfl)]
  unfold advanceFrozenFlush
  rw [Eff.state_bind, if_neg hlost]
  cases hn : m.pendingCommitOffset with
  | some n =>
      obtain ⟨hlen, -, -⟩ := h.ready flush n hf hn
      refine .inl ⟨⟨fun i group hi hg => ?_, .inl (by rw [hn]; rfl)⟩, completeCommit_clears h hf hn hs⟩
      rw [List.getElem?_eq_none (hlen.trans hi)] at hg
      cases hg
  | none =>
      cases hg : flush.routeGroups[m.groupIndex]? with
      | none =>
          have hcases := commitResolved_cases h hf (List.getElem?_eq_none_iff.mp hg) hn hs
          exact hcases.imp_right .inl
      | some group =>
          dsimp only
          unfold publishGroup
          rcases encodeGroup_iff env m flush group with ⟨he, hobject, hparquet⟩ | ⟨object, he, hencodes⟩
          · rw [Eff.bind_of_error he]
            refine .inr (.inl ⟨fun hclears => ?_, rfl⟩)
            rcases hclears.1 m.groupIndex group le_rfl hg with ⟨-, hsome⟩ | hsome
            · rw [hobject] at hsome
              cases hsome
            · rw [hparquet] at hsome
              cases hsome
          · rw [Eff.bind_of_ok he, Eff.bind_of_ok (storeExact_apply hs object)]
            exact settleGroup_cases h hf hs hn hg hencodes

end Turn

/-! ## Turns -/

section Turns

/-- The state after turns with the polls. -/
def turns (env : Env lim) (polls : List Poll) (m : Mapper) : Mapper :=
  polls.foldl (fun m poll => (runOnce env poll m).2) m

theorem turns_stuck (hf : m.frozenFlush = some flush) (hsame : (advanceFrozenFlush env flush m).2 = m)
    (polls : List Poll) : turns env polls m = m := by
  induction polls with
  | nil => rfl
  | cons poll polls ih =>
      change turns env polls (runOnce env poll m).2 = m
      rw [runOnce_frozen hf, hsame, ih]

theorem not_cleared (hf : m.frozenFlush = some flush) : ¬ Cleared m := by
  rintro ⟨hnone, -⟩
  rw [hnone] at hf
  cases hf

/-- By induction on the turns: each settles a group, clears the flush or is stuck. -/
theorem turns_clear_iff {n : Nat} : ∀ {m : Mapper} {polls : List Poll}, Kept since m →
    m.frozenFlush = some flush → Succeeds env m.ticks → flush.routeGroups.length - m.groupIndex < n → n ≤ polls.length →
    ((∃ k, k ≤ n ∧ Cleared (turns env (polls.take k) m)) ↔ Clears env m flush) := by
  induction n with
  | zero =>
      intro m polls h hf hs hleft
      exact absurd hleft (Nat.not_lt_zero _)
  | succ n ih =>
      intro m polls h hf hs hleft hlen
      obtain ⟨poll, polls, rfl⟩ := List.exists_cons_of_length_pos (Nat.lt_of_lt_of_le n.succ_pos hlen)
      rcases advance_cases h hf hs with ⟨hclears, hcleared⟩ | ⟨hnot, hsame⟩ | hsettles
      · refine iff_of_true ⟨1, Nat.le_add_left 1 n, ?_⟩ hclears
        change Cleared (runOnce env poll m).2
        rw [runOnce_frozen hf]
        exact hcleared
      · refine iff_of_false ?_ hnot
        rintro ⟨k, -, hcleared⟩
        rw [turns_stuck hf hsame] at hcleared
        exact not_cleared hf hcleared
      · have hindex := hsettles.index
        have hlt := hsettles.left
        have hrest := @ih _ polls hsettles.kept hsettles.frozen (hs.later hsettles.ticks) (by omega)
          (Nat.le_of_succ_le_succ hlen)
        rw [← hsettles.clears, ← hrest]
        constructor
        · rintro ⟨k, hle, hcleared⟩
          cases k with
          | zero => exact absurd hcleared (not_cleared hf)
          | succ k =>
              change Cleared (turns env (polls.take k) (runOnce env poll m).2) at hcleared
              rw [runOnce_frozen hf] at hcleared
              exact ⟨k, Nat.le_of_succ_le_succ hle, hcleared⟩
        · rintro ⟨k, hle, hcleared⟩
          refine ⟨k + 1, Nat.succ_le_succ hle, ?_⟩
          change Cleared (turns env (polls.take k) (runOnce env poll m).2)
          rw [runOnce_frozen hf]
          exact hcleared

end Turns

/-- The flush is done after a turn for each remaining group and one more, and no turn leaves the
state as it is. -/
structure Advances (env : Env lim) (m : Mapper) : Prop where
  clears : ∀ polls : List Poll, polls.length = m.remainingGroups.length + 1 →
    ∃ k, k ≤ polls.length ∧ Cleared (turns env (polls.take k) m)
  moves : ∀ poll, (runOnce env poll m).2 ≠ m

/-- A frozen flush advances exactly when it does not wait for an offset that is not its own. -/
theorem flush_advances_iff (env : Env lim) {m : Mapper} (hm : (lifecycle env).Reachable m)
    {flush : FrozenPartitionFlush} (hf : m.frozenFlush = some flush) (hs : Succeeds env m.ticks) :
    Advances env m ↔ Clears env m flush := by
  obtain ⟨since, hk⟩ := kept_of_reachable hm
  have hleft : m.remainingGroups.length = flush.routeGroups.length - m.groupIndex := by
    rw [Mapper.remainingGroups, Mapper.frozenGroups, hf, List.length_drop]
  have hturns : ∀ polls : List Poll, polls.length = m.remainingGroups.length + 1 →
      ((∃ k, k ≤ polls.length ∧ Cleared (turns env (polls.take k) m)) ↔ Clears env m flush) :=
    fun polls hlen => turns_clear_iff hk hf hs (by omega) le_rfl
  constructor
  · intro hadvances
    have hlen := @List.length_replicate _ (m.remainingGroups.length + 1) Poll.none
    exact (hturns _ hlen).mp (hadvances.clears _ hlen)
  · intro hclears
    refine ⟨fun polls hlen => (hturns polls hlen).mpr hclears, fun poll hsame => ?_⟩
    have hlen := @List.length_replicate _ (m.remainingGroups.length + 1) Poll.none
    obtain ⟨k, -, hcleared⟩ := (hturns _ hlen).mpr hclears
    rw [runOnce_frozen hf] at hsame
    rw [turns_stuck hf hsame] at hcleared
    exact not_cleared hf hcleared

/-! ## A sample, alone and behind a rejection -/

/-- A turn with the sample that fills a batch. -/
def sampleTaken (env : Env lim) (offset : Nat) (m : Mapper) : Mapper :=
  takes env (sampleMessage offset 1700000000)
    ((sampleMessage offset 1700000000).record (sampleResolved 1700000000)) m

/-- The sample is the first message. -/
def frozenSample : Mapper := sampleTaken (mappedEnv narrowLimits) 0 (assigned narrowLimits)

theorem frozenSample_frozen : frozenSample.frozenFlush.isSome = true := by decide +kernel

theorem reachable_sampleTaken {env : Env cpython} {offset : Nat} {ok : Mapper → Turn → Prop}
    (h : ((lifecycle env).restrict ok).Reachable m) (ht : Takes env m (sampleMessage offset 1700000000))
    (hc : classify env (sampleMessage offset 1700000000).payload = .eligible (sampleResolved 1700000000))
    (hok : ok m (.run (.message (sampleMessage offset 1700000000)))) :
    (lifecycle env).Reachable (sampleTaken env offset m) :=
  (reachable_takes h ht hc hok).of_restrict

/-- What has the sample for its first offset clears, where the encoder does not fail. -/
theorem clears_of_first {o : Nat} (hencodes : ∀ records id, (env.recordsToParquet records id).isSome = true)
    (hf : (m.consumedPrefixes flush.partitionKey).observed.head? = some o ∧
      ∃ group ∈ flush.routeGroups.drop m.groupIndex, ∃ r ∈ group.records, r.offset = o) : Clears env m flush :=
  ⟨fun _ _ _ _ => .inr (hencodes _ _), .inr ⟨o, hf.1, .inr hf.2⟩⟩

/-- The flush of the first message is done in two turns. -/
theorem frozenSample_advances : Advances (mappedEnv narrowLimits) frozenSample :=
  (flush_advances_iff (mappedEnv narrowLimits)
    (@reachable_sampleTaken _ _ _ (fun _ _ => True) (.init ⟨_, rfl⟩) (by decide +kernel)
      (classify_sample narrowLimits (by norm_num) portable_seconds) trivial)
    (Option.some_get frozenSample_frozen).symm
    ⟨fun _ _ => rfl, fun _ _ => rfl, fun _ _ => rfl, fun _ _ => rfl⟩).mpr
    (@clears_of_first _ _ _ _ 0 (fun _ _ => rfl) (by decide +kernel))

/-- The DLQ fails at the first readings. -/
def lateDlq : Env cpython :=
  { mappedEnv narrowLimits with dlqPublish := fun n => decide (8 ≤ n) }

theorem classify_of_legacyMap {env env' : Env lim} (h : env.legacyMap = env'.legacyMap) (payload : Bytes) :
    classify env payload = classify env' payload := by
  unfold classify
  rw [h]

theorem succeeds_lateDlq : Succeeds lateDlq 8 :=
  ⟨fun _ _ => rfl, fun _ _ => rfl, fun _ hn => decide_eq_true hn, fun _ _ => rfl⟩

/-- A tombstone, and a sample that is frozen behind it. -/
def wedged : Mapper :=
  sampleTaken lateDlq 1 (tombstoneTurn lateDlq 0 (onAssign {historicPartition} (Mapper.start lateDlq)))

theorem not_advances_of_frozen {polls : List Poll} (hlen : polls.length = m.remainingGroups.length + 1)
    (h : ∀ k ∈ List.range (polls.length + 1), (turns env (polls.take k) m).frozenFlush.isSome = true) :
    ¬ Advances env m := by
  intro hadvances
  obtain ⟨k, hle, hnone, -⟩ := hadvances.clears polls hlen
  have hsome := h k (List.mem_range.mpr (Nat.lt_succ_of_le hle))
  rw [hnone] at hsome
  cases hsome

/-- The rejected tombstone comes first and is not tried again: the flush stays. -/
theorem flush_wedged : ¬ ∀ (env : Env cpython) (m : Mapper), (lifecycle env).Reachable m →
    ∀ flush, m.frozenFlush = some flush → Succeeds env m.ticks → Advances env m := by
  intro h
  have hfrozen : 8 ≤ wedged.ticks ∧ wedged.frozenFlush.isSome = true := by decide +kernel
  have htombstone : ((lifecycle lateDlq).restrict fun _ _ => True).Reachable
      (tombstoneTurn lateDlq 0 (onAssign {historicPartition} (Mapper.start lateDlq))) := by
    refine .step (i := .run (.message (tombstone 0))) (.init ⟨_, rfl⟩) ⟨trivial, fun msg hmsg => ?_, rfl⟩
    injection hmsg with hmsg
    rw [← hmsg]
    exact fun o ho => absurd ho List.not_mem_nil
  have hmap : lateDlq.legacyMap = (mappedEnv narrowLimits).legacyMap := rfl
  have hreach : (lifecycle lateDlq).Reachable wedged :=
    reachable_sampleTaken htombstone (by decide +kernel)
      ((classify_of_legacyMap hmap _).trans (classify_sample narrowLimits (by norm_num) portable_seconds)) trivial
  have hadvances := h lateDlq wedged hreach _ (Option.some_get hfrozen.2).symm (succeeds_lateDlq.later hfrozen.1)
  exact @not_advances_of_frozen _ lateDlq wedged [.none, .none] (by decide +kernel) (by decide +kernel) hadvances

end Uns
