/-
# `Datalake.CustodyRuns` — every turn of the loop keeps custody

Each function of the mapper, from a state in custody, ends in one: the leaf
functions by an equation for what they do, the others by a triple.  What is said
of a raise is more than custody: an `unknown offset` comes only after a commit
that directly followed a rejection was refused (`Fails`).
-/
import UnifiedNamespace.Datalake.Custody

namespace Uns

open Py Lib
open Eff (state change raise Spec Keeps Frames)

variable {lim : Limits} {env : Env lim}
variable {since : PartitionKey → List Nat} {clean out : Coord → Prop} {m : Mapper}

/-- The state after a raise. -/
structure Fails (since : PartitionKey → List Nat) (e : MapperRaised) (m : Mapper) : Prop where
  kept : Kept since m
  blame : e = .ledger .unknownOffset → ¬ Honoured m.trace

/-! ## Resolving -/

theorem resolve_apply {key : PartitionKey} {o : Nat} {p : ConsumedPrefix}
    (hp : (m.consumedPrefixes key).resolve o = .ok p) :
    resolve key o m =
      (.ok (), { m.setPrefix key p with trace := .resolved (key, o) :: m.trace }) := by
  unfold resolve onPrefix
  simp only [Eff.bind_apply, Eff.state, hp]
  rfl

theorem resolve_unknown {key : PartitionKey} {o : Nat} (ho : o ∉ (m.consumedPrefixes key).observed) :
    resolve key o m = (.error (.ledger .unknownOffset), m) := by
  have hp : (m.consumedPrefixes key).resolve o = .error .unknownOffset := dif_neg ho
  unfold resolve onPrefix
  simp only [Eff.bind_apply, Eff.state, hp]
  rfl

/-- What resolving records does: they are resolved, the ledgers observe what they did, and the rest
of the state is as it was. -/
structure Resolves (key : PartitionKey) (rs : List LakeRecord) (m t : Mapper) : Prop where
  work : t.work = m.work
  observed : ∀ k, (t.consumedPrefixes k).observed = (m.consumedPrefixes k).observed
  resolved : ∀ k o, o ∈ (t.consumedPrefixes k).resolved ↔
    o ∈ (m.consumedPrefixes k).resolved ∨ (k = key ∧ o ∈ rs.map LakeRecord.offset)
  logged : ∀ r ∈ rs, .resolved (key, r.offset) ∈ sinceAssigned t.trace
  trace : ∀ e ∈ sinceAssigned m.trace, e ∈ sinceAssigned t.trace

theorem resolveRecords_apply (key : PartitionKey) (rs : List LakeRecord) {m : Mapper}
    (h : Custody since clean out m)
    (hrs : ∀ r ∈ rs, r.offset ∈ (m.consumedPrefixes key).observed ∧ out (key, r.offset) ∧
      ∀ s ∈ m.pendingRejections, s.coord ≠ (key, r.offset)) :
    ∃ t, resolveRecords key rs m = (.ok (), t) ∧ Custody since clean out t ∧ Resolves key rs m t := by
  induction rs generalizing m with
  | nil => exact ⟨m, rfl, h, ⟨rfl, fun _ => rfl, by simp, by simp, fun _ he => he⟩⟩
  | cons r rs ih =>
      obtain ⟨hobs, hout, hpending⟩ := hrs r List.mem_cons_self
      obtain ⟨p, hp⟩ := ConsumedPrefix.resolve_of_mem hobs
      obtain ⟨-, hpobs, hpres⟩ := ConsumedPrefix.resolve_ok hp
      have hstep := h.resolve hp (fun _ => hout) fun s hs _ => hpending s hs
      have hobserved : ∀ k, ((m.setPrefix key p).consumedPrefixes k).observed =
          (m.consumedPrefixes k).observed := by
        intro k
        by_cases hk : k = key
        · subst hk
          rw [Mapper.setPrefix_self, hpobs]
        · rw [Mapper.setPrefix_ne _ _ hk]
      obtain ⟨t, ht, hcustody, hres⟩ := ih hstep fun s hs => by
        obtain ⟨hs₁, hs₂, hs₃⟩ := hrs s (List.mem_cons_of_mem _ hs)
        exact ⟨(hobserved key).symm ▸ hs₁, hs₂, hs₃⟩
      refine ⟨t, ?_, hcustody, ?_⟩
      · rw [resolveRecords, Eff.bind_of_ok (resolve_apply hp), ht]
      · exact {
          work := hres.work
          observed := fun k => (hres.observed k).trans (hobserved k)
          resolved := fun k o => by
            rw [hres.resolved, List.map_cons, List.mem_cons]
            change o ∈ ((m.setPrefix key p).consumedPrefixes k).resolved ∨ _ ↔ _
            by_cases hk : k = key
            · subst hk
              rw [Mapper.setPrefix_self, hpres, Finset.mem_insert]
              tauto
            · rw [Mapper.setPrefix_ne _ _ hk]
              tauto
          logged := fun s hs => by
            rcases List.mem_cons.mp hs with rfl | hs
            · exact hres.trace _ List.mem_cons_self
            · exact hres.logged s hs
          trace := fun e he => hres.trace e (List.mem_cons_of_mem _ he) }

/-! ## Commits -/

/-- The state after the broker was asked for a commit. -/
def Mapper.asked (env : Env lim) (m : Mapper) (key : PartitionKey) (n : Nat) : Mapper :=
  { m with ticks := m.ticks + 1, trace := .committed key n (env.commit m.ticks) :: m.trace }

theorem consumerCommit_apply (key : PartitionKey) (n : Nat) :
    consumerCommit env key n m = (.ok (env.commit m.ticks), m.asked env key n) := rfl

theorem discardCommitted_apply {key : PartitionKey} {n : Nat} {p : ConsumedPrefix}
    (hp : (m.consumedPrefixes key).discardCommitted n = .ok p) :
    discardCommitted key n m = (.ok (), m.setPrefix key p) := by
  unfold discardCommitted onPrefix
  simp only [Eff.bind_apply, Eff.state, hp]
  rfl

theorem inspect_eq_nil {result : Option (List (Nat × Option Int))} :
    inspectCommitResult result = [] ↔ (CommitAnswer.returned result).succeeded = true := by
  simp only [CommitAnswer.succeeded, List.isEmpty_iff]

/-- What a commit of the ready prefix does. -/
theorem tryCommitReadyPrefix_cases (env : Env lim) (key : PartitionKey)
    (hown : m.ownershipActive = true ∧ m.revoked = false) :
    tryCommitReadyPrefix env key m = (.ok true, m) ∨
      ∃ n, (m.consumedPrefixes key).nextOffset = some n ∧
        ((env.commit m.ticks).succeeded = false ∧
            (tryCommitReadyPrefix env key m = (.error .commitRaised, m.asked env key n) ∨
              tryCommitReadyPrefix env key m = (.ok false, m.asked env key n)) ∨
          ∃ p, (m.consumedPrefixes key).discardCommitted n = .ok p ∧
            tryCommitReadyPrefix env key m = (.ok true, (m.asked env key n).setPrefix key p)) := by
  have hmay : mayCommitKafka m.ownershipActive m.revoked ≠ false := by
    rw [hown.1, hown.2]
    decide
  unfold tryCommitReadyPrefix
  rw [Eff.state_bind]
  by_cases hf : m.frozenFlush.isSome = true
  · rw [if_pos hf]
    exact .inl rfl
  · rw [if_neg hf]
    cases hn : (m.consumedPrefixes key).nextOffset with
    | none => exact .inl rfl
    | some n =>
        refine .inr ⟨n, rfl, ?_⟩
        simp only [if_neg hmay, commitPartition, Eff.state_bind]
        rw [Eff.bind_of_ok (consumerCommit_apply key n)]
        cases ha : env.commit m.ticks with
        | raised => exact .inl ⟨rfl, .inl rfl⟩
        | returned result =>
            by_cases hr : inspectCommitResult result = []
            · obtain ⟨p, hp⟩ := ConsumedPrefix.discardCommitted_of_pos
                (p := m.consumedPrefixes key) (ConsumedPrefix.nextOffset_pos hn)
              refine .inr ⟨p, hp, ?_⟩
              have hdiscard := @discardCommitted_apply (m.asked env key n) key n p hp
              simp only [hr, ne_eq, not_true_eq_false, if_false]
              exact Eff.bind_of_ok hdiscard _
            · refine .inl ⟨?_, .inr ?_⟩
              · exact Bool.eq_false_iff.mpr fun hs => hr (inspect_eq_nil.mpr hs)
              · simp only [ne_eq, hr, not_false_eq_true, if_true]
                rfl

theorem not_honoured {key : PartitionKey} {n : Nat} (hf : (env.commit m.ticks).succeeded = false)
    (hafter : afterRejection m.trace = true) : ¬ Honoured (m.asked env key n).trace := by
  intro hh
  rw [hh.1 hafter] at hf
  cases hf

theorem custody_tryCommitReadyPrefix (h : Custody since clean out m) (key : PartitionKey) :
    Spec (fun s => s = m) (tryCommitReadyPrefix env key)
      (fun committed t => Custody since clean out t ∧
        (committed = false → afterRejection m.trace = true → ¬ Honoured t.trace))
      (fun e t => e = .commitRaised ∧ Custody since clean out t ∧
        (afterRejection m.trace = true → ¬ Honoured t.trace)) := by
  intro s hs
  subst s
  rcases tryCommitReadyPrefix_cases env key h.owner with he | ⟨n, hn, ⟨hf, he | he⟩ | ⟨p, hp, he⟩⟩
  · rw [he]
    exact ⟨h, fun hc => absurd hc.symm Bool.false_ne_true⟩
  · rw [he]
    exact ⟨rfl, h.logCommit key n _ _, not_honoured hf⟩
  · rw [he]
    exact ⟨h.logCommit key n _ _, fun _ => not_honoured hf⟩
  · rw [he]
    refine ⟨(h.logCommit key n _ _).discard hp ?_, fun hc => absurd hc.symm Bool.false_ne_true⟩
    exact fun o ho hlt => ConsumedPrefix.resolved_of_lt_nextOffset hn ho hlt

theorem frames_commitPartition (key : PartitionKey) (n : Nat) :
    Frames Mapper.work (commitPartition env key n) := by
  refine Frames.state_bind fun m => Frames.ite (Frames.pure _) ?_
  refine Frames.bind (frames_consumerCommit env key n) fun answer => ?_
  cases answer with
  | raised => exact Frames.raise _
  | returned result =>
      exact Frames.ite (Frames.pure _)
        (Frames.bind (frames_onPrefix key _) fun _ => Frames.pure _)

theorem frames_tryCommitReadyPrefix (key : PartitionKey) :
    Frames Mapper.work (tryCommitReadyPrefix env key) := by
  refine Frames.state_bind fun m => Frames.ite (Frames.pure _) ?_
  split
  · exact Frames.pure _
  · exact Frames.ite (Frames.pure _) (frames_commitPartition key _)

/-! ## Rejections -/

/-- A publication that was not even attempted, or one answer of the DLQ. -/
theorem publishRejection_cases (env : Env lim) (m : Mapper) (r : PendingRejection) :
    publishRejection env r m = (.ok false, { m with ticks := m.ticks + 1 }) ∨
      publishRejection env r m = (.ok (env.dlqPublish m.ticks),
        { m with
          ticks := m.ticks + 1
          trace := .dlqPublished r (env.dlqPublish m.ticks) :: m.trace }) := by
  unfold publishRejection
  simp only [Eff.bind_apply, tick, Eff.state, Eff.change, Eff.pure_apply]
  cases utf8Encode r.kafkaTopic with
  | none => exact .inl rfl
  | some topic =>
      cases encodeRejection lim (rejectionRecord r (env.now m.ticks)) with
      | error e => exact .inl rfl
      | ok value => exact .inr rfl

theorem frames_advanceRejection (r : PendingRejection) :
    Frames Mapper.work (advanceRejection env r) := by
  have hpublish : Frames Mapper.work (publishRejection env r) := by
    intro m
    rcases publishRejection_cases env m r with he | he <;> rw [he] <;> rfl
  refine Frames.state_bind fun m => Frames.ite (Frames.pure _) (Frames.bind hpublish fun delivered => ?_)
  refine Frames.ite (Frames.pure _) (Frames.bind (frames_resolve _ _) fun _ => ?_)
  exact Frames.bind (frames_tryCommitReadyPrefix _) fun _ => Frames.pure _

/-- One turn of the loop: a rejection that is done is not clean any more, the others stay so. -/
theorem custody_advanceRejection (h : Custody since clean (fun _ => False) m) {r : PendingRejection}
    (hr : r ∈ m.pendingRejections) (hclean : clean r.coord) :
    Spec (fun s => s = m) (advanceRejection env r)
      (fun remains t => ∃ clean', Custody since clean' (fun _ => False) t ∧
        (∀ c, clean c → c ≠ r.coord → clean' c) ∧ (remains = true → clean' r.coord))
      (Fails since) := by
  refine Spec.state_bind fun s hs => ?_
  subst s
  refine Spec.ite (fun _ => Spec.pure fun t ht => ht ▸ ⟨clean, h, fun _ hc _ => hc, fun _ => hclean⟩)
    fun _ => ?_
  intro s hs
  subst s
  rcases publishRejection_cases env m r with he | he
  · rw [Eff.bind_of_ok he]
    exact ⟨clean, h.ticks _, fun _ hc _ => hc, fun _ => hclean⟩
  · rw [Eff.bind_of_ok he]
    have hlog := h.logDlq hr hclean (m.ticks + 1) (env.dlqPublish m.ticks)
    cases hd : env.dlqPublish m.ticks with
    | false =>
        rw [hd] at hlog
        exact ⟨_, hlog, fun _ hc _ => ⟨hc, fun hf => absurd hf Bool.false_ne_true⟩,
          fun _ => ⟨hclean, fun hf => absurd hf Bool.false_ne_true⟩⟩
    | true =>
        rw [hd] at hlog
        by_cases hobs : r.offset ∈ (m.consumedPrefixes r.partitionKey).observed
        · obtain ⟨p, hp⟩ := ConsumedPrefix.resolve_of_mem hobs
          have hresolved := @Custody.resolve _ _ _ _ hlog r.partitionKey r.offset p hp ?_
            fun s _ hc => hc.2 rfl
          · have hcommit := @custody_tryCommitReadyPrefix _ env _ _ _ _ hresolved r.partitionKey _ rfl
            have happly := @resolve_apply { m with
              ticks := m.ticks + 1
              trace := .dlqPublished r true :: m.trace } r.partitionKey r.offset p hp
            simp only [Bool.not_true, Bool.false_eq_true, if_false]
            rw [Eff.bind_of_ok happly, Eff.bind_apply]
            revert hcommit
            rcases tryCommitReadyPrefix env r.partitionKey _ with ⟨e | committed, t⟩
            · rintro ⟨rfl, hc, hdirty⟩
              exact ⟨hc.dirty (hdirty rfl) _, fun he => by cases he⟩
            · rintro ⟨hc, hdirty⟩
              cases committed with
              | true => exact ⟨_, hc, fun c hcl hne => ⟨hcl, fun _ => hne⟩, fun hf => by cases hf⟩
              | false => exact ⟨clean, hc.dirty (hdirty rfl rfl) _, fun c hcl _ => hcl, fun _ => hclean⟩
          · intro hlive
            have hzero := h.pending_free r hr
            have hle := liveCount_le m r.coord
            change 0 < m.liveCount r.coord at hlive
            omega
        · -- the ledger has forgotten the offset, so a refused commit kept the rejection
          have hdirty : ¬ Honoured m.trace := fun hh => hobs (h.unpublished hh r hr hclean).1.1
          have happly := @resolve_unknown { m with
            ticks := m.ticks + 1
            trace := .dlqPublished r true :: m.trace } r.partitionKey r.offset hobs
          simp only [Bool.not_true, Bool.false_eq_true, if_false]
          rw [Eff.bind_of_error happly]
          exact ⟨hlog.dirty hdirty _, fun _ => hdirty⟩

/-- The loop: what remains is clean, and so is what it did not look at. -/
theorem custody_advanceRejections (rs : List PendingRejection) {clean : Coord → Prop} {m : Mapper}
    (h : Custody since clean (fun _ => False) m)
    (hrs : ∀ r ∈ rs, r ∈ m.pendingRejections ∧ clean r.coord)
    (hnodup : (rs.map PendingRejection.coord).Nodup) :
    Spec (fun s => s = m) (advanceRejections env rs)
      (fun remaining t => ∃ clean', Custody since clean' (fun _ => False) t ∧
        (∀ r ∈ remaining, clean' r.coord) ∧ remaining.Sublist rs ∧
        ∀ c, clean c → (∀ r ∈ rs, c ≠ r.coord) → clean' c)
      (Fails since) := by
  induction rs generalizing clean m with
  | nil =>
      exact Spec.pure fun s hs => ⟨clean, hs ▸ h, fun _ hr => absurd hr List.not_mem_nil,
        List.Sublist.refl _, fun _ hc _ => hc⟩
  | cons r rs ih =>
      rw [List.map_cons, List.nodup_cons] at hnodup
      have hne : ∀ s ∈ rs, s.coord ≠ r.coord := fun s hs he =>
        hnodup.1 (he ▸ List.mem_map_of_mem hs)
      obtain ⟨hr, hclean⟩ := hrs r List.mem_cons_self
      have hhead := (@custody_advanceRejection _ env _ _ _ h r hr hclean).frame
        ((frames_advanceRejection r).comp Mapper.pendingRejections) m.pendingRejections
      refine Spec.bind (hhead.conseq (fun s hs => ⟨hs, hs ▸ rfl⟩) (fun _ _ h => h) fun _ _ h => h.1)
        fun remains => Spec.of_point fun t ht => ?_
      obtain ⟨⟨clean', hc, hkeep, hremains⟩, hpending⟩ := ht
      refine Spec.bind (ih hc (fun s hs => ?_) hnodup.2) fun remaining => ?_
      · obtain ⟨hs', hcs⟩ := hrs s (List.mem_cons_of_mem _ hs)
        exact ⟨hpending ▸ hs', hkeep _ hcs (hne s hs)⟩
      · refine Spec.pure fun t ⟨clean'', hc', hall, hsub, hrest⟩ => ⟨clean'', hc', ?_, ?_, ?_⟩
        · split
          · rename_i hr'
            exact List.forall_mem_cons.mpr
              ⟨hrest _ (hremains hr') fun s hs he => hne s hs he.symm, hall⟩
          · exact hall
        · split
          · exact hsub.cons_cons r
          · exact hsub.cons r
        · intro c hcl hcs
          exact hrest c (hkeep c hcl (hcs r List.mem_cons_self))
            fun s hs => hcs s (List.mem_cons_of_mem _ hs)

theorem frames_advanceRejections (rs : List PendingRejection) :
    Frames Mapper.work (advanceRejections env rs) := by
  induction rs with
  | nil => exact Frames.pure _
  | cons r rs ih =>
      exact Frames.bind (frames_advanceRejection r) fun _ => Frames.bind ih fun _ => Frames.pure _

theorem custody_tryAdvanceRejections :
    Spec (Kept since) (tryAdvanceRejections env) (fun _ => Kept since) (Fails since) := by
  refine Spec.state_bind fun m hm => ?_
  have hloop := (@custody_advanceRejections _ env _ m.pendingRejections _ _ hm
    (fun r hr => ⟨hr, trivial⟩) hm.pending_nodup).frame
    ((frames_advanceRejections m.pendingRejections).comp Mapper.pendingRejections) m.pendingRejections
  refine Spec.bind (hloop.conseq (fun s hs => ⟨hs, hs ▸ rfl⟩) (fun _ _ h => h) fun _ _ h => h.1)
    fun remaining => Spec.change_bind (S := Kept since) (fun t ht => ?_) (Spec.pure fun _ h => h)
  obtain ⟨⟨clean', hc, hall, hsub, -⟩, hpending⟩ := ht
  exact hc.setPending (hpending ▸ hsub) hall

/-! ## Flushing -/

theorem Custody.eligible (h : Custody since clean out m) (key : PartitionKey) :
    ∀ r ∈ (m.batch.buffer key).records, isArchiveEligible r.envelope = true := by
  intro r hr
  cases hb : m.batch.buffers.get? key with
  | none =>
      rw [BatchManager.buffer, hb] at hr
      cases hr
  | some buffer =>
      rw [BatchManager.buffer, hb] at hr
      exact (h.buffered _ (Dict.mem_of_get? hb) r hr).1

/-- Popping an empty buffer. -/
def Mapper.popped (m : Mapper) (key : PartitionKey) : Mapper :=
  { m with batch := (m.batch.popPartition key).2 }

theorem held_popped {key : PartitionKey} (he : (m.batch.buffer key).isEmpty = true) (c : Coord) :
    (m.popped key).batch.held c = m.batch.held c := by
  have h := m.batch.held_popPartition key c
  rw [BatchManager.popPartition, List.isEmpty_iff.mp he] at h
  exact h

theorem Custody.popped (h : Custody since clean out m) {key : PartitionKey}
    (he : (m.batch.buffer key).isEmpty = true) : Custody since clean out (m.popped key) := by
  have hheld : ∀ c, (m.popped key).heldCount c = m.heldCount c :=
    fun c => congrArg (· + _) (held_popped he c)
  have hlive : ∀ c, (m.popped key).liveCount c = m.liveCount c :=
    fun c => congrArg (· + _) (held_popped he c)
  exact { h with
    buffered := fun e hmem => h.buffered e (Dict.mem_entries_erase hmem)
    once := fun c => hheld c ▸ h.once c
    live := fun c hc => h.live c (hlive c ▸ hc)
    held_since := fun c hc => h.held_since c (hheld c ▸ hc)
    pending_free := fun r hr => (hheld _).trans (h.pending_free r hr)
    accounted := fun hn r hr => (h.accounted hn r hr).imp_right fun hone => (hheld _).trans hone }

/-- Without a forced partition: nothing, or one partition is frozen. -/
theorem flushChosen_cases (env : Env lim) (h : Custody since clean out m) :
    (m.batch.chooseFlushPartition (env.monotonic m.ticks) = none ∧
        flushChosen env m = (.ok (), { m with ticks := m.ticks + 1 })) ∨
      ∃ key, m.batch.chooseFlushPartition (env.monotonic m.ticks) = some key ∧
        flushChosen env m = (.ok (), { m with ticks := m.ticks + 1 }.flushed env key) := by
  unfold flushChosen
  simp only [Eff.bind_apply, tick, Eff.state, Eff.change, Eff.pure_apply]
  cases hc : m.batch.chooseFlushPartition (env.monotonic m.ticks) with
  | none => exact .inl ⟨rfl, rfl⟩
  | some key =>
      have hflush := flushPartition_apply (m := { m with ticks := m.ticks + 1 }) env
        (h.eligible key) (not_isEmpty_of_choose hc)
      exact .inr ⟨key, rfl, Eff.bind_of_ok hflush _⟩

/-- With one: it is frozen, or it was empty and another may be. -/
theorem flushReadyPartitions_cases (env : Env lim) (h : Custody since clean out m)
    (key : PartitionKey) :
    ((m.batch.buffer key).isEmpty = false ∧
        flushReadyPartitions env (some key) m = (.ok (), m.flushed env key)) ∨
      ((m.batch.buffer key).isEmpty = true ∧
        flushReadyPartitions env (some key) m = flushChosen env (m.popped key)) := by
  cases he : (m.batch.buffer key).isEmpty with
  | false => exact .inl ⟨rfl, Eff.bind_of_ok (flushPartition_apply env (h.eligible key) he) _⟩
  | true =>
      have hflush : flushPartition env key m = (.ok false, m.popped key) := by
        unfold flushPartition
        rw [Eff.state_bind, Eff.change_bind]
        change (if (m.batch.buffer key).isEmpty = true then _ else _ : Action Bool) _ = _
        rw [if_pos he]
        rfl
      exact .inr ⟨rfl, Eff.bind_of_ok hflush _⟩

/-- What holds of a state in custody and survives ticks, pops of empty buffers and freezing survives
a flush. -/
theorem custody_flushReadyPartitions {R : Mapper → Prop}
    (hticks : ∀ m n, Kept since m → R m → R { m with ticks := n })
    (hpop : ∀ m key, Kept since m → (m.batch.buffer key).isEmpty = true → R m → R (m.popped key))
    (hflush : ∀ m key, Kept since m → R m → R (m.flushed env key)) (force : Option PartitionKey) :
    Spec (fun m => Kept since m ∧ R m) (flushReadyPartitions env force)
      (fun _ m => Kept since m ∧ R m) (fun _ _ => False) := by
  have hchosen : Spec (fun m => Kept since m ∧ R m) (flushChosen env)
      (fun _ m => Kept since m ∧ R m) (fun _ _ => False) := by
    intro m ⟨h, hR⟩
    rcases flushChosen_cases env h with ⟨-, he⟩ | ⟨key, -, he⟩
    · rw [he]
      exact ⟨h.ticks _, hticks m _ h hR⟩
    · rw [he]
      exact ⟨(h.ticks _).flushed env key, hflush _ key (h.ticks _) (hticks m _ h hR)⟩
  cases force with
  | none => exact hchosen
  | some key =>
      intro m ⟨h, hR⟩
      rcases flushReadyPartitions_cases env h key with ⟨-, he⟩ | ⟨hempty, he⟩
      · rw [he]
        exact ⟨h.flushed env key, hflush m key h hR⟩
      · rw [he]
        exact hchosen _ ⟨h.popped hempty, hpop m key h hempty hR⟩

theorem Fresh.flushed {c : Coord} (hf : Fresh m c) (key : PartitionKey) :
    Fresh (m.flushed env key) c where
  unresolved := hf.unresolved
  free := by
    have hle : (m.flushed env key).heldCount c ≤ m.heldCount c := by
      have hheld : (m.flushed env key).heldCount c = m.batch.held c :=
        (congrArg _ (count_freezePartitionRecords c key _ _ _)).trans
          (m.batch.held_popPartition key c)
      rw [hheld]
      exact Nat.le_add_right _ _
    have := hf.free
    omega
  not_pending := hf.not_pending
  unpublished r hr := hf.unpublished r ((List.mem_cons.mp hr).resolve_left (by simp))

theorem Fresh.popped {c : Coord} (hf : Fresh m c) {key : PartitionKey}
    (he : (m.batch.buffer key).isEmpty = true) : Fresh (m.popped key) c where
  unresolved := hf.unresolved
  free := (congrArg (· + _) (held_popped he c)).trans hf.free
  not_pending := hf.not_pending
  unpublished := hf.unpublished

theorem Fresh.ticks {c : Coord} (hf : Fresh m c) (n : Nat) : Fresh { m with ticks := n } c :=
  ⟨hf.unresolved, hf.free, hf.not_pending, hf.unpublished⟩

theorem custody_flush_fresh (c : Coord) (force : Option PartitionKey) :
    Spec (fun m => Kept since m ∧ Fresh m c) (flushReadyPartitions env force)
      (fun _ m => Kept since m ∧ Fresh m c) (fun _ _ => False) :=
  custody_flushReadyPartitions (fun _ n _ hf => hf.ticks n) (fun _ _ _ he hf => hf.popped he)
    (fun _ key _ hf => hf.flushed key) force

theorem custody_flush (force : Option PartitionKey) :
    Spec (Kept since) (flushReadyPartitions env force) (fun _ => Kept since) (fun _ _ => False) :=
  (custody_flushReadyPartitions (R := fun _ => True) (fun _ _ _ _ => trivial)
    (fun _ _ _ _ _ => trivial) (fun _ _ _ _ => trivial) force).conseq (fun _ h => ⟨h, trivial⟩)
    (fun _ _ h => h.1) fun _ _ h => h

/-! ## The frozen flush -/

theorem custody_completeCommit {flush : FrozenPartitionFlush} {n : Nat} :
    Spec (fun m => Kept since m ∧ m.frozenFlush = some flush ∧ m.pendingCommitOffset = some n)
      (completeCommit env flush.partitionKey n) (fun _ => Kept since) (Fails since) := by
  refine Spec.state_bind fun m ⟨h, hf, hn⟩ => ?_
  have hmay : mayCommitKafka m.ownershipActive m.revoked ≠ false := by
    rw [h.owner.1, h.owner.2]
    decide
  have hgen : m.frozenGeneration = m.generation := h.generation (by rw [hf]; rfl)
  obtain ⟨hlen, hpos, hall⟩ := h.ready flush n hf hn
  rw [if_neg hmay, if_neg (not_not.mpr hgen)]
  intro s hs
  subst s
  rw [Eff.bind_of_ok (consumerCommit_apply flush.partitionKey n)]
  have hasked := h.logCommit flush.partitionKey n (m.ticks + 1) (env.commit m.ticks)
  cases ha : env.commit m.ticks with
  | raised => exact ⟨hasked, fun he => by cases he⟩
  | returned result =>
      dsimp only
      by_cases hr : inspectCommitResult result = []
      · rw [if_neg (not_not.mpr hr)]
        obtain ⟨p, hp⟩ := ConsumedPrefix.discardCommitted_of_pos
          (p := m.consumedPrefixes flush.partitionKey) hpos
        have hdiscard := @discardCommitted_apply (m.asked env flush.partitionKey n)
          flush.partitionKey n p hp
        rw [Eff.bind_of_ok hdiscard]
        refine custody_tryAdvanceRejections _ ?_
        refine (hasked.discard hp hall).thawed flush.partitionKey ?_
        change (m.frozenGroups).length ≤ m.groupIndex
        rw [Mapper.frozenGroups, hf]
        exact hlen
      · rw [if_pos hr]
        exact { hasked with }

theorem custody_commitResolved {flush : FrozenPartitionFlush} :
    Spec (fun m => Kept since m ∧ m.frozenFlush = some flush ∧
        flush.routeGroups.length ≤ m.groupIndex)
      (commitResolved env flush.partitionKey) (fun _ => Kept since) (Fails since) := by
  refine Spec.state_bind fun m ⟨h, hf, hlen⟩ => ?_
  cases hn : (m.consumedPrefixes flush.partitionKey).nextOffset with
  | none => exact Spec.pure fun s hs => hs ▸ h
  | some n =>
      refine Spec.change_bind (fun s hs => ?_) custody_completeCommit
      subst s
      exact ⟨h.setPendingCommit hf hlen hn, hf, rfl⟩

/-- The object of the group, and a state that differs in the object kept. -/
theorem encodeGroup_cases (env : Env lim) (m : Mapper) (flush : FrozenPartitionFlush)
    (group : FrozenRouteGroup) :
    encodeGroup env flush group m = (.error .encodeRaised, m) ∨
      ∃ object, encodeGroup env flush group m = (.ok object, { m with frozenObject := some object }) := by
  unfold encodeGroup
  rw [Eff.state_bind]
  cases ho : m.frozenObject with
  | some object =>
      refine .inr ⟨object, ?_⟩
      change (Except.ok object, m) = _
      rw [← ho]
  | none =>
      cases hp : env.recordsToParquet group.records flush.flushId with
      | none => exact .inl rfl
      | some data => exact .inr ⟨_, rfl⟩

theorem custody_storeExact (object : FrozenObject) :
    Spec (Custody since clean out) (storeExact env object) (fun _ => Custody since clean out)
      (fun _ _ => False) := by
  refine Spec.bind (Q := fun _ => Custody since clean out) (fun m h => h.ticks _) fun n => ?_
  refine Spec.bind (Q := fun _ => Custody since clean out)
    (fun m h => h.logStore (.inl ⟨_, _, rfl⟩)) fun _ => ?_
  split
  · refine Spec.bind (Q := fun _ => Custody since clean out) (fun m h => h.ticks _) fun k => ?_
    exact Spec.bind (Q := fun _ => Custody since clean out)
      (fun m h => h.logStore (.inr ⟨_, _, rfl⟩)) fun _ => Spec.pure fun _ h => h
  · exact Spec.pure fun _ h => h

/-- The records of the current group are observed, and no rejection is one of them. -/
theorem Custody.group_observed (h : Kept since m) {flush : FrozenPartitionFlush}
    (hf : m.frozenFlush = some flush) {group : FrozenRouteGroup}
    (hgroup : flush.routeGroups[m.groupIndex]? = some group) {r : LakeRecord}
    (hr : r ∈ group.records) :
    r.coord = (flush.partitionKey, r.offset) ∧ Unresolved m r.coord ∧
      ∀ s ∈ m.pendingRejections, s.coord ≠ r.coord := by
  have hgroups : m.frozenGroups = flush.routeGroups := by rw [Mapper.frozenGroups, hf]
  have hmem : group ∈ m.remainingGroups := by
    obtain ⟨hlt, he⟩ := List.getElem?_eq_some_iff.mp hgroup
    rw [Mapper.remainingGroups, hgroups, List.drop_eq_getElem_cons hlt, he]
    exact List.mem_cons_self
  have hlive : 0 < m.liveCount r.coord :=
    lt_of_lt_of_le (countGroups_pos_of_mem hmem hr) (Nat.le_add_left _ _)
  refine ⟨Prod.ext (h.keyed flush hf group (List.mem_of_getElem? hgroup) r hr) rfl,
    (h.live _ hlive).resolve_left id, fun s hs he => ?_⟩
  have hzero := h.pending_free s hs
  have hle := liveCount_le m r.coord
  rw [he] at hzero
  omega

/-- The state after the current group was resolved. -/
theorem resolveGroup_apply (h : Kept since m) {flush : FrozenPartitionFlush}
    (hf : m.frozenFlush = some flush) {group : FrozenRouteGroup}
    (hgroup : flush.routeGroups[m.groupIndex]? = some group) :
    ∃ t, resolveRecords flush.partitionKey group.records m = (.ok (), t) ∧
      Kept since t.nextGroup ∧ Resolves flush.partitionKey group.records m t := by
  obtain ⟨t, ht, hc, hres⟩ := resolveRecords_apply flush.partitionKey group.records
    (h.widen fun c => ∃ r ∈ group.records, r.coord = c) fun r hr => by
      obtain ⟨hcoord, hu, hpending⟩ := h.group_observed hf hgroup hr
      exact ⟨by simpa only [hcoord] using hu.1, ⟨r, hr, hcoord⟩, by simpa only [hcoord] using hpending⟩
  have hflush : t.frozenFlush = m.frozenFlush := (congrArg Mapper.frozenFlush hres.work :)
  have hindex : t.groupIndex = m.groupIndex := (congrArg Mapper.groupIndex hres.work :)
  refine ⟨t, ht, hc.nextGroup ?_ fun r hr => ?_, hres⟩
  · rw [Mapper.frozenGroups, hflush, hf, hindex]
    exact hgroup
  · rw [(h.group_observed hf hgroup hr).1]
    exact hres.logged r hr

theorem custody_settleGroup {flush : FrozenPartitionFlush} (group : FrozenRouteGroup) :
    Spec (fun m => Kept since m ∧ m.frozenFlush = some flush ∧
        flush.routeGroups[m.groupIndex]? = some group)
      (settleGroup env flush group) (fun _ => Kept since) (Fails since) := by
  intro m ⟨h, hf, hgroup⟩
  obtain ⟨t, ht, hk, hres⟩ := resolveGroup_apply h hf hgroup
  have hft : t.frozenFlush = some flush := (congrArg Mapper.frozenFlush hres.work :).trans hf
  unfold settleGroup
  rw [Eff.bind_of_ok ht, Eff.change_bind, Eff.state_bind]
  by_cases hlen : flush.routeGroups.length ≤ t.nextGroup.groupIndex
  · rw [if_pos hlen]
    exact custody_commitResolved _ ⟨hk, hft, hlen⟩
  · rw [if_neg hlen]
    exact hk

theorem custody_publishGroup {flush : FrozenPartitionFlush} {group : FrozenRouteGroup} :
    Spec (fun m => Kept since m ∧ m.frozenFlush = some flush ∧
        flush.routeGroups[m.groupIndex]? = some group)
      (publishGroup env flush group) (fun _ => Kept since) (Fails since) := by
  refine Spec.of_point fun m ⟨h, hf, hgroup⟩ => ?_
  intro s hs
  subst s
  unfold publishGroup
  rcases encodeGroup_cases env m flush group with he | ⟨object, he⟩
  · rw [Eff.bind_of_error he]
    exact ⟨h, fun hx => by cases hx⟩
  · rw [Eff.bind_of_ok he]
    have hstore := ((@custody_storeExact lim env since (fun _ => True) (fun _ => False) object).frame
      ((frames_storeExact env object).comp fun w => (w.frozenFlush, w.groupIndex))
      (some flush, m.groupIndex))
    have hobject : Kept since { m with frozenObject := some object } := { h with }
    refine Spec.bind (hstore.conseq (fun s hs => hs) (fun _ _ h => h) fun _ _ h => h.1.elim)
      (fun answer => Spec.of_point fun t ht => ?_) _ ⟨hobject, Prod.ext hf rfl⟩
    obtain ⟨ht, hw⟩ := ht
    obtain ⟨hft, hit⟩ := Prod.mk.inj hw
    cases answer with
    | integrityError => exact Spec.pure fun s hs => hs ▸ ht
    | failed =>
        refine Spec.change_bind (S := Kept since) (fun s hs => ?_)
          (Spec.state_bind fun s hs => Spec.pure fun x hx => hx ▸ hs)
        subst s
        exact { ht with }
    | accepted =>
        have hit' : t.groupIndex = m.groupIndex := hit
        change Spec _ (settleGroup env flush group) _ _
        exact (custody_settleGroup group).conseq (fun s hs => hs ▸ ⟨ht, hft, hit' ▸ hgroup⟩)
          (fun _ _ h => h) fun _ _ h => h

theorem custody_advanceFrozenFlush {flush : FrozenPartitionFlush} :
    Spec (fun m => Kept since m ∧ m.frozenFlush = some flush) (advanceFrozenFlush env flush)
      (fun _ => Kept since) (Fails since) := by
  refine Spec.state_bind fun m ⟨h, hf⟩ => ?_
  have hgen : m.frozenGeneration = m.generation := h.generation (by rw [hf]; rfl)
  have hlost : ¬ (m.frozenGeneration ≠ m.generation ∨ m.revoked = true) := by
    rw [h.owner.2]
    simp [hgen]
  rw [if_neg hlost]
  cases hn : m.pendingCommitOffset with
  | some n =>
      exact custody_completeCommit.conseq (fun s hs => hs ▸ ⟨h, hf, hn⟩) (fun _ _ h => h) fun _ _ h => h
  | none =>
      dsimp only
      split
      · rename_i hend
        exact custody_commitResolved.conseq
          (fun s hs => hs ▸ ⟨h, hf, List.getElem?_eq_none_iff.mp hend⟩) (fun _ _ h => h)
          fun _ _ h => h
      · rename_i group hgroup
        exact custody_publishGroup.conseq (fun s hs => hs ▸ ⟨h, hf, hgroup⟩)
          (fun _ _ h => h) fun _ _ h => h

/-! ## Messages -/

theorem custody_rejectMessage {msg : Message} (reason : Str) :
    Spec (fun m => Kept since m ∧ Fresh m msg.coord) (rejectMessage env msg reason)
      (fun _ => Kept since) (Fails since) :=
  Spec.change_bind (fun _ h => h.1.reject h.2 reason) custody_tryAdvanceRejections

/-- The batch manager's answer, and the state after. -/
theorem tryAdd_cases (env : Env lim) (m : Mapper) (r : LakeRecord) :
    (m.batch.tryAdd (env.monotonic m.ticks r.partitionKey) r = none ∧
        tryAdd env r m = (.ok none, { m with ticks := m.ticks + 1 })) ∨
      (m.batch.tryAdd (env.monotonic m.ticks r.partitionKey) r = some (false, m.batch) ∧
        tryAdd env r m = (.ok (some false), { m with ticks := m.ticks + 1 })) ∨
      ∃ batch, m.batch.tryAdd (env.monotonic m.ticks r.partitionKey) r = some (true, batch) ∧
        batch = m.batch.add (env.monotonic m.ticks r.partitionKey) r ∧
        tryAdd env r m = (.ok (some true),
          { m with ticks := m.ticks + 1, batch := batch, trace := .buffered r :: m.trace }) := by
  unfold tryAdd
  simp only [Eff.bind_apply, tick, Eff.state, Eff.change, Eff.pure_apply]
  cases ha : m.batch.tryAdd (env.monotonic m.ticks r.partitionKey) r with
  | none => exact .inl ⟨rfl, rfl⟩
  | some answer =>
      obtain ⟨admitted, batch⟩ := answer
      cases admitted with
      | false => exact .inr (.inl ⟨by rw [BatchManager.tryAdd_false ha], rfl⟩)
      | true => exact .inr (.inr ⟨batch, rfl, BatchManager.tryAdd_true ha, rfl⟩)

theorem custody_afterBuffered :
    Spec (Kept since) (afterBuffered env) (fun _ => Kept since) (Fails since) :=
  Spec.bind ((custody_flush none).conseq (fun _ h => h) (fun _ _ h => h) fun _ _ h => h.elim)
    fun _ => custody_tryAdvanceRejections

theorem custody_admitRecord {msg : Message} {r : LakeRecord} (hcoord : r.coord = msg.coord)
    (hr : isArchiveEligible r.envelope = true ∧ r.envelopeBytes ≠ []) :
    Spec (fun m => Kept since m ∧ Fresh m msg.coord) (admitRecord env msg r)
      (fun _ => Kept since) (Fails since) := by
  -- both attempts to buffer end the same way when they succeed
  have hadd : ∀ m, Kept since m → Fresh m msg.coord → ∀ b : ℚ, Kept since
      { m with ticks := m.ticks + 1, batch := m.batch.add b r, trace := .buffered r :: m.trace } :=
    fun m h hf b => (h.ticks (m.ticks + 1)).add (hcoord ▸ hf.ticks (m.ticks + 1)) hr b
  intro m ⟨h, hf⟩
  unfold admitRecord
  rcases tryAdd_cases env m r with ⟨-, he⟩ | ⟨-, he⟩ | ⟨batch, -, rfl, he⟩
  · rw [Eff.bind_of_ok he]
    exact custody_rejectMessage _ _ ⟨h.ticks _, hf.ticks _⟩
  · rw [Eff.bind_of_ok he]
    refine Spec.bind ((custody_flush_fresh msg.coord (some r.partitionKey)).conseq (fun _ h => h)
      (fun _ _ h => h) fun _ _ h => h.elim) (fun _ t ⟨ht, hft⟩ => ?_) _ ⟨h.ticks _, hf.ticks _⟩
    rcases tryAdd_cases env t r with ⟨-, he⟩ | ⟨-, he⟩ | ⟨batch, -, rfl, he⟩
    · rw [Eff.bind_of_ok he]
      exact ⟨ht.ticks _, fun hx => by cases hx⟩
    · rw [Eff.bind_of_ok he]
      exact ht.ticks _
    · rw [Eff.bind_of_ok he]
      exact custody_afterBuffered _ (hadd t ht hft _)
  · rw [Eff.bind_of_ok he]
    exact custody_afterBuffered _ (hadd m h hf _)

theorem custody_handlePayload (msg : Message) :
    Spec (fun m => Kept since m ∧ Fresh m msg.coord) (handlePayload env msg) (fun _ => Kept since)
      (Fails since) := by
  unfold handlePayload
  cases hc : classify env msg.payload with
  | rejected reason => exact custody_rejectMessage reason
  | escapes e => exact Spec.raise fun m h => ⟨h.1, fun hx => by cases hx⟩
  | ineligible =>
      refine Spec.of_point fun m ⟨h, hf⟩ => ?_
      obtain ⟨p, hp⟩ := ConsumedPrefix.resolve_of_mem hf.unresolved.1
      have hresolved := h.resolve hp (fun hlive => ?_) fun r hr _ => hf.not_pending r hr
      · refine Spec.of_ok (resolve_apply hp) ?_
        exact (custody_tryCommitReadyPrefix hresolved msg.partitionKey).conseq (fun _ h => h)
          (fun _ _ h => h.1) fun e t ht => ⟨ht.2.1, fun hx => by rw [ht.1] at hx; cases hx⟩
      · have hle := liveCount_le m msg.coord
        have hfree := hf.free
        change 0 < m.liveCount msg.coord at hlive
        omega
  | eligible resolved =>
      refine custody_admitRecord rfl ⟨isArchiveEligible_of_classify hc, fun hnil => ?_⟩
      have hpayload : msg.payload = [] := hnil
      rw [hpayload, classify_nil] at hc
      cases hc

/-- A message handed over between flushes. -/
theorem custody_handleMessage (h : Kept since m) (hfree : m.frozenFlush = none) {msg : Message}
    (hinc : Increasing m msg) :
    Spec (fun s => s = m) (handleMessage env msg)
      (fun _ t => ∃ since', Kept since' t) (fun e t => ∃ since', Fails since' e t) := by
  obtain ⟨p, hp, hk, hf⟩ := h.handed hfree hinc
  intro s hs
  subst s
  rw [handleMessage_of_observe env hp]
  exact (custody_handlePayload msg).conseq (fun _ h => h) (fun _ _ h => ⟨_, h⟩) (fun _ _ h => ⟨_, h⟩)
    _ ⟨hk, hf⟩

/-! ## Turns -/

/-- The poll is reached with nothing frozen. -/
theorem custody_untilPoll :
    Spec (Kept since) (untilPoll env)
      (fun result t => Kept since t ∧ (result = none → t.frozenFlush = none)) (Fails since) := by
  refine Spec.state_bind fun m h => ?_
  cases hf : m.frozenFlush with
  | some flush =>
      exact Spec.bind (custody_advanceFrozenFlush.conseq (fun s hs => hs ▸ ⟨h, hf⟩) (fun _ _ h => h)
        fun _ _ h => h) fun _ => Spec.pure fun s hs => ⟨hs, fun hx => by cases hx⟩
  | none =>
      refine Spec.bind ((custody_flush none).conseq (fun s hs => hs ▸ h) (fun _ _ h => h)
        fun _ _ h => h.elim) fun _ => Spec.bind custody_tryAdvanceRejections fun _ => ?_
      refine Spec.ite (fun _ => Spec.pure fun s hs => ⟨hs, fun hx => by cases hx⟩) fun _ =>
        Spec.state_bind fun t ht => Spec.pure fun s hs => ?_
      subst s
      refine ⟨ht, fun hx => ?_⟩
      cases hft : t.frozenFlush with
      | none => rfl
      | some flush =>
          rw [hft] at hx
          cases hx

theorem Kept.increasing {since : PartitionKey → List Nat} {m m' : Mapper} (h : Kept since m)
    (h' : Kept since m') {msg : Message} (hinc : Increasing m msg) : Increasing m' msg := by
  intro o ho
  rw [h'.since_eq, ← h.since_eq] at ho
  exact hinc o ho

theorem custody_runOnce (h : Kept since m) {poll : Poll}
    (hinc : ∀ msg, poll = .message msg → Increasing m msg) :
    Spec (fun s => s = m) (runOnce env poll)
      (fun _ t => ∃ since', Kept since' t) (fun e t => ∃ since', Fails since' e t) := by
  refine Spec.bind (custody_untilPoll.conseq (fun s hs => hs ▸ h) (fun _ _ h => h)
    fun _ _ h => ⟨_, h⟩) fun result => Spec.of_point fun t ⟨ht, hfree⟩ => ?_
  cases result with
  | some result => exact Spec.pure fun s hs => hs ▸ ⟨since, ht⟩
  | none =>
      cases poll with
      | message msg =>
          exact custody_handleMessage ht (hfree rfl) (h.increasing ht (hinc msg rfl))
      | none => exact Spec.pure fun s hs => hs ▸ ⟨since, ht⟩
      | partitionEof => exact Spec.pure fun s hs => hs ▸ ⟨since, ht⟩
      | offsetOutOfRange => exact Spec.pure fun s hs => hs ▸ ⟨since, ht⟩
      | error => exact Spec.pure fun s hs => hs ▸ ⟨since, ht⟩

/-- A mapper with no message in it. -/
structure Quiescent (m : Mapper) : Prop where
  empty : ∀ e ∈ m.batch.buffers.entries, e.2.records = []
  pendingBytes : m.batch.pendingRecordBytes = 0
  thawed : m.frozenFlush = none
  pending : m.pendingRejections = []
  published : Honoured m.trace → DlqOnce m.trace

/-- An assignment of a mapper with no message in it. -/
theorem Quiescent.kept (h : Quiescent m) (partitions : Finset PartitionKey) :
    Kept (fun _ => []) (onAssign partitions m) := by
  have hheld : ∀ c, (onAssign partitions m).heldCount c = 0 := by
    intro c
    have hbatch : m.batch.held c = 0 := by
      refine Dict.weight_eq_zero.mpr fun e he => ?_
      rw [h.empty e he]
      rfl
    change m.batch.held c + countGroups c m.frozenGroups = 0
    rw [hbatch, Mapper.frozenGroups, h.thawed]
    rfl
  have hnever : ∀ {c : Coord} {p : Prop}, 0 < (onAssign partitions m).heldCount c → p := by
    intro c p hc
    rw [hheld] at hc
    exact absurd hc (lt_irrefl 0)
  have hpending : ∀ {r : PendingRejection} {p : Prop},
      r ∈ (onAssign partitions m).pendingRejections → p := by
    intro r p hr
    have hr' : r ∈ m.pendingRejections := hr
    rw [h.pending] at hr'
    cases hr'
  have hthawed : ∀ {flush : FrozenPartitionFlush} {p : Prop},
      (onAssign partitions m).frozenFlush = some flush → p := by
    intro flush p hf
    have hf' : m.frozenFlush = some flush := hf
    rw [h.thawed] at hf'
    cases hf'
  exact {
    since_eq := fun _ => rfl
    observed := fun _ _ ho => absurd ho List.not_mem_nil
    dlq_since := fun _ _ hr => absurd hr List.not_mem_nil
    pendingBytes := h.pendingBytes
    buffered := fun e he r hr => by
      rw [h.empty e he] at hr
      cases hr
    once := fun c => by rw [hheld]; exact Nat.zero_le _
    live := fun c hc => hnever (lt_of_lt_of_le hc (liveCount_le _ c))
    held_since := fun _ hc => hnever hc
    pending_since := fun _ hr => hpending hr
    pending_free := fun _ hr => hpending hr
    pending_nodup := by
      change (m.pendingRejections.map PendingRejection.coord).Nodup
      rw [h.pending]
      exact List.nodup_nil
    keyed := fun _ hf => hthawed hf
    ready := fun _ _ hf => hthawed hf
    owner := ⟨rfl, rfl⟩
    generation := fun hf => by
      have hf' : m.frozenFlush.isSome = true := hf
      rw [h.thawed] at hf'
      cases hf'
    paused := fun hp => by cases hp
    frozen_trace := by
      change false = m.frozenFlush.isSome
      rw [h.thawed]
      rfl
    done := fun c hc => by
      refine hnever (c := c) (lt_of_lt_of_le hc ?_)
      refine le_trans ?_ (Nat.le_add_left _ _)
      have := countGroups_append c ((onAssign partitions m).frozenGroups.take m.groupIndex)
        ((onAssign partitions m).frozenGroups.drop m.groupIndex)
      rw [List.take_append_drop] at this
      exact this ▸ Nat.le_add_right _ _
    accounted := fun _ _ hr => absurd hr List.not_mem_nil
    published := h.published
    unpublished := fun _ _ hr => hpending hr }

theorem quiescent_start : Quiescent (Mapper.start env) :=
  ⟨fun _ he => absurd he List.not_mem_nil, rfl, rfl, rfl, fun _ => trivial⟩

/-- A revocation that does not raise. -/
theorem onRevoke_ok {partitions : Finset PartitionKey} (hok : (onRevoke partitions m).1 = .ok ()) :
    (m.batch.totalBufferedBytes = 0 ∧ m.pendingRejections = []) ∧
      (onRevoke partitions m).2.batch = m.batch ∧ (onRevoke partitions m).2.frozenFlush = none ∧
      (onRevoke partitions m).2.pendingRejections = m.pendingRejections ∧
      (onRevoke partitions m).2.trace = m.trace := by
  have hspec : Spec (fun s => s = m) (onRevoke partitions)
      (fun _ t => ¬ (0 < t.batch.totalBufferedBytes ∨ t.pendingRejections ≠ []) ∧
        t.batch = m.batch ∧ t.frozenFlush = none ∧ t.pendingRejections = m.pendingRejections ∧
        t.trace = m.trace) (fun _ _ => True) := by
    refine Spec.change_bind (S := fun t => t.batch = m.batch ∧
      t.pendingRejections = m.pendingRejections ∧ t.trace = m.trace)
      (fun s hs => hs ▸ ⟨rfl, rfl, rfl⟩) ?_
    refine Spec.change_bind (S := fun t => t.batch = m.batch ∧ t.frozenFlush = none ∧
      t.pendingRejections = m.pendingRejections ∧ t.trace = m.trace)
      (fun s hs => ⟨hs.1, rfl, hs.2⟩) ?_
    refine Spec.change_bind (S := fun t => t.batch = m.batch ∧ t.frozenFlush = none ∧
      t.pendingRejections = m.pendingRejections ∧ t.trace = m.trace) (fun s hs => hs)
      (Spec.state_bind fun t ht => ?_)
    exact Spec.ite (fun _ => Spec.raise fun _ _ => trivial) fun hc => Spec.pure fun s hs =>
      hs ▸ ⟨hc, ht⟩
  obtain ⟨hcond, hbatch, hfrozen, hpending, htrace⟩ :=
    hspec.ok rfl (Prod.ext hok rfl : onRevoke partitions m = (.ok (), (onRevoke partitions m).2))
  rw [hbatch, hpending, not_or, not_not] at hcond
  exact ⟨⟨Nat.eq_zero_of_not_pos hcond.1, hcond.2⟩, hbatch, hfrozen, hpending, htrace⟩

/-- It finds no message in the mapper. -/
theorem Custody.quiescent (h : Kept since m) {partitions : Finset PartitionKey}
    (hok : (onRevoke partitions m).1 = .ok ()) : Quiescent (onRevoke partitions m).2 := by
  obtain ⟨⟨htotal, hnone⟩, hbatch, hfrozen, hpending, htrace⟩ := onRevoke_ok hok
  refine ⟨fun e he => ?_, ?_, hfrozen, hpending.trans hnone, htrace.symm ▸ h.published⟩
  · rw [hbatch] at he
    have hbytes : e.2.byteTotal = 0 := by
      have hle := Dict.le_weight (w := fun _ (buffer : PartitionBuffer) => buffer.byteTotal) he
      unfold BatchManager.totalBufferedBytes at htotal
      omega
    rw [e.2.counted, List.sum_eq_zero_iff] at hbytes
    refine List.eq_nil_iff_forall_not_mem.mpr fun r hr => (h.buffered e he r hr).2 ?_
    exact List.length_eq_zero_iff.mp (hbytes _ (List.mem_map_of_mem hr))
  · rw [hbatch]
    exact h.pendingBytes

/-- Custody in every state of every run. -/
theorem kept_of_reachable (h : (lifecycle env).Reachable m) : ∃ since, Kept since m := by
  refine System.invariant (I := fun m => ∃ since, Kept since m) ?_ ?_ h
  · rintro _ ⟨partitions, rfl⟩
    exact ⟨_, quiescent_start.kept partitions⟩
  · rintro s i t - ⟨since, hs⟩ hstep
    cases i with
    | run poll =>
        obtain ⟨hinc, rfl⟩ := hstep
        have hrun := @custody_runOnce _ env _ _ hs poll hinc s rfl
        rcases hx : runOnce env poll s with ⟨e | result, t⟩
        · rw [hx] at hrun
          obtain ⟨since', hf⟩ := hrun
          exact ⟨since', hf.kept⟩
        · rw [hx] at hrun
          exact hrun
    | rebalance revoked assigned =>
        obtain ⟨hok, rfl⟩ := hstep
        exact ⟨_, (hs.quiescent hok).kept assigned⟩

end Uns
