/-
# `Datalake.Overwrite` — a flush frozen over another

One message can freeze twice: a record that is refused flushes its partition, and once it is
buffered the ready partitions are flushed again, with nothing looked at but the buffers.  Then
the records of the first flush are in no buffer and in no frozen group, and their offsets stay
unresolved.  In the runs where that second choice finds no partition, no flush is frozen over
another and every buffered record is held once until it is resolved (`nothing_dropped`); and a
message at which it finds one overwrites (`overwrites_iff`).
-/
import UnifiedNamespace.Datalake.CustodyRuns

namespace Uns

open Py Lib
open Eff (state change raise Spec Frames)

variable {lim : Limits} {env : Env lim} {m : Mapper}

/-! ## The condition -/

/-- What the flush after a refusal freezes, the buffers after it and the next reading: the record's
partition, else, when that is empty, the one that is chosen. -/
def Mapper.afterRefusal (env : Env lim) (m : Mapper) (key : PartitionKey) :
    Option PartitionKey × BatchManager × Nat :=
  let popped := (m.batch.popPartition key).2
  if (m.batch.buffer key).isEmpty then
    match popped.chooseFlushPartition (env.monotonic (m.ticks + 1)) with
    | none => (none, popped, m.ticks + 2)
    | some other => (some other, (popped.popPartition other).2, m.ticks + 3)
  else (some key, popped, m.ticks + 2)

/-- When the record is refused, a partition is flushed for it and it is then admitted, no partition
is to be flushed. -/
def FlushesOnce (env : Env lim) (m : Mapper) (r : LakeRecord) : Prop :=
  m.batch.admissionWouldExceedLimits r = some true →
    ∀ key batch n, m.afterRefusal env r.partitionKey = (some key, batch, n) →
      batch.admissionWouldExceedLimits r = some false →
        (batch.add (env.monotonic n r.partitionKey) r).chooseFlushPartition (env.monotonic (n + 1)) = none

/-- The condition on a turn: on the message it hands over, where it hands it over. -/
def FlushesOnceTurn (env : Env lim) (m : Mapper) : Turn → Prop
  | .run (.message msg) => ∀ t, untilPoll env m = (.ok none, t) →
      ∀ resolved, classify env msg.payload = .eligible resolved → FlushesOnce env t (msg.record resolved)
  | _ => True

/-! ## What freezes nothing -/

/-- No flush was frozen over another so far. -/
def Intact (m : Mapper) : Prop := NoOverwrite m.trace

section Frames

theorem intact_onPrefix (key : PartitionKey) (f : ConsumedPrefix → Except PrefixError ConsumedPrefix) :
    Frames Intact (onPrefix key f) := by
  refine Frames.state_bind fun m => ?_
  split
  · exact Frames.raise _
  · exact fun _ => rfl

theorem intact_resolve (key : PartitionKey) (o : Nat) : Frames Intact (resolve key o) :=
  Frames.bind (intact_onPrefix key _) fun _ _ => rfl

theorem intact_resolveRecords (key : PartitionKey) (rs : List LakeRecord) :
    Frames Intact (resolveRecords key rs) := by
  induction rs with
  | nil => exact Frames.pure _
  | cons r rs ih => exact Frames.bind (intact_resolve key r.offset) fun _ => ih

theorem intact_consumerCommit (key : PartitionKey) (n : Nat) : Frames Intact (consumerCommit env key n) :=
  fun _ => rfl

theorem intact_tryCommitReadyPrefix (key : PartitionKey) : Frames Intact (tryCommitReadyPrefix env key) := by
  refine Frames.state_bind fun m => Frames.ite (Frames.pure _) ?_
  split
  · exact Frames.pure _
  · refine Frames.ite (Frames.pure _) (Frames.state_bind fun m => Frames.ite (Frames.pure _) ?_)
    refine Frames.bind (intact_consumerCommit key _) fun answer => ?_
    cases answer with
    | raised => exact Frames.raise _
    | returned result =>
        exact Frames.ite (Frames.pure _) (Frames.bind (intact_onPrefix key _) fun _ => Frames.pure _)

theorem intact_advanceRejections (rs : List PendingRejection) : Frames Intact (advanceRejections env rs) := by
  induction rs with
  | nil => exact Frames.pure _
  | cons r rs ih =>
      have hpublish : Frames Intact (publishRejection env r) := by
        intro m
        rcases publishRejection_cases env m r with he | he <;> rw [he] <;> rfl
      have hadvance : Frames Intact (advanceRejection env r) := by
        refine Frames.state_bind fun m => Frames.ite (Frames.pure _) (Frames.bind hpublish fun _ => ?_)
        refine Frames.ite (Frames.pure _) (Frames.bind (intact_resolve _ _) fun _ => ?_)
        exact Frames.bind (intact_tryCommitReadyPrefix _) fun _ => Frames.pure _
      exact Frames.bind hadvance fun _ => Frames.bind ih fun _ => Frames.pure _

theorem intact_tryAdvanceRejections : Frames Intact (tryAdvanceRejections env) :=
  Frames.state_bind fun m => Frames.bind (intact_advanceRejections m.pendingRejections) fun _ _ => rfl

theorem intact_rejectMessage (msg : Message) (reason : Str) : Frames Intact (rejectMessage env msg reason) :=
  Frames.bind (fun _ => rfl) fun _ => intact_tryAdvanceRejections

theorem intact_completeCommit (key : PartitionKey) (n : Nat) : Frames Intact (completeCommit env key n) := by
  refine Frames.state_bind fun m => Frames.ite (Frames.raise _) (Frames.ite (Frames.raise _) ?_)
  refine Frames.bind (intact_consumerCommit key n) fun answer => ?_
  cases answer with
  | raised => exact Frames.raise _
  | returned result =>
      refine Frames.ite (fun _ => rfl) (Frames.bind (intact_onPrefix key _) fun _ => ?_)
      refine Frames.bind (fun _ => rfl) fun _ => Frames.bind (fun _ => rfl) fun _ => ?_
      exact Frames.bind (fun _ => rfl) fun _ => intact_tryAdvanceRejections

theorem intact_commitResolved (key : PartitionKey) : Frames Intact (commitResolved env key) := by
  refine Frames.state_bind fun m => ?_
  split
  · exact Frames.pure _
  · exact Frames.bind (fun _ => rfl) fun _ => intact_completeCommit key _

theorem intact_storeExact (object : FrozenObject) : Frames Intact (storeExact env object) := by
  refine Frames.bind (fun _ => rfl) fun n => Frames.bind (fun _ => rfl) fun _ => ?_
  split
  · exact fun _ => rfl
  · exact Frames.pure _

theorem intact_publishGroup (flush : FrozenPartitionFlush) (group : FrozenRouteGroup) :
    Frames Intact (publishGroup env flush group) := by
  have hencode : Frames Intact (encodeGroup env flush group) := by
    intro m
    rcases encodeGroup_cases env m flush group with he | ⟨object, he⟩ <;> rw [he]
    rfl
  refine Frames.bind hencode fun object => Frames.bind (intact_storeExact object) fun answer => ?_
  cases answer with
  | integrityError => exact Frames.pure _
  | failed => exact fun _ => rfl
  | accepted =>
      refine Frames.bind (intact_resolveRecords _ _) fun _ => Frames.bind (fun _ => rfl) fun _ => ?_
      exact Frames.state_bind fun m => Frames.ite (intact_commitResolved _) (Frames.pure _)

theorem intact_advanceFrozenFlush (flush : FrozenPartitionFlush) : Frames Intact (advanceFrozenFlush env flush) := by
  refine Frames.state_bind fun m => Frames.ite (Frames.raise _) ?_
  split
  · exact intact_completeCommit _ _
  · split
    · exact intact_commitResolved _
    · exact intact_publishGroup flush _

end Frames

/-! ## A message -/

section Message

variable {since : PartitionKey → List Nat} {msg : Message} {r : LakeRecord}

/-- A flush keeps the run intact exactly when nothing is frozen. -/
theorem intact_flushed (h : Kept since m) (key : PartitionKey) :
    Intact (m.flushed env key) ↔ m.frozenFlush = none ∧ Intact m := by
  have hfrozen : frozenAfter m.trace = false ↔ m.frozenFlush = none := by
    rw [h.frozen_trace, Option.isSome_eq_false_iff, Option.isNone_iff_eq_none]
  exact and_congr_left' hfrozen

theorem intact_flushChosen (h : Kept since m) : Intact (flushChosen env m).2 ↔
    (m.frozenFlush = none ∨ m.batch.chooseFlushPartition (env.monotonic m.ticks) = none) ∧ Intact m := by
  rcases flushChosen_cases env h with ⟨hnone, he⟩ | ⟨key, hsome, he⟩
  · rw [he]
    exact ⟨fun hm => ⟨.inr hnone, hm⟩, And.right⟩
  · rw [he, intact_flushed (h.ticks _), hsome]
    exact and_congr_left' ⟨.inl, fun hfree => hfree.resolve_right (Option.some_ne_none key)⟩

theorem intact_afterBuffered (h : Kept since m) : Intact (afterBuffered env m).2 ↔
    (m.frozenFlush = none ∨ m.batch.chooseFlushPartition (env.monotonic m.ticks) = none) ∧ Intact m := by
  have hok : flushChosen env m = (.ok (), (flushChosen env m).2) := by
    rcases flushChosen_cases env h with ⟨-, he⟩ | ⟨key, -, he⟩ <;> rw [he]
  have hrun : afterBuffered env m = tryAdvanceRejections env (flushChosen env m).2 := Eff.bind_of_ok hok _
  rw [hrun, intact_tryAdvanceRejections, intact_flushChosen h]

/-- The answer is the one of the limits. -/
theorem admission_of_tryAdd (b : BatchManager) (monotonic : ℚ) (r : LakeRecord) :
    (b.tryAdd monotonic r).map Prod.fst = (b.admissionWouldExceedLimits r).map not := by
  rw [BatchManager.tryAdd]
  cases b.admissionWouldExceedLimits r with
  | none => rfl
  | some refused => cases refused <;> rfl

theorem admission_of_refused {b : BatchManager} {monotonic : ℚ} {batch : BatchManager} {admitted : Bool}
    (h : b.tryAdd monotonic r = some (admitted, batch)) : b.admissionWouldExceedLimits r = some !admitted := by
  have hmap := admission_of_tryAdd b monotonic r
  rw [h] at hmap
  cases ha : b.admissionWouldExceedLimits r with
  | none =>
      rw [ha] at hmap
      cases hmap
  | some refused =>
      rw [ha] at hmap
      have hanswer : admitted = !refused := Option.some.inj hmap
      rw [hanswer, Bool.not_not]

theorem admission_of_oversize {b : BatchManager} {monotonic : ℚ} (h : b.tryAdd monotonic r = none) :
    b.admissionWouldExceedLimits r = none := by
  have hmap := admission_of_tryAdd b monotonic r
  rw [h] at hmap
  exact Option.map_eq_none_iff.mp hmap.symm

/-- The record as it is buffered. -/
theorem Custody.buffer (h : Kept since m) (hf : Fresh m r.coord)
    (hr : isArchiveEligible r.envelope = true ∧ r.envelopeBytes ≠ []) (monotonic : ℚ) : Kept since
      { m with ticks := m.ticks + 1, batch := m.batch.add monotonic r, trace := .buffered r :: m.trace } :=
  (h.ticks (m.ticks + 1)).add (hf.ticks (m.ticks + 1)) hr monotonic

/-- The second attempt to buffer, after a flush. -/
theorem intact_admitAgain (h : Kept since m) (hf : Fresh m r.coord)
    (hr : isArchiveEligible r.envelope = true ∧ r.envelopeBytes ≠ []) (hm : Intact m) :
    Intact ((do
      match ← tryAdd env r with
      | none => raise .oversize
      | some false => pure false
      | some true => afterBuffered env : Action Bool) m).2 ↔
    (m.frozenFlush = none ∨ (m.batch.admissionWouldExceedLimits r = some false →
      (m.batch.add (env.monotonic m.ticks r.partitionKey) r).chooseFlushPartition
        (env.monotonic (m.ticks + 1)) = none)) := by
  rcases tryAdd_cases env m r with ⟨ha, he⟩ | ⟨ha, he⟩ | ⟨batch, ha, rfl, he⟩
  · rw [Eff.bind_of_ok he]
    have hlimits := admission_of_oversize ha
    exact ⟨fun _ => .inr fun hno => (by rw [hlimits] at hno; cases hno), fun _ => hm⟩
  · rw [Eff.bind_of_ok he]
    have hlimits := admission_of_refused ha
    exact ⟨fun _ => .inr fun hno => (by rw [hlimits] at hno; cases hno), fun _ => hm⟩
  · rw [Eff.bind_of_ok he]
    have hlimits := admission_of_refused ha
    refine (intact_afterBuffered (h.buffer hf hr _)).trans ⟨fun hone => hone.1.imp_right fun hnone _ => hnone, ?_⟩
    exact fun hone => ⟨hone.imp_right fun hnone => hnone hlimits, hm⟩

/-- A message overwrites a flush exactly when it flushes twice. -/
theorem overwrites_iff (hcoord : r.coord = msg.coord)
    (hr : isArchiveEligible r.envelope = true ∧ r.envelopeBytes ≠ []) (h : Kept since m) (hf : Fresh m msg.coord)
    (hfree : m.frozenFlush = none) (hm : Intact m) :
    Intact (admitRecord env msg r m).2 ↔ FlushesOnce env m r := by
  unfold admitRecord
  rcases tryAdd_cases env m r with ⟨ha, he⟩ | ⟨ha, he⟩ | ⟨batch, ha, rfl, he⟩
  · rw [Eff.bind_of_ok he]
    have hlimits := admission_of_oversize ha
    refine ⟨fun _ hrefused => (by rw [hlimits] at hrefused; cases hrefused), fun _ => ?_⟩
    change Intact (rejectMessage env msg _ _).2
    rw [intact_rejectMessage]
    exact hm
  · rw [Eff.bind_of_ok he]
    have hlimits := admission_of_refused ha
    have hfresh : Fresh { m with ticks := m.ticks + 1 } r.coord := hcoord ▸ hf.ticks _
    have hafter : ∀ {t : Mapper} {frozen : Option PartitionKey},
        m.afterRefusal env r.partitionKey = (frozen, t.batch, t.ticks) →
        (t.frozenFlush = none ↔ frozen = none) →
        ((t.frozenFlush = none ∨ (t.batch.admissionWouldExceedLimits r = some false →
          (t.batch.add (env.monotonic t.ticks r.partitionKey) r).chooseFlushPartition
            (env.monotonic (t.ticks + 1)) = none)) ↔ FlushesOnce env m r) := by
      intro t frozen hrefusal hfrozen
      constructor
      · rintro hone - key batch n hkey hadmitted
        rw [hrefusal] at hkey
        cases hkey
        exact (hone.resolve_left fun hnone => Option.some_ne_none key (hfrozen.mp hnone)) hadmitted
      · intro hone
        cases frozen with
        | none => exact .inl (hfrozen.mpr rfl)
        | some key => exact .inr (hone hlimits key _ _ hrefusal)
    rcases flushReadyPartitions_cases env (h.ticks (m.ticks + 1)) r.partitionKey with
      ⟨hfull, hflush⟩ | ⟨hempty, hflush⟩
    · change (m.batch.buffer r.partitionKey).isEmpty = false at hfull
      change Intact ((flushReadyPartitions env (some r.partitionKey) >>= _) _).2 ↔ _
      rw [Eff.bind_of_ok hflush]
      refine (intact_admitAgain ((h.ticks _).flushed env _) (hfresh.flushed _) hr
        ((intact_flushed (h.ticks _) _).mpr ⟨hfree, hm⟩)).trans
        (@hafter _ (some r.partitionKey) ?_ ⟨fun hx => (by cases hx), fun hx => (by cases hx)⟩)
      rw [Mapper.afterRefusal, hfull]
      rfl
    · change (m.batch.buffer r.partitionKey).isEmpty = true at hempty
      change Intact ((flushReadyPartitions env (some r.partitionKey) >>= _) _).2 ↔ _
      have hpopped := (h.ticks (m.ticks + 1)).popped hempty
      have hfreshPopped : Fresh ({ m with ticks := m.ticks + 1 }.popped r.partitionKey) r.coord := hfresh.popped hempty
      rcases flushChosen_cases env hpopped with ⟨hnone, hchosen⟩ | ⟨other, hsome, hchosen⟩
      · rw [Eff.bind_of_ok (hflush.trans hchosen)]
        refine (intact_admitAgain (hpopped.ticks _) (hfreshPopped.ticks _) hr hm).trans
          (hafter ?_ (iff_of_true hfree rfl))
        have hnone' : (m.batch.popPartition r.partitionKey).2.chooseFlushPartition (env.monotonic (m.ticks + 1)) =
          none := hnone
        simp only [Mapper.afterRefusal, hempty, if_true, hnone']
        rfl
      · rw [Eff.bind_of_ok (hflush.trans hchosen)]
        refine (intact_admitAgain ((hpopped.ticks _).flushed env other) ((hfreshPopped.ticks _).flushed other) hr
          ((intact_flushed (hpopped.ticks _) other).mpr ⟨hfree, hm⟩)).trans
          (@hafter _ (some other) ?_ ⟨fun hx => (by cases hx), fun hx => (by cases hx)⟩)
        have hsome' : (m.batch.popPartition r.partitionKey).2.chooseFlushPartition (env.monotonic (m.ticks + 1)) =
          some other := hsome
        simp only [Mapper.afterRefusal, hempty, if_true, hsome']
        rfl
  · rw [Eff.bind_of_ok he]
    have hlimits := admission_of_refused ha
    refine ⟨fun _ hrefused => (by rw [hlimits] at hrefused; cases hrefused), fun _ => ?_⟩
    exact (intact_afterBuffered (h.buffer (hcoord ▸ hf) hr _)).mpr ⟨.inl hfree, hm⟩

end Message

/-! ## Runs -/

section Runs

variable {since : PartitionKey → List Nat} {msg : Message}

theorem intact_handleMessage (h : Kept since m) (hfree : m.frozenFlush = none) (hinc : Increasing m msg)
    (hm : Intact m) (hok : ∀ resolved, classify env msg.payload = .eligible resolved →
      FlushesOnce env m (msg.record resolved)) : Intact (handleMessage env msg m).2 := by
  obtain ⟨p, hp, hk, hf⟩ := h.handed hfree hinc
  have hhanded : Intact (m.handed msg p) := hm
  rw [handleMessage_of_observe env hp, handlePayload]
  cases hc : classify env msg.payload with
  | rejected reason =>
      change Intact (rejectMessage env msg reason _).2
      rwa [intact_rejectMessage]
  | escapes e => exact hhanded
  | ineligible =>
      have hframes : Frames Intact (do
          resolve msg.partitionKey msg.offset
          tryCommitReadyPrefix env msg.partitionKey : Action Bool) :=
        Frames.bind (intact_resolve _ _) fun _ => intact_tryCommitReadyPrefix _
      exact (hframes (m.handed msg p)).mpr hhanded
  | eligible resolved =>
      refine (overwrites_iff rfl ⟨isArchiveEligible_of_classify hc, fun hnil => ?_⟩ hk hf hfree hhanded).mpr
        (hok resolved hc)
      have hpayload : msg.payload = [] := hnil
      rw [hpayload, classify_nil] at hc
      cases hc

theorem intact_untilPoll (h : Kept since m) (hm : Intact m) : Intact (untilPoll env m).2 := by
  unfold untilPoll
  rw [Eff.state_bind]
  cases hf : m.frozenFlush with
  | some flush =>
      have hframes : Frames Intact (do
          let result ← advanceFrozenFlush env flush
          pure (some result) : Action (Option Bool)) :=
        Frames.bind (intact_advanceFrozenFlush flush) fun _ => Frames.pure _
      exact (hframes m).mpr hm
  | none =>
      have hok : flushReadyPartitions env none m = (.ok (), (flushChosen env m).2) := by
        change flushChosen env m = _
        rcases flushChosen_cases env h with ⟨-, he⟩ | ⟨key, -, he⟩ <;> rw [he]
      have hframes : Frames Intact (do
          if !(← tryAdvanceRejections env) then pure (some false)
          else do
            let m ← state
            pure (if m.frozenFlush.isSome then some true else none) : Action (Option Bool)) :=
        Frames.bind intact_tryAdvanceRejections fun _ =>
          Frames.ite (Frames.pure _) (Frames.state_bind fun _ => Frames.pure _)
      change Intact ((flushReadyPartitions env none >>= _) m).2
      rw [Eff.bind_of_ok hok]
      exact (hframes _).mpr ((intact_flushChosen h).mpr ⟨.inl hf, hm⟩)

theorem intact_runOnce (h : Kept since m) {poll : Poll} (hinc : ∀ msg, poll = .message msg → Increasing m msg)
    (hm : Intact m) (hok : FlushesOnceTurn env m (.run poll)) : Intact (runOnce env poll m).2 := by
  have hpoll : Intact (untilPoll env m).2 := intact_untilPoll h hm
  rcases hu : untilPoll env m with ⟨e | result, t⟩
  · rw [hu] at hpoll
    rw [runOnce, Eff.bind_of_error hu]
    exact hpoll
  · rw [hu] at hpoll
    obtain ⟨ht, hfree⟩ := custody_untilPoll.ok h hu
    rw [runOnce, Eff.bind_of_ok hu]
    cases result with
    | some result => exact hpoll
    | none =>
        cases poll with
        | message msg =>
            exact intact_handleMessage ht (hfree rfl) (h.increasing ht (hinc msg rfl)) hpoll (hok t hu)
        | none => exact hpoll
        | partitionEof => exact hpoll
        | offsetOutOfRange => exact hpoll
        | error => exact hpoll

theorem intact_of_reachable (h : ((lifecycle env).restrict (FlushesOnceTurn env)).Reachable m) : Intact m := by
  refine System.invariant (I := Intact) ?_ ?_ h
  · rintro _ ⟨partitions, rfl⟩
    exact trivial
  · rintro s i t hs hm ⟨hok, hstep⟩
    obtain ⟨since, hk⟩ := kept_of_reachable hs.of_restrict
    cases i with
    | run poll =>
        obtain ⟨hinc, rfl⟩ := hstep
        exact intact_runOnce hk hinc hm hok
    | rebalance revoked assigned =>
        obtain ⟨hrevoke, rfl⟩ := hstep
        change NoOverwrite (onRevoke revoked s).2.trace
        rw [(onRevoke_ok hrevoke).2.2.2.2]
        exact hm

end Runs

/-- No frozen flush was replaced, and what was buffered in the assignment and is not resolved is held
once, in the buffers and the frozen groups together. -/
structure NothingDropped (m : Mapper) : Prop where
  intact : Intact m
  held : ∀ r, .buffered r ∈ sinceAssigned m.trace → .resolved r.coord ∉ sinceAssigned m.trace →
    m.heldCount r.coord = 1

/-- In the runs whose messages flush once at most, no record is dropped. -/
theorem nothing_dropped (env : Env lim) {m : Mapper}
    (hm : ((lifecycle env).restrict (FlushesOnceTurn env)).Reachable m) : NothingDropped m := by
  have hintact := intact_of_reachable hm
  obtain ⟨since, hk⟩ := kept_of_reachable hm.of_restrict
  exact ⟨hintact, fun r hr hopen => (hk.accounted hintact r hr).resolve_left hopen⟩

/-! ## Two messages -/

section Takes

variable {msg : Message} {resolved : ResolvedLakeEvent}

/-- The state after a turn that hands over a message of a record. -/
def takes (env : Env lim) (msg : Message) (r : LakeRecord) (m : Mapper) : Mapper :=
  let t := (untilPoll env m).2
  match (t.consumedPrefixes msg.partitionKey).observe msg.offset with
  | .ok p => (admitRecord env msg r (t.handed msg p)).2
  | .error _ => t

theorem runOnce_takes (hu : (untilPoll env m).1 = .ok none)
    (hp : (((untilPoll env m).2.consumedPrefixes msg.partitionKey).observe msg.offset).toOption.isSome = true)
    (hc : classify env msg.payload = .eligible resolved) :
    (runOnce env (.message msg) m).2 = takes env msg (msg.record resolved) m := by
  have hpoll : untilPoll env m = (.ok none, (untilPoll env m).2) := Prod.ext hu rfl
  rw [runOnce, Eff.bind_of_ok hpoll, takes]
  cases ho : ((untilPoll env m).2.consumedPrefixes msg.partitionKey).observe msg.offset with
  | error e =>
      rw [ho] at hp
      cases hp
  | ok p =>
      change (handleMessage env msg _).2 = _
      rw [handleMessage_of_observe env ho, handlePayload, hc]

/-- The turn reaches its poll, and the message comes after those of its partition. -/
def Takes (env : Env lim) (m : Mapper) (msg : Message) : Prop :=
  (untilPoll env m).1 = .ok none ∧
    (((untilPoll env m).2.consumedPrefixes msg.partitionKey).observe msg.offset).toOption.isSome = true ∧
    ∀ o ∈ handedSince m.trace msg.partitionKey, o < msg.offset

instance (env : Env lim) (m : Mapper) (msg : Message) : Decidable (Takes env m msg) :=
  inferInstanceAs (Decidable (_ ∧ _ ∧ _))

theorem reachable_takes {ok : Mapper → Turn → Prop} (h : ((lifecycle env).restrict ok).Reachable m)
    (ht : Takes env m msg) (hc : classify env msg.payload = .eligible resolved)
    (hok : ok m (.run (.message msg))) :
    ((lifecycle env).restrict ok).Reachable (takes env msg (msg.record resolved) m) := by
  rw [← runOnce_takes ht.1 ht.2.1 hc]
  refine .step h ⟨hok, fun other hother => ?_, rfl⟩
  injection hother with hother
  rw [← hother]
  exact ht.2.2

end Takes

instance decidableNoOverwrite : (t : List Event) → Decidable (NoOverwrite t)
  | [] => isTrue trivial
  | .froze _ :: t =>
      have := decidableNoOverwrite t
      inferInstanceAs (Decidable (frozenAfter t = false ∧ NoOverwrite t))
  | .assigned :: t => decidableNoOverwrite t
  | .handed _ :: t => decidableNoOverwrite t
  | .buffered _ :: t => decidableNoOverwrite t
  | .resolved _ :: t => decidableNoOverwrite t
  | .published _ _ :: t => decidableNoOverwrite t
  | .verified _ _ :: t => decidableNoOverwrite t
  | .dlqPublished _ _ :: t => decidableNoOverwrite t
  | .committed _ _ _ :: t => decidableNoOverwrite t
  | .thawed _ :: t => decidableNoOverwrite t

example : ¬ NoOverwrite [.froze ([], 0), .froze ([], 0)] := by decide +kernel

def sampleRoutes : Dict LegacyRouteKey LegacyRouteEntry :=
  Dict.empty.update (lit "plant/line/temp", lit "plc", lit "plant") ⟨[], [], []⟩
    fun _ => ⟨lit "plc", lit "telemetry", lit "v1"⟩

theorem ok_of_isSome {ε α : Type} {x : Except ε α} (h : x.toOption.isSome = true) : x = .ok (x.toOption.get h) := by
  cases x with
  | error e => cases h
  | ok a => rfl

theorem sampleDigest : (computeLegacyMapDigest cpython (lit "1") sampleRoutes).toOption.isSome = true := by
  decide +kernel

/-- The route of the sample's topic. -/
def sampleMap : LegacyRouteMap cpython where
  revision := lit "1"
  contentDigest := (computeLegacyMapDigest cpython (lit "1") sampleRoutes).toOption.get sampleDigest
  routes := sampleRoutes
  digest := ok_of_isSome sampleDigest

def sampleBytes (timestamp : Int) : Bytes :=
  (encodeEvent cpython (telemetrySample Datetime newYear2026 timestamp)).toOption.getD []

def sampleMessage (offset : Nat) (timestamp : Int) : Message :=
  ⟨historicPartition.1, historicPartition.2, offset, some (sampleBytes timestamp)⟩

def sampleResolved (timestamp : Int) : ResolvedLakeEvent where
  envelope := telemetrySample Datetime newYear2026 timestamp
  route := ⟨lit "plc", lit "plant", lit "telemetry", lit "v1", newYear2026.date⟩
  originalPayload := none
  payloadFidelity := .legacyNormalized
  legacyRouteRevision := some (lit "1")

/-- The limits, and the map of the sample. -/
def mappedEnv (limits : FlushLimits) : Env cpython :=
  { steadyEnv limits with legacyMap := some sampleMap }

theorem classify_sample (limits : FlushLimits) {offset : Nat} {timestamp : Int} (ht : |timestamp| < 100000000000)
    (hp : Portable cpython (telemetrySample Datetime newYear2026 timestamp)) :
    classify (mappedEnv limits) (sampleMessage offset timestamp).payload = .eligible (sampleResolved timestamp) := by
  obtain ⟨b, hb, hd⟩ := decodes_telemetrySample ht hp
  have hpayload : (sampleMessage offset timestamp).payload = b := by
    change (encodeEvent cpython (telemetrySample Datetime newYear2026 timestamp)).toOption.getD [] = b
    rw [hb]
    rfl
  rw [classify, hpayload, hd]
  rfl

theorem portable_one : Portable cpython (telemetrySample Datetime newYear2026 1) :=
  ⟨rfl, rfl, by decide +kernel, size_of_all (by decide +kernel)⟩

theorem hundred_pos : 0 < 100 := by decide

/-- The longer sample fills a batch. -/
def narrowLimits : FlushLimits :=
  ⟨60, 433, 100, 433, 100000, 64, minute_pos, by decide, hundred_pos, by decide,
    defaultLimits.maxActiveRouteGroups_pos, by decide, by decide⟩

def assigned (limits : FlushLimits) : Mapper := onAssign {historicPartition} (Mapper.start (mappedEnv limits))

def oneTaken (limits : FlushLimits) : Mapper :=
  takes (mappedEnv limits) (sampleMessage 0 1) ((sampleMessage 0 1).record (sampleResolved 1)) (assigned limits)

def twoTaken (limits : FlushLimits) : Mapper :=
  takes (mappedEnv limits) (sampleMessage 1 1700000000)
    ((sampleMessage 1 1700000000).record (sampleResolved 1700000000)) (oneTaken limits)

/-- The first sample is taken, and the second may be. -/
theorem takes_samples (limits : FlushLimits)
    (h : Takes (mappedEnv limits) (assigned limits) (sampleMessage 0 1) ∧
      Takes (mappedEnv limits) (oneTaken limits) (sampleMessage 1 1700000000)) {ok : Mapper → Turn → Prop}
    (hone : ok (assigned limits) (.run (.message (sampleMessage 0 1))))
    (htwo : ok (oneTaken limits) (.run (.message (sampleMessage 1 1700000000)))) :
    ((lifecycle (mappedEnv limits)).restrict ok).Reachable (twoTaken limits) :=
  reachable_takes (reachable_takes (.init ⟨_, rfl⟩) h.1 (classify_sample limits (by norm_num) portable_one) hone) h.2
    (classify_sample limits (by norm_num) portable_seconds) htwo

theorem flushesOnce_of_admitted {limits : FlushLimits} {m : Mapper} {offset : Nat} {timestamp : Int}
    (ht : |timestamp| < 100000000000) (hp : Portable cpython (telemetrySample Datetime newYear2026 timestamp))
    (h : (untilPoll (mappedEnv limits) m).2.batch.admissionWouldExceedLimits
      ((sampleMessage offset timestamp).record (sampleResolved timestamp)) = some false) :
    FlushesOnceTurn (mappedEnv limits) m (.run (.message (sampleMessage offset timestamp))) := by
  intro t hpoll resolved hresolved hrefused
  rw [classify_sample limits ht hp] at hresolved
  cases hresolved
  rw [hpoll] at h
  rw [h] at hrefused
  cases hrefused

/-- With the default limits both samples are in the buffer. -/
theorem samples_not_dropped : NothingDropped (twoTaken defaultLimits) := by
  have hadmitted : (untilPoll (mappedEnv defaultLimits) (assigned defaultLimits)).2.batch.admissionWouldExceedLimits
        ((sampleMessage 0 1).record (sampleResolved 1)) = some false ∧
      (untilPoll (mappedEnv defaultLimits) (oneTaken defaultLimits)).2.batch.admissionWouldExceedLimits
        ((sampleMessage 1 1700000000).record (sampleResolved 1700000000)) = some false := by
    decide +kernel
  exact nothing_dropped (mappedEnv defaultLimits) (takes_samples defaultLimits (by decide +kernel)
    (flushesOnce_of_admitted (by norm_num) portable_one hadmitted.1)
    (flushesOnce_of_admitted (by norm_num) portable_seconds hadmitted.2))

theorem dropped_of_overwritten (h : decide (NoOverwrite m.trace) = false) : ¬ NothingDropped m :=
  fun hkept => of_decide_eq_false h hkept.intact

/-- The second sample does not fit beside the first and fills a batch of its own: both are flushed, and
the first is nowhere. -/
theorem first_flush_overwritten : ¬ ∀ (env : Env cpython) (m : Mapper), (lifecycle env).Reachable m →
    NothingDropped m := by
  intro h
  have hreach : (lifecycle (mappedEnv narrowLimits)).Reachable (twoTaken narrowLimits) :=
    (@takes_samples narrowLimits (by decide +kernel) (fun _ _ => True) trivial trivial).of_restrict
  exact dropped_of_overwritten (by decide +kernel) (h (mappedEnv narrowLimits) (twoTaken narrowLimits) hreach)

end Uns
