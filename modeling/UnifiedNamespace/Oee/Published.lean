/-
# `Oee.Published` — what MQTT was told, against what is stored

A message names a revision.  A revision that is on record keeps its numbers: a
save moves them to the revision table, and nothing else writes them
(`reportAt_save`).  So a message agrees with the store for good when it agrees as
it is sent.  A run that saves sends what it saved.  A run that republishes sends
what it has just recomputed under the revision on record, and the fingerprint
that tells it to does not cover the master data (`published_reports_stored`).

`published_at` is written by the identity of the row.  When another process has
saved a revision since the message was sent, the mark is set on a revision that
was not (`marked_revision_published`).
-/
import UnifiedNamespace.Oee.Engine

namespace Uns.Oee

open Py Lib

/-! ## The numbers of a revision -/

/-- The numbers on record for a revision of a shift: those of the row, or of the revision table. -/
def Database.reportAt (db : Database) (unitId : Nat) (shiftStart : ℤ) (revision : Nat) :
    Option Report :=
  match db.results.find? (unitId, shiftStart) with
  | none => none
  | some r =>
      if r.2.revision = revision then some r.2.report
      else (db.revisions.find? (unitId, shiftStart, revision)).map fun v => v.2.report

/-- The revision table holds numbers below that of the row. -/
def RevisionsBelow (db : Database) : Prop :=
  ∀ u t n, db.revisions.find? (u, t, n) ≠ none →
    ∃ r, db.results.find? (u, t) = some r ∧ n < r.2.revision

section Save

variable {db db' : Database} {unitId : Nat} {window : ShiftWindow} {metrics : ShiftMetrics}
variable {fingerprint : Fingerprint} {computedAt : ℤ} {stops : List ClassifiedStop} {out : StoredResult}

theorem revisionsBelow_save (hb : RevisionsBelow db)
    (hs : Saved unitId window.start (resultValues window metrics fingerprint computedAt) stops out db db') :
    RevisionsBelow db' := by
  intro u t n hn
  by_cases hk : (u, t) = (unitId, window.start)
  · obtain ⟨rfl, rfl⟩ := Prod.mk.inj hk
    refine ⟨_, hs.result.row, ?_⟩
    change n < out.revision
    rw [hs.result.next]
    cases hf : db.results.find? (u, window.start) with
    | none =>
        rw [hs.result.otherRevisions _ (by rw [hf]; intro r hr; cases hr)] at hn
        obtain ⟨r, hr, -⟩ := hb u window.start n hn
        rw [hf] at hr
        cases hr
    | some r =>
        rw [Option.map_some, Option.getD_some]
        by_cases hnr : n = r.2.revision
        · omega
        · rw [hs.result.otherRevisions] at hn
          · obtain ⟨q, hq, hlt⟩ := hb u window.start n hn
            rw [hf] at hq
            obtain rfl := Option.some.inj hq
            omega
          · intro q hq heq
            rw [hf] at hq
            obtain rfl := Option.some.inj hq
            exact hnr (congrArg (fun k => k.2.2) heq)
  · rw [hs.result.otherRevisions] at hn
    · rw [hs.result.otherRows _ hk]
      exact hb u t n hn
    · intro r _ heq
      exact hk (congrArg (fun k => (k.1, k.2.1)) heq)

/-- A save adds its own revision, and every other keeps its numbers. -/
theorem reportAt_save (hb : RevisionsBelow db)
    (hs : Saved unitId window.start (resultValues window metrics fingerprint computedAt) stops out db db')
    (u : Nat) (t : ℤ) (n : Nat) :
    db'.reportAt u t n =
      if (u, t, n) = (unitId, window.start, out.revision) then some metrics.report
      else db.reportAt u t n := by
  by_cases hk : (u, t) = (unitId, window.start)
  · obtain ⟨rfl, rfl⟩ := Prod.mk.inj hk
    have hrevision : (resultValues window metrics fingerprint computedAt out.revision).revision =
        out.revision := rfl
    unfold Database.reportAt
    rw [hs.result.row]
    dsimp only
    rw [hrevision]
    by_cases hn : out.revision = n
    · subst hn
      rw [if_pos rfl, if_pos rfl]
      rfl
    · rw [if_neg hn, if_neg fun heq => hn (congrArg (fun k => k.2.2) heq).symm]
      cases hf : db.results.find? (u, window.start) with
      | none =>
          dsimp only
          rw [hs.result.otherRevisions _ (by rw [hf]; intro r hr; cases hr)]
          cases hrev : db.revisions.find? (u, window.start, n) with
          | none => rfl
          | some v =>
              obtain ⟨q, hq, -⟩ := hb u window.start n (by rw [hrev]; exact Option.some_ne_none v)
              rw [hf] at hq
              cases hq
      | some r =>
          dsimp only
          by_cases hnr : r.2.revision = n
          · have hold := hs.result.superseded r hf
            rw [hnr] at hold
            obtain ⟨v, hv, hvalues⟩ := Option.map_eq_some_iff.mp hold
            rw [if_pos hnr, hv, Option.map_some, hvalues]
            rfl
          · rw [if_neg hnr, hs.result.otherRevisions]
            intro q hq heq
            rw [hf] at hq
            obtain rfl := Option.some.inj hq
            exact hnr (congrArg (fun k => k.2.2) heq).symm
  · have hother : ∀ r, db.results.find? (unitId, window.start) = some r →
        (u, t, n) ≠ (unitId, window.start, r.2.revision) := by
      intro r _ heq
      exact hk (congrArg (fun k => (k.1, k.2.1)) heq)
    unfold Database.reportAt
    rw [hs.result.otherRows _ hk, hs.result.otherRevisions _ hother, if_neg]
    intro heq
    exact hk (congrArg (fun k => (k.1, k.2.1)) heq)

end Save

/-- Marking touches neither numbers nor revisions. -/
theorem find?_markPublished (db : Database) (resultId : Nat) (at_ : ℤ) (k : Nat × ℤ) :
    (markPublished db resultId at_).results.find? k =
      (db.results.find? k).map fun r =>
        (r.1, if r.1 = resultId then r.2.withPublishedAt at_ else r.2) := by
  rw [markPublished, Table.find?_modify]
  simp only [decide_eq_true_eq]

theorem reportAt_markPublished (db : Database) (resultId : Nat) (at_ : ℤ) (u : Nat) (t : ℤ) (n : Nat) :
    (markPublished db resultId at_).reportAt u t n = db.reportAt u t n := by
  unfold Database.reportAt
  rw [find?_markPublished]
  cases db.results.find? (u, t) with
  | none => rfl
  | some r =>
      have hsame : (if r.1 = resultId then r.2.withPublishedAt at_ else r.2).revision = r.2.revision ∧
          (if r.1 = resultId then r.2.withPublishedAt at_ else r.2).report = r.2.report := by
        split <;> exact ⟨rfl, rfl⟩
      simp only [Option.map_some, hsame]
      rfl

theorem revisionsBelow_markPublished {db : Database} (hb : RevisionsBelow db) (resultId : Nat) (at_ : ℤ) :
    RevisionsBelow (markPublished db resultId at_) := by
  intro u t n hn
  obtain ⟨r, hr, hlt⟩ := hb u t n hn
  refine ⟨_, by rw [find?_markPublished, hr]; rfl, ?_⟩
  dsimp only
  split <;> exact hlt

/-- A reassignment touches neither. -/
theorem world_assign (w : World) (call : AssignCall) :
    (w.assign call).db.results = w.db.results ∧ (w.assign call).db.revisions = w.db.revisions ∧
      (w.assign call).messages = w.messages := by
  unfold World.assign
  split
  · rename_i db hdb
    obtain ⟨hresults, hrevisions, -, -⟩ := assignReason_spec hdb
    exact ⟨hresults, hrevisions, rfl⟩
  · exact ⟨rfl, rfl, rfl⟩
  · exact ⟨rfl, rfl, rfl⟩

/-! ## What no step takes back -/

/-- Numbers and identities stay, messages and computations are added. -/
structure Grows (s t : Shared) : Prop where
  reports : ∀ u st n x, s.world.db.reportAt u st n = some x → t.world.db.reportAt u st n = some x
  ids : ∀ k r, s.world.db.results.find? k = some r →
    ∃ q, t.world.db.results.find? k = some q ∧ q.1 = r.1
  messages : ∀ m ∈ s.world.messages, m ∈ t.world.messages
  computations : ∀ c ∈ s.computations, c ∈ t.computations

theorem Grows.refl (s : Shared) : Grows s s :=
  ⟨fun _ _ _ _ h => h, fun _ r h => ⟨r, h, rfl⟩, fun _ h => h, fun _ h => h⟩

/-- What a save of a run leaves. -/
theorem Job.save_spec {job : Job} {db db' : Database} {read : Reading} {inputs : ShiftInputs}
    {out : StoredResult} (h : job.save db read inputs = some (db', out)) :
    Saved job.unit.unitId job.window.start
      (resultValues job.window (compute inputs) read.fingerprint job.computedAt) (stopsToSave inputs)
      out db db' := (Oee.save_spec h).1

theorem sharedStep_grows {s t : Shared} {stage : Stage} (h : SharedStep s stage t)
    (hb : RevisionsBelow s.world.db) : RevisionsBelow t.world.db ∧ Grows s t := by
  cases h with
  | quiet => exact ⟨hb, Grows.refl _⟩
  | saved changed save =>
      have hs := Job.save_spec save
      refine ⟨revisionsBelow_save hb hs, ?_, ?_, fun _ h => h, fun _ h => List.mem_append_left _ h⟩
      · intro u st n x hx
        rw [reportAt_save hb hs, if_neg]
        · exact hx
        · -- the new revision had no numbers before
          intro heq
          obtain ⟨hu, hrest⟩ := Prod.mk.inj heq
          obtain ⟨hst, hn⟩ := Prod.mk.inj hrest
          subst hu hst hn
          have hnext := hs.result.next
          unfold Database.reportAt at hx
          split at hx
          · cases hx
          · rename_i r hr
            rw [hr, Option.map_some, Option.getD_some] at hnext
            rw [if_neg (by omega)] at hx
            obtain ⟨v, hv, -⟩ := Option.map_eq_some_iff.mp hx
            obtain ⟨q, hq, hlt⟩ := hb _ _ _ (by rw [hv]; exact Option.some_ne_none v)
            rw [hr] at hq
            obtain rfl := Option.some.inj hq
            omega
      · intro k r hr
        rename_i job _ _ _ _ out
        by_cases hk : k = (job.unit.unitId, job.window.start)
        · subst hk
          exact ⟨_, hs.result.row, (hs.result.sameId r hr).symm⟩
        · exact ⟨r, (hs.result.otherRows k hk).trans hr, rfl⟩
  | published settled =>
      exact ⟨hb, fun _ _ _ _ h => h, fun _ r h => ⟨r, h, rfl⟩, fun _ h => List.mem_append_left _ h,
        fun _ h => h⟩
  | marked settled =>
      refine ⟨revisionsBelow_markPublished hb _ _, ?_, ?_, fun _ h => h, fun _ h => h⟩
      · intro u st n x hx
        rw [reportAt_markPublished]
        exact hx
      · intro k r hr
        have hq := find?_markPublished s.world.db settled.resultId settled.job.computedAt k
        rw [hr, Option.map_some] at hq
        exact ⟨_, hq, rfl⟩

theorem disturb_grows (s : Shared) (e : Disturbance) (hb : RevisionsBelow s.world.db) :
    RevisionsBelow (s.disturb e).world.db ∧ Grows s (s.disturb e) := by
  cases e with
  | arrive rows =>
      exact ⟨hb, fun _ _ _ _ h => h, fun _ r h => ⟨r, h, rfl⟩, fun _ h => h, fun _ h => h⟩
  | edit exceptions =>
      exact ⟨hb, fun _ _ _ _ h => h, fun _ r h => ⟨r, h, rfl⟩, fun _ h => h, fun _ h => h⟩
  | assign call =>
      obtain ⟨hresults, hrevisions, hmessages⟩ := world_assign s.world call
      have hreport : ∀ u st n, (s.world.assign call).db.reportAt u st n = s.world.db.reportAt u st n := by
        intro u st n
        unfold Database.reportAt
        rw [hresults, hrevisions]
      refine ⟨?_, ?_, ?_, ?_, fun _ h => h⟩
      · intro u st n hn
        change (s.world.assign call).db.revisions.find? _ ≠ none at hn
        change ∃ r, (s.world.assign call).db.results.find? _ = _ ∧ _
        rw [hrevisions] at hn
        rw [hresults]
        exact hb u st n hn
      · intro u st n x hx
        exact (hreport u st n).trans hx
      · intro k r hr
        refine ⟨r, ?_, rfl⟩
        change (s.world.assign call).db.results.find? k = some r
        rw [hresults]
        exact hr
      · intro m hm
        change m ∈ (s.world.assign call).messages
        rw [hmessages]
        exact hm

/-! ## Messages carry the numbers on record -/

def Message.key (m : Message) : Nat × ℤ × Nat := (m.unitId, m.shiftStart, m.payload.revision)

/-- Every message carries the metrics on record for its shift and revision. -/
def MessagesMatch (s : Shared) : Prop :=
  ∀ m ∈ s.world.messages,
    s.world.db.reportAt m.unitId m.shiftStart m.payload.revision = some m.payload.toReport

/-- What a run has just read gives the numbers that the inputs of the revision on record gave. -/
def RepublishesSame (s : Shared) (job : Job) (read : Reading) (inputs : ShiftInputs) : Prop :=
  read.unchanged = true → ∀ c ∈ s.computations,
    c.key = (job.unit.unitId, job.window.start, (read.stored.map StoredResult.revision).getD 0) →
      (compute c.inputs).report = (compute inputs).report

instance (s : Shared) (job : Job) (read : Reading) (inputs : ShiftInputs) :
    Decidable (RepublishesSame s job read inputs) :=
  inferInstanceAs (Decidable (_ → ∀ c ∈ _, _ → _))

/-- The same of the stage that a process moves on from. -/
def SameNumbers (s : Shared) : Stage → Prop
  | .settle job read _ inputs => RepublishesSame s job read inputs
  | _ => True

instance (s : Shared) : (stage : Stage) → Decidable (SameNumbers s stage)
  | .settle job read _ inputs => inferInstanceAs (Decidable (RepublishesSame s job read inputs))
  | .fingerprint .. | .manual .. | .existing .. | .fetch .. | .exceptions .. | .publish .. | .mark ..
  | .finished .. | .raised => isTrue trivial

/-- A condition on the moves of the processes. -/
def Moving {ι : Type} (ok : Shared → Stage → Prop) (s : Engine ι) : Event ι → Prop
  | .advance i _ => ok s.shared (s.locals i)
  | .start .. => True
  | .disturb .. => True

instance {ι : Type} (ok : Shared → Stage → Prop) [∀ s stage, Decidable (ok s stage)] (s : Engine ι) :
    (event : Event ι) → Decidable (Moving ok s event)
  | .advance i _ => inferInstanceAs (Decidable (ok s.shared (s.locals i)))
  | .start .. | .disturb .. => isTrue trivial

/-- Numbers on record come from a computation, and the messages match them. -/
structure PublishInvariant (s : Shared) : Prop where
  below : RevisionsBelow s.world.db
  computed : ∀ u t n x, s.world.db.reportAt u t n = some x →
    ∃ c ∈ s.computations, c.key = (u, t, n) ∧ (compute c.inputs).report = x
  messages : MessagesMatch s

/-- The revision a run has read is on record. -/
def ReadOnRecord (s : Shared) (job : Job) (read : Reading) : Prop :=
  ∀ stored ∈ read.stored,
    ∃ x, s.world.db.reportAt job.unit.unitId job.window.start stored.revision = some x

/-- The numbers a run is about to send are on record. -/
def SettledOnRecord (s : Shared) (settled : Settled) : Prop :=
  s.world.db.reportAt settled.job.unit.unitId settled.job.window.start settled.revision =
    some settled.metrics.report

def publishAssertion (s : Shared) : Stage → Prop :=
  Asserts (ReadOnRecord s) (SettledOnRecord s) fun _ => True

variable {latest : LatestRow} {delivered : Bool} {s t : Shared} {stage : Stage}

theorem publishAssertion_mono (hg : Grows s t) (h : publishAssertion s stage) :
    publishAssertion t stage := by
  refine h.mono ?_ ?_ fun _ h => h
  · intro job read hr stored hstored
    obtain ⟨x, hx⟩ := hr stored hstored
    exact ⟨x, hg.reports _ _ _ _ hx⟩
  · intro settled hs
    exact hg.reports _ _ _ _ hs

theorem reportAt_existing {db : Database} {u : Nat} {start : ℤ} {stored : StoredResult}
    (h : existing db u start = some stored) : ∃ x, db.reportAt u start stored.revision = some x := by
  obtain ⟨r, hr, rfl⟩ := Option.map_eq_some_iff.mp h
  refine ⟨r.2.report, ?_⟩
  unfold Database.reportAt
  rw [hr]
  exact if_pos rfl

/-- The row that a save writes has the numbers it was given. -/
theorem reportAt_saved {job : Job} {db db' : Database} {read : Reading} {inputs : ShiftInputs}
    {out : StoredResult} (hb : RevisionsBelow db) (h : job.save db read inputs = some (db', out)) :
    db'.reportAt job.unit.unitId job.window.start out.revision = some (compute inputs).report := by
  rw [reportAt_save hb (Job.save_spec h), if_pos rfl]

theorem publishInvariant_step (hi : PublishInvariant s) (hA : publishAssertion s stage)
    (h : SharedStep s stage t) : PublishInvariant t := by
  obtain ⟨hb, hg⟩ := sharedStep_grows h hi.below
  cases h with
  | quiet => exact hi
  | saved changed save =>
      refine ⟨hb, ?_, fun m hm => hg.reports _ _ _ _ (hi.messages m hm)⟩
      intro u st n x hx
      rw [reportAt_save hi.below (Job.save_spec save)] at hx
      split at hx
      · rename_i heq
        exact ⟨_, List.mem_append_right _ (List.mem_singleton_self _), heq.symm, Option.some.inj hx⟩
      · obtain ⟨c, hc, hkey, hreport⟩ := hi.computed u st n x hx
        exact ⟨c, List.mem_append_left _ hc, hkey, hreport⟩
  | published settled =>
      refine ⟨hb, hi.computed, ?_⟩
      intro m hm
      rcases List.mem_append.mp hm with hm | hm
      · exact hi.messages m hm
      · rw [List.mem_singleton] at hm
        subst hm
        exact hA
  | marked settled =>
      refine ⟨hb, ?_, fun m hm => hg.reports _ _ _ _ (hi.messages m hm)⟩
      intro u st n x hx
      rw [reportAt_markPublished] at hx
      exact hi.computed u st n x hx

theorem publishAssertion_next (hi : PublishInvariant s) (hA : publishAssertion s stage)
    (hok : SameNumbers s stage) :
    publishAssertion (stage.next latest delivered s).1 (stage.next latest delivered s).2 := by
  refine asserts_next (R := ReadOnRecord) (P := SettledOnRecord) (M := fun _ _ => True) hA ?_ ?_ ?_ ?_
  · intro job reasons counted _ stored hstored
    exact reportAt_existing hstored
  · -- the stored revision has the numbers of a computation, and these are the numbers sent
    intro job read samples inputs hstage hunchanged
    subst hstage
    cases hstored : read.stored with
    | none => simp [Reading.unchanged, hstored] at hunchanged
    | some stored =>
        obtain ⟨x, hx⟩ := hA stored hstored
        obtain ⟨c, hc, hkey, rfl⟩ := hi.computed _ _ _ _ hx
        have hsame := hok hunchanged c hc (by rw [hkey, hstored]; rfl)
        change s.world.db.reportAt _ _ ((read.stored.map StoredResult.revision).getD 0) = _
        rw [hstored]
        exact hx.trans (congrArg some hsame)
  · intro job read samples inputs db out _ _ hsave
    exact reportAt_saved hi.below hsave
  · intro settled _
    trivial

theorem publishInvariant_disturb (hi : PublishInvariant s) (e : Disturbance) :
    PublishInvariant (s.disturb e) := by
  obtain ⟨hb, hg⟩ := disturb_grows s e hi.below
  have hmessages : (s.disturb e).world.messages = s.world.messages := by
    cases e with
    | arrive rows => rfl
    | edit exceptions => rfl
    | assign call => exact (world_assign s.world call).2.2
  have hreport : ∀ u st n, (s.disturb e).world.db.reportAt u st n = s.world.db.reportAt u st n := by
    intro u st n
    cases e with
    | arrive rows => rfl
    | edit exceptions => rfl
    | assign call =>
        obtain ⟨hresults, hrevisions, -⟩ := world_assign s.world call
        change (s.world.assign call).db.reportAt u st n = _
        unfold Database.reportAt
        rw [hresults, hrevisions]
  have hcomputations : (s.disturb e).computations = s.computations := by
    cases e <;> rfl
  refine ⟨hb, ?_, ?_⟩
  · intro u st n x hx
    rw [hcomputations]
    rw [hreport] at hx
    exact hi.computed u st n x hx
  · intro m hm
    rw [hmessages] at hm
    exact hg.reports _ _ _ _ (hi.messages m hm)

variable {ι : Type}

theorem publishInvariant_fresh {c : Engine ι} (hf : Fresh c) :
    PublishInvariant c.shared ∧ ∀ i, publishAssertion c.shared (c.locals i) := by
  refine ⟨⟨?_, ?_, ?_⟩, ?_⟩
  · intro u t n hn
    exact absurd (hf.revisions _) hn
  · intro u t n x hx
    unfold Database.reportAt at hx
    rw [hf.results] at hx
    cases hx
  · intro m hm
    rw [hf.messages] at hm
    cases hm
  · intro i
    rw [hf.locals i]
    trivial

theorem entry_asserts {R : Job → Reading → Prop} {P M : Settled → Prop} (h : stage.IsEntry) :
    Asserts R P M stage := by
  cases stage <;> trivial

variable [DecidableEq ι]

/-- In every run whose republished shifts still have the numbers of their revision, each message
carries the metrics on record for its shift and revision. -/
theorem published_reports_stored {c : Engine ι}
    (h : ((engine ι latest).restrict (Moving SameNumbers)).Reachable c) : MessagesMatch c.shared := by
  have hinv := Program.invariant (P := engineProgram latest) (F := Fresh) (M := Moving SameNumbers)
    (I := PublishInvariant) (A := publishAssertion) (G := Grows) (fun c hf => publishInvariant_fresh hf)
    (fun _ _ he => entry_asserts he) ?_ ?_ (fun _ _ _ hg hA => publishAssertion_mono hg hA) h
  · exact hinv.1.messages
  · intro c i delivered hok hi hA
    have hstep := @sharedStep_next latest delivered c.shared (c.locals i)
    exact ⟨publishInvariant_step hi hA hstep, publishAssertion_next hi hA hok,
      (sharedStep_grows hstep hi.below).2⟩
  · intro e s hi
    exact ⟨publishInvariant_disturb hi e, (disturb_grows s e hi.below).2⟩

/-! ## An ideal cycle time edited while the broker is down -/

instance (s : Shared) : Decidable (MessagesMatch s) := inferInstanceAs (Decidable (∀ _ ∈ _, _))

/-- Saved while the broker is down, and republished. -/
def retried (edited : ℚ) : List (Event Unit) :=
  runMoves () (firstShift 1) 12 false ++ runMoves () (firstShift edited) 12 true

theorem allowed_retried (edited : ℚ) : ∀ m ∈ retried edited, (engineProgram newestRow).Allowed m := by
  intro m hm
  rcases List.mem_append.mp hm with hm | hm
  · exact allowed_runMoves m hm
  · exact allowed_runMoves m hm

theorem published_retried :
    ((engineProgram newestRow).run (idleEngine Unit) (retried 1)).shared.world.messages.length = 1 ∧
      MessagesMatch ((engineProgram newestRow).run (idleEngine Unit) (retried 1)).shared :=
  ⟨by decide +kernel, published_reports_stored
    (Program.reachable_run_restrict (.init (fresh_idleEngine Unit)) (allowed_retried 1)
      (by decide +kernel))⟩

/-- The message says 100 % performance for a revision that is stored with 50 %. -/
theorem edited_not_published : ¬ ∀ (latest : LatestRow) (c : Engine Unit),
    (engine Unit latest).Reachable c → MessagesMatch c.shared := by
  intro h
  have hmatch := h newestRow _
    (Program.reachable_run (.init (fresh_idleEngine Unit)) (allowed_retried 2))
  revert hmatch
  decide +kernel

/-! ## A row that is marked -/

/-- A row with `published_at` has had a message for the revision it is at. -/
def MarkedMeansSent (s : Shared) : Prop :=
  ∀ k r, s.world.db.results.find? k = some r → r.2.publishedAt ≠ none →
    ∃ m ∈ s.world.messages, m.key = (k.1, k.2, r.2.revision)

/-- The row that is marked is at the revision the run sent, or its revision has been sent too. -/
def MarksOwnRevision (s : Shared) (settled : Settled) : Prop :=
  ∀ r ∈ (s.world.db.results.find? (settled.job.unit.unitId, settled.job.window.start)).toList,
    r.2.revision ≠ settled.revision → ∃ m ∈ s.world.messages,
      m.key = (settled.job.unit.unitId, settled.job.window.start, r.2.revision)

instance (s : Shared) (settled : Settled) : Decidable (MarksOwnRevision s settled) :=
  inferInstanceAs (Decidable (∀ r ∈ _, _ → ∃ m ∈ _, _))

def MarksOwn (s : Shared) : Stage → Prop
  | .mark settled => MarksOwnRevision s settled
  | _ => True

instance (s : Shared) : (stage : Stage) → Decidable (MarksOwn s stage)
  | .mark settled => inferInstanceAs (Decidable (MarksOwnRevision s settled))
  | .fingerprint .. | .manual .. | .existing .. | .fetch .. | .exceptions .. | .settle ..
  | .publish .. | .finished .. | .raised => isTrue trivial

/-- The identity is that of the row of the shift. -/
def RowIs (s : Shared) (job : Job) (resultId : Nat) : Prop :=
  ∃ r, s.world.db.results.find? (job.unit.unitId, job.window.start) = some r ∧ r.1 = resultId

def markAssertion (s : Shared) : Stage → Prop :=
  Asserts (fun job read => ∀ stored ∈ read.stored, RowIs s job stored.resultId)
    (fun settled => RowIs s settled.job settled.resultId)
    fun settled => RowIs s settled.job settled.resultId ∧ settled.message ∈ s.world.messages

/-- Marking is right exactly when the row is at the revision the run sent, or at one that was sent. -/
theorem markedMeansSent_mark {settled : Settled} (hi : MarkedMeansSent s)
    (hA : markAssertion s (.mark settled)) :
    MarkedMeansSent ⟨{ s.world with
        db := markPublished s.world.db settled.resultId settled.job.computedAt }, s.computations⟩ ↔
      MarksOwnRevision s settled := by
  obtain ⟨⟨row, hrow, hid⟩, hsent⟩ := hA
  have hmark := find?_markPublished s.world.db settled.resultId settled.job.computedAt
  constructor
  · intro h r hr _
    rw [Option.mem_toList, hrow] at hr
    obtain rfl := Option.some.inj hr
    have hfound := hmark (settled.job.unit.unitId, settled.job.window.start)
    rw [hrow, Option.map_some, if_pos hid] at hfound
    exact h _ _ hfound (Option.some_ne_none _)
  · intro hown k r hr hpublished
    change (markPublished s.world.db settled.resultId settled.job.computedAt).results.find? k = some r
      at hr
    rw [hmark] at hr
    obtain ⟨q, hq, rfl⟩ := Option.map_eq_some_iff.mp hr
    by_cases hqid : q.1 = settled.resultId
    · -- the identity belongs to this shift's row
      have hk := Table.key_of_id hq hrow (hqid.trans hid.symm)
      subst hk
      rw [hrow] at hq
      obtain rfl := Option.some.inj hq
      rw [if_pos hqid]
      by_cases hrevision : row.2.revision = settled.revision
      · refine ⟨settled.message, hsent, ?_⟩
        change _ = (_, _, row.2.revision)
        rw [hrevision]
        rfl
      · exact hown row (by rw [hrow]; exact List.mem_singleton_self _) hrevision
    · rw [if_neg hqid] at hpublished ⊢
      exact hi k q hq hpublished

theorem markedMeansSent_step (hi : MarkedMeansSent s) (hA : markAssertion s stage)
    (hok : MarksOwn s stage) (h : SharedStep s stage t) : MarkedMeansSent t := by
  cases h with
  | quiet => exact hi
  | saved changed save =>
      rename_i job _ _ _ _ out
      have hs := Job.save_spec save
      intro k r hr hpublished
      by_cases hk : k = (job.unit.unitId, job.window.start)
      · -- a revision starts unpublished
        subst hk
        have hrow := hs.result.row
        rw [show _ = some r from hr] at hrow
        obtain rfl := Option.some.inj hrow
        exact absurd rfl hpublished
      · refine hi k r ?_ hpublished
        rw [← hs.result.otherRows k hk]
        exact hr
  | published settled =>
      intro k r hr hpublished
      obtain ⟨m, hm, hkey⟩ := hi k r hr hpublished
      exact ⟨m, List.mem_append_left _ hm, hkey⟩
  | marked settled => exact (markedMeansSent_mark hi hA).mpr hok

theorem rowIs_mono {job : Job} {resultId : Nat} (hg : Grows s t) (h : RowIs s job resultId) :
    RowIs t job resultId := by
  obtain ⟨r, hr, hid⟩ := h
  obtain ⟨q, hq, hqid⟩ := hg.ids _ _ hr
  exact ⟨q, hq, hqid.trans hid⟩

theorem markAssertion_mono (hg : Grows s t) (h : markAssertion s stage) : markAssertion t stage := by
  refine h.mono ?_ ?_ ?_
  · intro job read hr stored hstored
    exact rowIs_mono hg (hr stored hstored)
  · intro settled hs
    exact rowIs_mono hg hs
  · rintro settled ⟨hs, hm⟩
    exact ⟨rowIs_mono hg hs, hg.messages _ hm⟩

theorem markAssertion_next (hA : markAssertion s stage) :
    markAssertion (stage.next latest delivered s).1 (stage.next latest delivered s).2 := by
  refine asserts_next
    (R := fun s job read => ∀ stored ∈ read.stored, RowIs s job stored.resultId)
    (P := fun s settled => RowIs s settled.job settled.resultId)
    (M := fun s settled => RowIs s settled.job settled.resultId ∧ settled.message ∈ s.world.messages)
    hA ?_ ?_ ?_ ?_
  · intro job reasons counted _ stored hstored
    obtain ⟨r, hr, rfl⟩ := Option.map_eq_some_iff.mp hstored
    exact ⟨r, hr, rfl⟩
  · intro job read samples inputs hstage hunchanged
    subst hstage
    cases hstored : read.stored with
    | none => simp [Reading.unchanged, hstored] at hunchanged
    | some stored =>
        change RowIs s job ((read.stored.map StoredResult.resultId).getD 0)
        rw [hstored]
        exact hA stored hstored
  · intro job read samples inputs db out _ _ hsave
    exact ⟨_, (Job.save_spec hsave).result.row, rfl⟩
  · intro settled hstage
    subst hstage
    exact ⟨hA, List.mem_append_right _ (List.mem_singleton_self _)⟩

theorem markedMeansSent_disturb (hi : MarkedMeansSent s) (e : Disturbance) :
    MarkedMeansSent (s.disturb e) := by
  cases e with
  | arrive rows => exact hi
  | edit exceptions => exact hi
  | assign call =>
      obtain ⟨hresults, -, hmessages⟩ := world_assign s.world call
      intro k r hr hpublished
      change (s.world.assign call).db.results.find? k = some r at hr
      change ∃ m ∈ (s.world.assign call).messages, _
      rw [hresults] at hr
      rw [hmessages]
      exact hi k r hr hpublished

/-- In every run that marks a row only at a revision that was sent, a row with `published_at` has
had a message for the revision it is at. -/
theorem marked_revision_published {c : Engine ι}
    (h : ((engine ι latest).restrict (Moving MarksOwn)).Reachable c) : MarkedMeansSent c.shared := by
  have hinv := Program.invariant (P := engineProgram latest) (F := Fresh) (M := Moving MarksOwn)
    (I := fun s => RevisionsBelow s.world.db ∧ MarkedMeansSent s) (A := markAssertion) (G := Grows)
    ?_ (fun _ _ he => entry_asserts he) ?_ ?_ (fun _ _ _ hg hA => markAssertion_mono hg hA) h
  · exact hinv.1.2
  · intro c hf
    refine ⟨⟨(publishInvariant_fresh hf).1.below, ?_⟩, ?_⟩
    · intro k r hr
      rw [hf.results] at hr
      cases hr
    · intro i
      rw [hf.locals i]
      trivial
  · intro c i delivered hok hi hA
    have hstep := @sharedStep_next latest delivered c.shared (c.locals i)
    obtain ⟨hb, hg⟩ := sharedStep_grows hstep hi.1
    exact ⟨⟨hb, markedMeansSent_step hi.2 hA hok hstep⟩, markAssertion_next hA, hg⟩
  · intro e s hi
    obtain ⟨hb, hg⟩ := disturb_grows s e hi.1
    exact ⟨⟨hb, markedMeansSent_disturb hi.2 e⟩, hg⟩

/-! ## A revision saved between a message and its mark -/

/-- Up to the mark, another process in between, and the mark. -/
def overtaken (rows : List MetricRow) : List (Event Bool) :=
  runMoves true (firstShift 1) 11 true ++ .disturb (.arrive rows) ::
    (runMoves false (firstShift 1) 12 false ++ [.advance true true])

theorem allowed_overtaken (rows : List MetricRow) :
    ∀ m ∈ overtaken rows, (engineProgram newestRow).Allowed m := by
  intro m hm
  rcases List.mem_append.mp hm with hm | hm
  · exact allowed_runMoves m hm
  rcases List.mem_cons.mp hm with rfl | hm
  · trivial
  rcases List.mem_append.mp hm with hm | hm
  · exact allowed_runMoves m hm
  · rw [List.mem_singleton.mp hm]
    trivial

/-- Without new rows the other process finds the shift unchanged, and the mark is right. -/
theorem marked_overtaken :
    MarkedMeansSent ((engineProgram newestRow).run (idleEngine Bool) (overtaken fiveParts)).shared :=
  marked_revision_published
    (Program.reachable_run_restrict (.init (fresh_idleEngine Bool)) (allowed_overtaken fiveParts)
      (by decide +kernel))

/-- With a late row it saves the second revision, which is marked and has not been sent. -/
theorem overtaken_not_sent : ¬ ∀ (latest : LatestRow) (c : Engine Bool),
    (engine Bool latest).Reachable c → MarkedMeansSent c.shared := by
  intro h
  have hsent := h newestRow _
    (Program.reachable_run (.init (fresh_idleEngine Bool))
      (allowed_overtaken (goodRow (seconds 10) 6 :: fiveParts)))
  have hrow : (((engineProgram newestRow).run (idleEngine Bool)
      (overtaken (goodRow (seconds 10) 6 :: fiveParts))).shared.world.db.results.find? (1, 0)).map
        (fun r => (r.2.revision, r.2.publishedAt)) = some (2, some (hours 1)) := by decide +kernel
  have hmessages : ((engineProgram newestRow).run (idleEngine Bool)
      (overtaken (goodRow (seconds 10) 6 :: fiveParts))).shared.world.messages.map Message.key =
        [(1, 0, 1)] := by decide +kernel
  obtain ⟨r, hr, hvalues⟩ := Option.map_eq_some_iff.mp hrow
  obtain ⟨hrevision, hpublished⟩ := Prod.mk.inj hvalues
  obtain ⟨m, hm, hkey⟩ := hsent (1, 0) r hr (by rw [hpublished]; exact Option.some_ne_none _)
  have hmem := List.mem_map_of_mem (f := Message.key) hm
  rw [hmessages, hkey, hrevision, List.mem_singleton] at hmem
  cases hmem

end Uns.Oee
