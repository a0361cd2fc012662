/-
# `Historian.OneByOne` — a batch against its events one at a time

`persist_batch` decides what to insert from what is stored before the batch, and
picks the metric rows by event id over the whole batch.  Called with one event at
a time it sees every earlier event already stored.  Here both are brought to one
form: the rows that are not stale are inserted in order (`live`, `insertRaw`), so
the raw tables agree, and what is left is where the counts and the metric rows
can differ.
-/
import UnifiedNamespace.Historian.Batch
import UnifiedNamespace.Config.EventRoundTrip

namespace Uns.Historian

open Py Lib

/-! ## Outcomes -/

/-- The counts a call reports. -/
structure Counts where
  inserted : Nat
  duplicate : Nat
  quarantined : Nat
  deriving DecidableEq

def Counts.zero : Counts := ⟨0, 0, 0⟩

def Counts.add (a b : Counts) : Counts :=
  ⟨a.inserted + b.inserted, a.duplicate + b.duplicate, a.quarantined + b.quarantined⟩

/-- The tables afterwards, what was reported, and whether a call raised. -/
structure Outcome where
  tables : Tables
  counts : Counts
  raised : Bool

/-- One call; when it raises the transaction is rolled back and nothing is reported. -/
def inOneBatch (S : Setting) (epoch : Nat) (events : List ConsumedEvent) (t : Tables) : Outcome :=
  match persistBatch S epoch events t with
  | .ok (t', r) => ⟨t', ⟨r.insertedCount, r.duplicateCount, r.quarantinedConflicts.length⟩, false⟩
  | .error _ => ⟨t, .zero, true⟩

/-- The same tables, as far as a reader sees them, and the same report. -/
structure Agrees (epoch : Nat) (a b : Outcome) : Prop where
  raw : ∀ key, a.tables.raw.get? key = b.tables.raw.get? key
  metrics : a.tables.metrics.Perm b.tables.metrics
  pending : ∀ day, a.tables.Pending day ↔ b.tables.Pending day
  checkpoint : ∀ key, a.tables.checkpoint epoch key = b.tables.checkpoint epoch key
  counts : a.counts = b.counts
  raised : a.raised = b.raised

/-! ## Offsets one at a time -/

/-- The checkpoint after one handled offset. -/
def nextAfter (next offset : Nat) : Nat := if offset = next then next + 1 else next

theorem le_nextAfter (next offset : Nat) : next ≤ nextAfter next offset := by
  rw [nextAfter]
  split <;> omega

theorem foldl_nextAfter_of_lt {next : Nat} {offsets : List Nat} (h : ∀ o ∈ offsets, next < o) :
    offsets.foldl nextAfter next = next := by
  induction offsets with
  | nil => rfl
  | cons o offsets ih =>
      rw [List.forall_mem_cons] at h
      rw [List.foldl_cons, nextAfter, if_neg (by omega)]
      exact ih h.2

theorem le_foldl_nextAfter (next : Nat) (offsets : List Nat) :
    next ≤ offsets.foldl nextAfter next := by
  induction offsets generalizing next with
  | nil => exact le_rfl
  | cons o offsets ih => exact le_trans (le_nextAfter next o) (ih _)

/-- In offset order, advancing over a list is advancing over each of it. -/
theorem advanceOver_eq_foldl {next : Nat} {offsets : List Nat} (h : offsets.Pairwise (· ≤ ·)) :
    advanceOver next offsets = offsets.foldl nextAfter next := by
  induction offsets generalizing next with
  | nil => rfl
  | cons o offsets ih =>
      rw [List.pairwise_cons] at h
      rw [advanceOver, List.foldl_cons, nextAfter]
      split
      · rw [if_neg (by omega)]
        exact ih h.2
      · split
        · rename_i heq
          rw [heq]
          exact ih h.2
        · refine (foldl_nextAfter_of_lt ?_).symm
          intro o' ho'
          have := h.1 o' ho'
          omega

/-- Every offset from the checkpoint up to this one is there. -/
def Reached (next : Nat) (offsets : List Nat) (o : Nat) : Prop :=
  next ≤ o ∧ ∀ p, next ≤ p → p ≤ o → p ∈ offsets

theorem reached_iff {next : Nat} {offsets : List Nat} (h : offsets.Pairwise (· ≤ ·)) {o : Nat} :
    Reached next offsets o ↔ next ≤ o ∧ o < offsets.foldl nextAfter next := by
  refine and_congr_right fun ho => ?_
  induction offsets generalizing next with
  | nil =>
      refine ⟨fun hall => absurd (hall next le_rfl ho) List.not_mem_nil, fun hlt => ?_⟩
      exact absurd hlt (not_lt.mpr ho)
  | cons q offsets ih =>
      rw [List.pairwise_cons] at h
      rw [List.foldl_cons]
      by_cases hq : q = next
      · subst hq
        have hnext : nextAfter q q = q + 1 := if_pos rfl
        rw [hnext]
        rcases Nat.eq_or_lt_of_le ho with heq | hlt
        · subst heq
          refine ⟨fun _ => le_foldl_nextAfter (q + 1) offsets, fun _ p hp hpq => ?_⟩
          rw [le_antisymm hpq hp]
          exact List.mem_cons_self
        · rw [← ih h.2 hlt]
          constructor
          · intro hall p hp hpo
            rcases List.mem_cons.mp (hall p (by omega) hpo) with hpq | hmem
            · omega
            · exact hmem
          · intro hall p hp hpo
            rcases Nat.eq_or_lt_of_le hp with heq | hlt'
            · rw [← heq]
              exact List.mem_cons_self
            · exact List.mem_cons_of_mem _ (hall p hlt' hpo)
      · have hnext : nextAfter next q = next := if_neg hq
        rw [hnext, ← ih h.2 ho]
        constructor
        · intro hall p hp hpo
          rcases List.mem_cons.mp (hall p hp hpo) with hpq | hmem
          · -- `q` cannot be the one at the checkpoint, and nothing before it can be missing.
            rcases List.mem_cons.mp (hall next le_rfl ho) with hn | hn
            · exact absurd hn.symm hq
            · have := h.1 next hn
              omega
          · exact hmem
        · intro hall p hp hpo
          exact List.mem_cons_of_mem _ (hall p hp hpo)

/-- A checkpoint moves over what is handled without a gap. -/
theorem lt_computeNextOffset_iff {next o : Nat} {offsets : List Nat} (h : next ≤ o) :
    o < computeNextOffset next offsets ↔ ∀ p, next ≤ p → p ≤ o → p ∈ offsets := by
  have hsorted := List.pairwise_insertionSort (· ≤ ·) offsets
  have hreached := @reached_iff next _ hsorted o
  rw [← advanceOver_eq_foldl hsorted, Reached] at hreached
  simp only [List.mem_insertionSort] at hreached
  rw [computeNextOffset]
  exact ⟨fun hlt => (hreached.mpr ⟨h, hlt⟩).2, fun hall => (hreached.mp ⟨h, hall⟩).2⟩

/-- The checkpoint moves to the first offset that is not handled. -/
theorem computeNextOffset_isLeast (next : Nat) (offsets : List Nat) :
    IsLeast {n | next ≤ n ∧ n ∉ offsets} (computeNextOffset next offsets) := by
  have hge := le_computeNextOffset next offsets
  have hbelow : ∀ p, next ≤ p → p < computeNextOffset next offsets → p ∈ offsets := fun p hp hlt =>
    (lt_computeNextOffset_iff hp).mp hlt p hp le_rfl
  refine ⟨⟨hge, fun hmem => ?_⟩, fun n hn => ?_⟩
  · -- were it handled, the checkpoint would have moved over it
    refine lt_irrefl (computeNextOffset next offsets) ((lt_computeNextOffset_iff hge).mpr fun p hp hle => ?_)
    rcases Nat.eq_or_lt_of_le hle with rfl | hlt
    · exact hmem
    · exact hbelow p hp hlt
  · by_contra hlt
    exact hn.2 (hbelow n hn.1 (not_le.mp hlt))

/-! ## The rows that are not stale -/

/-- One at a time: each row against the checkpoint the ones before it left. -/
def live : Nat → List RawInsertRow → List RawInsertRow
  | _, [] => []
  | next, r :: rows =>
      if r.offset < next then live next rows else r :: live (nextAfter next r.offset) rows

/-- In one batch: each row against the checkpoint at the start. -/
def handled (next : Nat) (rows : List RawInsertRow) : List RawInsertRow :=
  rows.filter fun r => next ≤ r.offset

theorem live_append (next : Nat) (a b : List RawInsertRow) :
    live next (a ++ b) = live next a ++ live ((a.map (·.offset)).foldl nextAfter next) b := by
  induction a generalizing next with
  | nil => rfl
  | cons r a ih =>
      rw [List.cons_append, live, live, List.map_cons, List.foldl_cons]
      split
      · rename_i hlt
        have hsame : nextAfter next r.offset = next := if_neg (by omega)
        rw [hsame]
        exact ih next
      · rw [ih, List.cons_append]

section Conflicts

/-- Other content than the row's is stored under its key. -/
def differs (raw : Dict EventKey RawColumns) (r : RawInsertRow) : Bool :=
  (raw.get? r.key).any (·.immutableContentHash ≠ r.immutableContentHash)

/-- The conflicts when every row sees the ones before it stored. -/
def conflictsAlong (raw : Dict EventKey RawColumns) : List RawInsertRow → Nat
  | [] => 0
  | r :: rows =>
      (if differs raw r then 1 else 0) + conflictsAlong (insertRaw raw [r]).1 rows

variable {raw : Dict EventKey RawColumns}

theorem conflictsAlong_append (a b : List RawInsertRow) :
    conflictsAlong raw (a ++ b) = conflictsAlong raw a + conflictsAlong (insertRaw raw a).1 b := by
  induction a generalizing raw with
  | nil => exact (Nat.zero_add _).symm
  | cons r a ih =>
      have happ := @insertRaw_append raw [r] a
      rw [List.singleton_append] at happ
      rw [List.cons_append, conflictsAlong, conflictsAlong, ih, happ, Nat.add_assoc]

end Conflicts

/-! ## Rows passed over -/

section PassedOver

variable (locked : PartitionKey → Nat)

/-- The rows of a batch that it does not insert. -/
def passedOver (raw : Dict EventKey RawColumns) : List RawInsertRow → List RawInsertRow
  | [] => []
  | r :: rows =>
      if isFresh raw locked r then passedOver (raw.update r.key r.toRawColumns id) rows
      else r :: passedOver raw rows

variable {locked} {raw : Dict EventKey RawColumns}

/-- The insert is given the fresh rows; the handled ones would do. -/
theorem insertRaw_fresh (rows : List RawInsertRow) :
    insertRaw raw (rows.filter (isFresh raw locked)) = insertRaw raw (rows.filter (isHandled locked)) := by
  rw [← insertRaw_filter (rows.filter (isHandled locked)), List.filter_filter]
  congr 1
  refine List.filter_congr fun r _ => ?_
  rw [isFresh, Bool.and_comm]

theorem perm_passedOver (rows : List RawInsertRow) :
    rows.Perm ((insertRaw raw (rows.filter (isHandled locked))).2 ++ passedOver locked raw rows) := by
  induction rows generalizing raw with
  | nil => exact .refl _
  | cons r rows ih =>
      rw [passedOver, isFresh, List.filter_cons]
      cases hh : isHandled locked r with
      | false =>
          rw [if_neg Bool.false_ne_true, Bool.false_and, if_neg Bool.false_ne_true]
          exact (ih.cons r).trans List.perm_middle.symm
      | true =>
          rw [if_pos rfl, Bool.true_and, insertRaw]
          cases hr : raw.get? r.key with
          | some c => exact (ih.cons r).trans List.perm_middle.symm
          | none => exact ih.cons r

/-- A row is passed over when it is not fresh, or comes after a fresh one of the same key. -/
theorem forall_passedOver {Q : RawInsertRow → Prop} (rows : List RawInsertRow) :
    (∀ s ∈ passedOver locked raw rows, Q s) ↔
      (∀ s ∈ rows, isFresh raw locked s = false → Q s) ∧
        rows.Pairwise fun q s =>
          isFresh raw locked q = true → isFresh raw locked s = true → q.key = s.key → Q s := by
  induction rows generalizing raw with
  | nil => simp [passedOver]
  | cons r rows ih =>
      rw [passedOver, List.forall_mem_cons, List.pairwise_cons]
      by_cases hf : isFresh raw locked r = true
      · rw [if_pos hf, ih]
        have hnone : raw.get? r.key = none := by
          rw [isFresh, Bool.and_eq_true, Option.isNone_iff_eq_none] at hf
          exact hf.2
        have hkeep : ∀ {s : RawInsertRow}, s.key ≠ r.key →
            isFresh (raw.update r.key r.toRawColumns id) locked s = isFresh raw locked s := by
          intro s hs
          rw [isFresh, isFresh, Dict.get?_update_ne _ _ _ hs]
        have hgone : ∀ {s : RawInsertRow}, s.key = r.key →
            isFresh (raw.update r.key r.toRawColumns id) locked s = false := by
          intro s hs
          rw [isFresh, hs, Dict.get?_update_self]
          exact Bool.and_false _
        constructor
        · rintro ⟨hold, hpairs⟩
          refine ⟨⟨fun h => absurd hf (by rw [h]; exact Bool.false_ne_true), ?_⟩, ?_, ?_⟩
          · intro s hs hsf
            by_cases hk : s.key = r.key
            · exact hold s hs (hgone hk)
            · exact hold s hs ((hkeep hk).trans hsf)
          · intro s hs _ _ hk
            exact hold s hs (hgone hk.symm)
          · refine hpairs.imp_of_mem fun {q s} _ hs h hq hsf hk => ?_
            by_cases hkr : q.key = r.key
            · exact hold s hs (hgone (hk.symm.trans hkr))
            · exact h ((hkeep hkr).trans hq) ((hkeep (hk ▸ hkr)).trans hsf) hk
        · rintro ⟨⟨-, hold⟩, hhead, hpairs⟩
          constructor
          · intro s hs hsf
            cases hraw : isFresh raw locked s with
            | false => exact hold s hs hraw
            | true =>
                by_cases hk : s.key = r.key
                · exact hhead s hs hf hraw hk.symm
                · rw [hkeep hk, hraw] at hsf
                  cases hsf
          · refine hpairs.imp fun {q s} h hq hsf hk => ?_
            have hkr : q.key ≠ r.key := by
              intro hkr
              rw [hgone hkr] at hq
              cases hq
            exact h ((hkeep hkr).symm.trans hq) ((hkeep (hk ▸ hkr)).symm.trans hsf) hk
      · rw [if_neg hf, List.forall_mem_cons, ih]
        have hff : isFresh raw locked r = false := Bool.eq_false_iff.mpr hf
        constructor
        · rintro ⟨hr, hold, hpairs⟩
          exact ⟨⟨fun _ => hr, hold⟩, fun s _ h => absurd h hf, hpairs⟩
        · rintro ⟨⟨hr, hold⟩, -, hpairs⟩
          exact ⟨hr hff, hold, hpairs⟩

end PassedOver

/-! ## One at a time -/

section Steps

variable {S : Setting} {epoch : Nat} {key : PartitionKey}

/-- The database refuses the row or a metric row of it, and the row is to be inserted. -/
def Refused (S : Setting) (epoch : Nat) (t : Tables) (r : RawInsertRow) : Prop :=
  isFresh t.raw (t.checkpoint epoch) r = true ∧
    (S.refusesRaw r.toRawColumns = true ∨ (metricsOf S r).any S.refusesMetric = true)

/-- Calls for rows of one partition, one at a time: the rows that are not stale are inserted in
order, each new one with its own metric rows. -/
structure Steps (S : Setting) (epoch : Nat) (key : PartitionKey) (t : Tables)
    (rows : List RawInsertRow) (o : Outcome) : Prop where
  raised : o.raised = false
  raw : o.tables.raw = (insertRaw t.raw (live (t.checkpoint epoch key) rows)).1
  metrics : o.tables.metrics = t.metrics ++
    (insertRaw t.raw (live (t.checkpoint epoch key) rows)).2.flatMap (metricsOf S)
  worklist : o.tables.worklist =
    ((lateDays (insertRaw t.raw (live (t.checkpoint epoch key) rows)).2).foldl bumpLate t).worklist
  checkpoint : o.tables.checkpoint epoch key =
    (rows.map (·.offset)).foldl nextAfter (t.checkpoint epoch key)
  otherKeys : ∀ k ≠ key, o.tables.checkpoint epoch k = t.checkpoint epoch k
  inserted : o.counts.inserted = (insertRaw t.raw (live (t.checkpoint epoch key) rows)).2.length
  quarantined : o.counts.quarantined = conflictsAlong t.raw (live (t.checkpoint epoch key) rows)
  total : o.counts.inserted + o.counts.duplicate + o.counts.quarantined =
    (live (t.checkpoint epoch key) rows).length

theorem Steps.nil (t : Tables) : Steps S epoch key t [] ⟨t, .zero, false⟩ :=
  ⟨rfl, rfl, (List.append_nil _).symm, rfl, rfl, fun _ _ => rfl, rfl, rfl, rfl⟩

theorem Steps.append {t : Tables} {a b : List RawInsertRow} {o₁ o₂ : Outcome}
    (h₁ : Steps S epoch key t a o₁) (h₂ : Steps S epoch key o₁.tables b o₂) :
    Steps S epoch key t (a ++ b) { o₂ with counts := o₁.counts.add o₂.counts } := by
  have hb : ∀ x, insertRaw o₁.tables.raw x =
      insertRaw (insertRaw t.raw (live (t.checkpoint epoch key) a)).1 x := fun x => by rw [h₁.raw]
  have hlive := live_append (t.checkpoint epoch key) a b
  rw [← h₁.checkpoint] at hlive
  constructor
  · exact h₂.raised
  · rw [hlive, insertRaw_append, h₂.raw, hb]
  · rw [hlive, insertRaw_append, List.flatMap_append, h₂.metrics, hb, h₁.metrics, List.append_assoc]
  · rw [hlive, insertRaw_append, lateDays, List.filter_append, List.map_append, List.foldl_append,
      h₂.worklist, hb]
    exact bumpAll_worklist h₁.worklist _
  · rw [List.map_append, List.foldl_append, ← h₁.checkpoint, h₂.checkpoint]
  · intro k hk
    rw [h₂.otherKeys k hk, h₁.otherKeys k hk]
  · rw [hlive, insertRaw_append, List.length_append, ← hb, ← h₂.inserted, ← h₁.inserted]
    rfl
  · rw [hlive, conflictsAlong_append, ← h₁.quarantined, ← h₁.raw, ← h₂.quarantined]
    rfl
  · rw [hlive, List.length_append, ← h₁.total, ← h₂.total]
    simp only [Counts.add]
    omega

section OnePartition

variable {locked : PartitionKey → Nat} {rows : List RawInsertRow}

end OnePartition

end Steps

/-! ## In one batch -/

section Batch

variable {S : Setting} {epoch : Nat} {key : PartitionKey} {t : Tables} {rows : List RawInsertRow}

theorem isFresh_iff {raw : Dict EventKey RawColumns} {locked : PartitionKey → Nat} {r : RawInsertRow} :
    isFresh raw locked r = true ↔ isHandled locked r = true ∧ raw.get? r.key = none := by
  rw [isFresh, Bool.and_eq_true, Option.isNone_iff_eq_none]

/-- Every fresh row has a row under its key among those inserted, and these are fresh. -/
theorem mem_insertedRows_spec :
    (∀ r ∈ insertedRows epoch t rows, r ∈ rows ∧ isFresh t.raw (t.checkpoint epoch) r = true) ∧
      ∀ q ∈ rows, isFresh t.raw (t.checkpoint epoch) q = true →
        ∃ r ∈ insertedRows epoch t rows, r.key = q.key := by
  obtain ⟨hsub, -, -⟩ := @insertRaw_returned t.raw
    (rows.filter (isFresh t.raw (t.checkpoint epoch)))
  refine ⟨fun r hr => List.mem_filter.mp (hsub.subset hr), ?_⟩
  intro q hq hf
  have hnone := (isFresh_iff.mp hf).2
  have hstored : (insertRaw t.raw (rows.filter (isFresh t.raw (t.checkpoint epoch)))).1.get? q.key ≠
      none := by
    rw [Ne, insertRaw_none_iff]
    rintro ⟨-, hall⟩
    exact hall q (List.mem_filter.mpr ⟨hq, hf⟩) rfl
  rw [insertRaw_get?, hnone, Option.none_or, Ne, Option.map_eq_none_iff, List.find?_eq_none] at hstored
  simp only [not_forall, decide_eq_true_eq, not_not] at hstored
  obtain ⟨r, hr, hk⟩ := hstored
  exact ⟨r, hr, hk⟩

theorem mem_insertedIds {x : Str} :
    x ∈ (insertedRows epoch t rows).map (·.eventId) ↔
      ∃ q ∈ rows, isFresh t.raw (t.checkpoint epoch) q = true ∧ q.eventId = x := by
  obtain ⟨hfresh, hkeys⟩ := @mem_insertedRows_spec epoch t rows
  rw [List.mem_map]
  constructor
  · rintro ⟨r, hr, rfl⟩
    exact ⟨r, (hfresh r hr).1, (hfresh r hr).2, rfl⟩
  · rintro ⟨q, hq, hf, rfl⟩
    obtain ⟨r, hr, hk⟩ := hkeys q hq hf
    exact ⟨r, hr, congrArg Prod.snd hk⟩

/-- The metric rows of a batch are those of the rows inserted, and those of rows passed over that
share the id of one. -/
theorem insertedMetrics_perm_iff :
    (insertedMetrics epoch t rows (rows.map (metricsOf S)).flatten).Perm
        ((insertedRows epoch t rows).flatMap (metricsOf S)) ↔
      ∀ s ∈ passedOver (t.checkpoint epoch) t.raw rows,
        s.eventId ∈ (insertedRows epoch t rows).map (·.eventId) → metricsOf S s = [] := by
  have hperm := ((@perm_passedOver (t.checkpoint epoch) t.raw rows).flatMap_right
    (metricsOf S)).filter fun m => m.eventId ∈ (insertedRows epoch t rows).map (·.eventId)
  rw [← insertRaw_fresh, List.flatMap_append, List.filter_append] at hperm
  have hown : ((insertedRows epoch t rows).flatMap (metricsOf S)).filter
      (fun m => m.eventId ∈ (insertedRows epoch t rows).map (·.eventId)) =
      (insertedRows epoch t rows).flatMap (metricsOf S) := by
    refine List.filter_eq_self.mpr fun m hm => decide_eq_true ?_
    obtain ⟨r, hr, hmr⟩ := List.mem_flatMap.mp hm
    rw [eventId_of_mem_metricsOf hmr]
    exact List.mem_map_of_mem hr
  change ((rows.flatMap (metricsOf S)).filter _).Perm
    (((insertedRows epoch t rows).flatMap (metricsOf S)).filter _ ++ _) at hperm
  rw [hown] at hperm
  rw [insertedMetrics, ← List.flatMap_def]
  constructor
  · intro h s hs hid
    have hlen := hperm.length_eq.symm.trans h.length_eq
    rw [List.length_append, Nat.add_eq_left, List.length_eq_zero_iff, List.filter_eq_nil_iff] at hlen
    refine List.eq_nil_iff_forall_not_mem.mpr fun m hm => ?_
    refine hlen m (List.mem_flatMap.mpr ⟨s, hs, hm⟩) (decide_eq_true ?_)
    rwa [eventId_of_mem_metricsOf hm]
  · intro h
    refine hperm.trans ?_
    rw [List.filter_eq_nil_iff.mpr, List.append_nil]
    intro m hm hid
    obtain ⟨s, hs, hms⟩ := List.mem_flatMap.mp hm
    rw [eventId_of_mem_metricsOf hms] at hid
    rw [h s hs (of_decide_eq_true hid)] at hms
    cases hms

/-- The metric rows agree exactly when no row passed over brings its own. -/
theorem passedOver_iff (htime : ∀ q ∈ rows, ∀ r ∈ rows, isFresh t.raw (t.checkpoint epoch) q = true →
    isFresh t.raw (t.checkpoint epoch) r = true → q.eventId = r.eventId → q.time = r.time) :
    (∀ s ∈ passedOver (t.checkpoint epoch) t.raw rows,
        s.eventId ∈ (insertedRows epoch t rows).map (·.eventId) → metricsOf S s = []) ↔
      (∀ q ∈ rows, ∀ r ∈ rows, isFresh t.raw (t.checkpoint epoch) q = true →
          isFresh t.raw (t.checkpoint epoch) r = false → q.eventId = r.eventId → metricsOf S r = []) ∧
        rows.Pairwise fun q r => isFresh t.raw (t.checkpoint epoch) q = true →
          isFresh t.raw (t.checkpoint epoch) r = true → q.eventId = r.eventId → metricsOf S r = [] := by
  rw [forall_passedOver (Q := fun s =>
    s.eventId ∈ (insertedRows epoch t rows).map (·.eventId) → metricsOf S s = [])]
  refine and_congr ?_ ?_
  · constructor
    · intro h q hq r hr hqf hrf hid
      exact h r hr hrf (mem_insertedIds.mpr ⟨q, hq, hqf, hid⟩)
    · intro h r hr hrf hmem
      obtain ⟨q, hq, hqf, hid⟩ := mem_insertedIds.mp hmem
      exact h q hq r hr hqf hrf hid
  · refine List.Pairwise.iff_of_mem fun {q r} hq hr => ?_
    constructor
    · intro h hqf hrf hid
      exact h hqf hrf (Prod.ext (htime q hq r hr hqf hrf hid) hid)
        (mem_insertedIds.mpr ⟨q, hq, hqf, hid⟩)
    · intro h hqf hrf hk _
      exact h hqf hrf (congrArg Prod.snd hk)

end Batch

/-! ## Batches that raise -/

section Raised

variable {S : Setting} {epoch : Nat} {key : PartitionKey} {t : Tables}

/-- A call for this event alone raises. -/
def Fails (S : Setting) (epoch : Nat) (t : Tables) (e : ConsumedEvent) : Prop :=
  ∀ r, rowOf S e = .ok r → Refused S epoch t r

/-- What the calls read of the tables. -/
structure SameTables (epoch : Nat) (a b : Tables) : Prop where
  raw : a.raw = b.raw
  metrics : a.metrics = b.metrics
  worklist : a.worklist = b.worklist
  checkpoint : a.checkpoint epoch = b.checkpoint epoch

theorem Fails.congr {a b : Tables} (h : SameTables epoch a b) {e : ConsumedEvent}
    (hf : Fails S epoch a e) : Fails S epoch b e := by
  intro r hr
  have href := hf r hr
  rwa [Refused, h.raw, h.checkpoint] at href

theorem exists_row_of_mem {events : List ConsumedEvent} {rows : List RawInsertRow}
    (h : List.Forall₂ (fun e r => rowOf S e = .ok r) events rows) {e : ConsumedEvent}
    (hmem : e ∈ events) : ∃ r ∈ rows, rowOf S e = .ok r := by
  induction h with
  | nil => cases hmem
  | cons hr _ ih =>
      rcases List.mem_cons.mp hmem with rfl | hmem
      · exact ⟨_, List.mem_cons_self, hr⟩
      · obtain ⟨r, hr', hrow⟩ := ih hmem
        exact ⟨r, List.mem_cons_of_mem _ hr', hrow⟩

end Raised

/-! ## A batch and its events -/

section OneByOne

variable {S : Setting} {epoch : Nat} {key : PartitionKey} {t : Tables}

end OneByOne

/-! ## Two records -/

/-- A database that takes every row. -/
def openSetting : Setting := ⟨cpython, 1000, 20000, fun _ => false, fun _ => false⟩

def emptyTables : Tables := ⟨.empty, [], .empty, .empty⟩

/-- The sample event under an id, as the record at an offset. -/
def record (id : Str) (offset : Nat) : ConsumedEvent where
  kafkaTopic := lit "uns.historic-events"
  partition := 0
  offset := offset
  envelope := { telemetrySample Datetime newYear2026 1700000000 with eventId := .str id }
  eventId := id
  hasId := rfl

example : (record [] 0).partitionKey = (record [] 1).partitionKey := by decide +kernel

def firstId : Str := lit "ingress:00000000-0000-0000-0000-000000000000"

def secondId : Str := lit "ingress:00000000-0000-0000-0000-000000000001"

end Uns.Historian
