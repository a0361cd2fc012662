/-
# `Historian.Checkpoints` — the offsets that are no batch's

`checkpoint_ignored_records` and `read_partition_checkpoints` of
`historian_handler.py`: records that are not projected move the checkpoint of their
partition by the same rule as a batch, and an assigned partition has its checkpoint
read.  What a transaction reports as next offsets are the checkpoints it has left.
-/
import UnifiedNamespace.Historian.Batch

namespace Uns.Historian

open Py Lib

/-! ## Ignored records -/

/-- A record that is consumed and not projected. -/
structure IgnoredConsumedRecord where
  kafkaTopic : Str
  partition : Nat
  offset : Nat

def IgnoredConsumedRecord.partitionKey (r : IgnoredConsumedRecord) : PartitionKey :=
  (r.kafkaTopic, r.partition)

def IgnoredConsumedRecord.le (a b : IgnoredConsumedRecord) : Prop :=
  a.kafkaTopic < b.kafkaTopic ∨ a.kafkaTopic = b.kafkaTopic ∧
    (a.partition < b.partition ∨ a.partition = b.partition ∧ a.offset ≤ b.offset)

instance : DecidableRel IgnoredConsumedRecord.le := fun _ _ => inferInstanceAs (Decidable (_ ∨ _))

/-- The body of the loop, with the checkpoints as locked. -/
def handleIgnored (locked : PartitionKey → Nat) (handled : Dict PartitionKey (List Nat))
    (r : IgnoredConsumedRecord) : Dict PartitionKey (List Nat) :=
  if r.offset < locked r.partitionKey then handled
  else handled.update r.partitionKey [] (· ++ [r.offset])

def checkpointIgnoredRecords (epoch : Nat) (records : List IgnoredConsumedRecord) (t : Tables) :
    Tables × BatchPersistResult :=
  if records.isEmpty then (t, .empty)
  else
    let sortedRecords := records.insertionSort IgnoredConsumedRecord.le
    let keys :=
      ((sortedRecords.map IgnoredConsumedRecord.partitionKey).dedup).insertionSort PartitionKey.le
    let ensured := keys.foldl (ensureCheckpoint epoch) t
    let locked := ensured.checkpoint epoch
    let handled := sortedRecords.foldl (handleIgnored locked) .empty
    let advanced := advanceAll epoch locked handled.entries (ensured, .empty)
    (advanced.1, {
      insertedCount := 0
      duplicateCount := 0
      filteredStaleCount := sortedRecords.countP fun r => r.offset < locked r.partitionKey
      quarantinedConflicts := []
      nextOffsets := advanced.2 })

/-- `read_partition_checkpoints`: the rows are ensured, and read. -/
def readPartitionCheckpoints (epoch : Nat) (kafkaTopic : Str) (partitions : List Nat) (t : Tables) :
    Tables × Dict Nat Nat :=
  (partitions.insertionSort (· ≤ ·)).foldl
    (fun out p =>
      let ensured := ensureCheckpoint epoch out.1 (kafkaTopic, p)
      (ensured, out.2.update p 0 fun _ => ensured.checkpoint epoch (kafkaTopic, p)))
    (t, .empty)

/-! ## What they leave -/

section Statements

variable {epoch : Nat} {t : Tables}

/-- What is reported as advanced was computed from the offsets handled. -/
theorem advanceAll_offsets {locked : PartitionKey → Nat} {es : List (PartitionKey × List Nat)}
    (hn : (es.map Prod.fst).Nodup) {out : Tables × Dict PartitionKey Nat} {key : PartitionKey} {n : Nat}
    (h : (advanceAll epoch locked es out).2.get? key = some n) :
    out.2.get? key = some n ∨
      ∃ offsets, lookup key es = some offsets ∧ n = computeNextOffset (locked key) offsets := by
  induction es generalizing out with
  | nil => exact .inl h
  | cons entry rest ih =>
      obtain ⟨k, offsets⟩ := entry
      rw [List.map_cons, List.nodup_cons] at hn
      have hlater : (∃ offsets, lookup key rest = some offsets ∧ n = computeNextOffset (locked key) offsets) →
          ∃ os, lookup key ((k, offsets) :: rest) = some os ∧ n = computeNextOffset (locked key) os := by
        rintro ⟨os, hos, rfl⟩
        have hne : k ≠ key := by
          rintro rfl
          have hmem : (k, os) ∈ rest := @Dict.mem_of_get? _ _ _ ⟨rest, hn.2⟩ _ _ hos
          exact hn.1 (List.mem_map.mpr ⟨_, hmem, rfl⟩)
        exact ⟨os, by rw [lookup, if_neg hne, hos], rfl⟩
      rw [advanceAll] at h
      split at h
      · rcases ih hn.2 h with hout | hrest
        · by_cases hk : key = k
          · subst hk
            rw [Dict.get?_update_self] at hout
            cases hold : out.2.get? key with
            | some m =>
                rw [hold] at hout
                exact .inl hout
            | none =>
                rw [hold, Option.some.injEq] at hout
                exact .inr ⟨offsets, by rw [lookup, if_pos rfl], hout.symm⟩
          · rw [Dict.get?_update_ne _ _ _ hk] at hout
            exact .inl hout
        · exact .inr (hlater hrest)
      · exact (ih hn.2 h).imp_right hlater

/-- The offsets reported are the checkpoints left behind. -/
theorem advanceAll_reports {locked : PartitionKey → Nat} {handled : Dict PartitionKey (List Nat)}
    {u : Tables} (hl : ∀ key, u.checkpoint epoch key = locked key) {key : PartitionKey} {n : Nat}
    (h : (advanceAll epoch locked handled.entries (u, .empty)).2.get? key = some n) :
    (advanceAll epoch locked handled.entries (u, .empty)).1.checkpoint epoch key = n := by
  obtain ⟨-, -, -, -, hcheck⟩ := @advanceAll_spec epoch locked handled.entries (u, .empty) handled.nodup
    fun key _ => hl key
  rcases advanceAll_offsets handled.nodup h with hout | ⟨offsets, hos, rfl⟩
  · cases hout
  · rw [hcheck key, hos]
    rfl

theorem handleIgnored_get? {locked : PartitionKey → Nat} (records : List IgnoredConsumedRecord)
    (handled : Dict PartitionKey (List Nat)) (key : PartitionKey) :
    ((records.foldl (handleIgnored locked) handled).get? key).getD [] =
      (handled.get? key).getD [] ++
        (records.filter fun r => r.partitionKey = key ∧ locked key ≤ r.offset).map (·.offset) := by
  induction records generalizing handled with
  | nil => exact (List.append_nil _).symm
  | cons r records ih =>
      rw [List.foldl_cons, ih, handleIgnored, List.filter_cons]
      split
      · rename_i hstale
        rw [if_neg]
        intro h
        obtain ⟨hkey, hle⟩ := of_decide_eq_true h
        rw [hkey] at hstale
        omega
      · rename_i hlive
        by_cases hkey : r.partitionKey = key
        · subst hkey
          rw [if_pos (decide_eq_true ⟨rfl, not_lt.mp hlive⟩), Dict.get?_update_self, List.map_cons,
            Option.getD_some, List.append_assoc]
          rfl
        · rw [if_neg (fun h => hkey (of_decide_eq_true h).1),
            Dict.get?_update_ne _ _ _ fun h => hkey h.symm]

/-- Ignored records change no row, and move each checkpoint over the offsets among them. -/
theorem checkpointIgnored_spec (records : List IgnoredConsumedRecord) :
    let out := checkpointIgnoredRecords epoch records t
    (out.1.raw = t.raw ∧ out.1.metrics = t.metrics ∧ out.1.worklist = t.worklist) ∧
      (∀ key, ∃ offsets, (∀ o, o ∈ offsets ↔
          ∃ r ∈ records, r.partitionKey = key ∧ r.offset = o ∧ t.checkpoint epoch key ≤ o) ∧
        out.1.checkpoint epoch key = computeNextOffset (t.checkpoint epoch key) offsets) ∧
      (∀ e ≠ epoch, out.1.checkpoint e = t.checkpoint e) ∧
      ∀ key n, out.2.nextOffsets.get? key = some n → out.1.checkpoint epoch key = n := by
  rw [checkpointIgnoredRecords]
  split
  · rename_i hempty
    rw [List.isEmpty_iff] at hempty
    subst hempty
    refine ⟨⟨rfl, rfl, rfl⟩, fun key => ⟨[], ?_, rfl⟩, fun _ _ => rfl, fun _ _ h => by cases h⟩
    intro o
    constructor
    · intro h
      cases h
    · rintro ⟨_, hr, _⟩
      cases hr
  · dsimp only
    generalize (((records.insertionSort IgnoredConsumedRecord.le).map
      IgnoredConsumedRecord.partitionKey).dedup).insertionSort PartitionKey.le = keys
    obtain ⟨hraw, hmetrics, hwork, hcheck⟩ := @ensureAll_spec epoch t keys
    have hhandled := @handleIgnored_get? (t.checkpoint epoch)
      (records.insertionSort IgnoredConsumedRecord.le) .empty
    rw [hcheck]
    generalize hfold : (records.insertionSort IgnoredConsumedRecord.le).foldl
      (handleIgnored (t.checkpoint epoch)) .empty = handled at hhandled ⊢
    have hl : ∀ key, (keys.foldl (ensureCheckpoint epoch) t).checkpoint epoch key =
        t.checkpoint epoch key := fun key => congrFun (congrFun hcheck epoch) key
    obtain ⟨aRaw, aMetrics, aWork, aOther, aCheck⟩ :=
      @advanceAll_spec epoch (t.checkpoint epoch) handled.entries
        (keys.foldl (ensureCheckpoint epoch) t, .empty) handled.nodup fun key _ => hl key
    refine ⟨⟨aRaw.trans hraw, aMetrics.trans hmetrics, aWork.trans hwork⟩, ?_, ?_, ?_⟩
    · intro key
      refine ⟨(handled.get? key).getD [], ?_, ?_⟩
      · intro o
        rw [hhandled key]
        change o ∈ [] ++ _ ↔ _
        simp only [List.nil_append, List.mem_map, List.mem_filter, List.mem_insertionSort,
          decide_eq_true_eq]
        constructor
        · rintro ⟨r, ⟨hr, hkey, hle⟩, rfl⟩
          exact ⟨r, hr, hkey, rfl, hle⟩
        · rintro ⟨r, hr, hkey, rfl, hle⟩
          exact ⟨r, ⟨hr, hkey, hle⟩, rfl⟩
      · rw [aCheck key, hl key]
        change ((handled.get? key).map _).getD _ = _
        cases handled.get? key with
        | none => exact (computeNextOffset_nil _).symm
        | some offsets => rfl
    · intro e he
      rw [aOther e he, hcheck]
    · intro key n h
      exact advanceAll_reports hl h

theorem insertAccepted_checkpoint {S : Setting} {accepted : List RawInsertRow}
    {metricRows : List MetricInsertRow} {inserted : Tables × List RawInsertRow}
    (h : insertAccepted S accepted metricRows t = .ok inserted) :
    inserted.1.checkpoint = t.checkpoint := by
  rw [insertAccepted] at h
  split at h
  · cases h
  · dsimp only at h
    split at h
    · cases h
    · cases h
      obtain ⟨-, -, hcheck⟩ := @bumpAll_spec
        { t with
          raw := (insertRaw t.raw accepted).1
          metrics := t.metrics ++ metricRows.filter fun m =>
            m.eventId ∈ (insertRaw t.raw accepted).2.map (·.eventId) }
        (((insertRaw t.raw accepted).2.filter fun r => r.isLate).map fun r => utcDay r.time)
      funext epoch key
      simp only [Tables.checkpoint, hcheck]

/-- A batch reports the checkpoints it has left. -/
theorem nextOffsets_of_ok {S : Setting} {events : List ConsumedEvent} {t' : Tables}
    {result : BatchPersistResult} (h : persistBatch S epoch events t = .ok (t', result))
    {key : PartitionKey} {n : Nat} (hn : result.nextOffsets.get? key = some n) :
    t'.checkpoint epoch key = n := by
  by_cases hne : events = []
  · rw [persistBatch, if_pos hne] at h
    cases h
    cases hn
  · rw [persistBatch_eq hne] at h
    cases hp : prepare S events with
    | error e =>
        rw [hp] at h
        cases h
    | ok p =>
        rw [hp] at h
        change transact S epoch _ p.1 p.2.flatten t = .ok (t', result) at h
        generalize sortedPartitionKeys (events.insertionSort ConsumedEvent.le) = keys at h
        simp only [transact] at h
        cases hins : insertAccepted S (p.1.foldl (Sifted.step (keys.foldl (ensureCheckpoint epoch) t).raw
            ((keys.foldl (ensureCheckpoint epoch) t).checkpoint epoch)) Sifted.start).accepted
            p.2.flatten (keys.foldl (ensureCheckpoint epoch) t) with
        | error e =>
            rw [hins] at h
            cases h
        | ok inserted =>
            rw [hins] at h
            cases h
            refine advanceAll_reports ?_ hn
            intro key
            rw [insertAccepted_checkpoint hins]

/-- Reading checkpoints changes none. -/
theorem readPartitionCheckpoints_spec (kafkaTopic : Str) (partitions : List Nat) :
    let out := readPartitionCheckpoints epoch kafkaTopic partitions t
    out.1.raw = t.raw ∧ out.1.metrics = t.metrics ∧ out.1.worklist = t.worklist ∧
      out.1.checkpoint = t.checkpoint ∧
      ∀ p ∈ partitions, out.2.get? p = some (t.checkpoint epoch (kafkaTopic, p)) := by
  suffices h : ∀ (ps : List Nat) (out : Tables × Dict Nat Nat), out.1.checkpoint = t.checkpoint →
      (∀ p n, out.2.get? p = some n → n = t.checkpoint epoch (kafkaTopic, p)) →
      let out' := ps.foldl (fun (out : Tables × Dict Nat Nat) p =>
        let ensured := ensureCheckpoint epoch out.1 (kafkaTopic, p)
        (ensured, out.2.update p 0 fun _ => ensured.checkpoint epoch (kafkaTopic, p))) out
      out'.1.raw = out.1.raw ∧ out'.1.metrics = out.1.metrics ∧ out'.1.worklist = out.1.worklist ∧
        out'.1.checkpoint = t.checkpoint ∧
        ∀ p, (p ∈ ps ∨ (out.2.get? p).isSome) →
          out'.2.get? p = some (t.checkpoint epoch (kafkaTopic, p)) by
    obtain ⟨h1, h2, h3, h4, h5⟩ := h (partitions.insertionSort (· ≤ ·)) (t, .empty) rfl
      (fun _ _ hn => nomatch hn)
    exact ⟨h1, h2, h3, h4, fun p hp => h5 p (.inl ((List.mem_insertionSort _).mpr hp))⟩
  intro ps
  induction ps with
  | nil =>
      intro out hcheck hread
      refine ⟨rfl, rfl, rfl, hcheck, ?_⟩
      rintro p (hp | hp)
      · cases hp
      · obtain ⟨n, hn⟩ := Option.isSome_iff_exists.mp hp
        exact hn.trans (congrArg some (hread p n hn))
  | cons q ps ih =>
      intro out hcheck hread
      have hq : (ensureCheckpoint epoch out.1 (kafkaTopic, q)).checkpoint = t.checkpoint := by
        rw [← hcheck]
        funext e k
        exact checkpoint_ensure e _ k
      obtain ⟨h1, h2, h3, h4, h5⟩ := ih (ensureCheckpoint epoch out.1 (kafkaTopic, q),
        out.2.update q 0 fun _ =>
          (ensureCheckpoint epoch out.1 (kafkaTopic, q)).checkpoint epoch (kafkaTopic, q)) hq (by
          intro p n hn
          by_cases hp : p = q
          · subst hp
            rw [Dict.get?_update_self, hq, Option.some.injEq] at hn
            exact hn.symm
          · rw [Dict.get?_update_ne _ _ _ hp] at hn
            exact hread p n hn)
      refine ⟨h1, h2, h3, h4, ?_⟩
      intro p hp
      refine h5 p ?_
      by_cases hpq : p = q
      · subst hpq
        rw [Dict.get?_update_self]
        exact .inr rfl
      · rw [Dict.get?_update_ne _ _ _ hpq]
        exact hp.imp_left fun hmem => List.mem_of_ne_of_mem hpq hmem

end Statements

end Uns.Historian
