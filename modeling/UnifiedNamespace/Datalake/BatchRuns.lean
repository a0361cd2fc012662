/-
# `Datalake.BatchRuns` — the buffers over whole runs

Any order of `try_add`, `pop_partition` and `reserve_admission`.  A buffer stays within the
limits and counts what it holds (`kept_run`), its records are those that were offered, in that
order (`sublist_offered`), and freezing them gives each route its records, in that order
(`distributed_freeze`).  The order is that of the offsets when the records were offered so: no
method compares offsets (`batches_kept`).
-/
import UnifiedNamespace.Datalake.Batch

namespace Uns

open Py

namespace BatchManager

/-! ## The operations -/

/-- `none` is the `ValueError`. -/
def reserveAdmission (b : BatchManager) (wireBytes : Nat) : Option BatchManager :=
  if b.limits.maxRecordBytes < wireBytes then none else some { b with pendingRecordBytes := wireBytes }

inductive Op where
  | tryAdd (monotonic : ℚ) (record : LakeRecord)
  | popPartition (key : PartitionKey)
  | reserveAdmission (wireBytes : Nat)

/-- One operation; one that raises leaves the manager as it is. -/
def step (b : BatchManager) : Op → BatchManager
  | .tryAdd monotonic record =>
      match b.tryAdd monotonic record with
      | some (_, after) => after
      | none => b
  | .popPartition key => (b.popPartition key).2
  | .reserveAdmission wireBytes => (b.reserveAdmission wireBytes).getD b

def run (b : BatchManager) (ops : List Op) : BatchManager := ops.foldl step b

variable {b : BatchManager} {key : PartitionKey} {r : LakeRecord} {monotonic : ℚ}

/-- What `try_add` does: nothing, or it adds a record that fits. -/
theorem step_tryAdd (b : BatchManager) (monotonic : ℚ) (r : LakeRecord) :
    b.step (.tryAdd monotonic r) = b ∨
      b.admissionWouldExceedLimits r = some false ∧ b.step (.tryAdd monotonic r) = b.add monotonic r := by
  simp only [step, tryAdd]
  cases h : b.admissionWouldExceedLimits r with
  | none => exact .inl rfl
  | some exceeds =>
      cases exceeds with
      | true => exact .inl rfl
      | false => exact .inr ⟨rfl, rfl⟩

theorem step_reserve (b : BatchManager) (wireBytes : Nat) :
    (b.step (.reserveAdmission wireBytes)).limits = b.limits ∧
      (b.step (.reserveAdmission wireBytes)).buffers = b.buffers := by
  rw [step, reserveAdmission]
  split <;> exact ⟨rfl, rfl⟩

/-! ## Bounds and accounts -/

/-- A buffer is within the limits and counts its records. -/
structure BufferKept (limits : FlushLimits) (buffer : PartitionBuffer) : Prop where
  records : buffer.records.length ≤ limits.maxRecords
  bytes : buffer.byteTotal ≤ limits.maxBytes
  groups : buffer.routeGroups.card ≤ limits.maxActiveRouteGroups
  byteTotal : buffer.byteTotal = (buffer.records.map LakeRecord.wireBytes).sum
  routeGroups : buffer.routeGroups = (buffer.records.map fun r => r.resolved.route).toFinset

theorem bufferKept_empty (limits : FlushLimits) : BufferKept limits .empty :=
  ⟨Nat.zero_le _, Nat.zero_le _, Nat.zero_le _, rfl, rfl⟩

def Kept (b : BatchManager) : Prop := ∀ e ∈ b.buffers.entries, BufferKept b.limits e.2

theorem Kept.buffer (h : b.Kept) (key : PartitionKey) : BufferKept b.limits (b.buffer key) := by
  rw [BatchManager.buffer]
  cases hfound : b.buffers.get? key with
  | none => exact bufferKept_empty _
  | some buffer => exact h _ (Lib.Dict.mem_of_get? hfound)

theorem projectedRouteGroups_eq (b : BatchManager) (r : LakeRecord) :
    b.projectedRouteGroups r = (insert r.resolved.route (b.buffer r.partitionKey).routeGroups).card := by
  rw [projectedRouteGroups, BatchManager.buffer]
  cases b.buffers.get? r.partitionKey with
  | none => rfl
  | some buffer =>
      change (if _ then _ else _) = (insert r.resolved.route buffer.routeGroups).card
      split
      · next hin => rw [Finset.insert_eq_of_mem hin]
      · next hout => rw [Finset.card_insert_of_notMem hout]

/-- An admitted record fits into its buffer. -/
theorem bufferKept_push (h : b.Kept) (hfits : b.admissionWouldExceedLimits r = some false) (monotonic : ℚ) :
    BufferKept b.limits ((b.buffer r.partitionKey).push monotonic r) := by
  have hbuffer := h.buffer r.partitionKey
  rw [admissionWouldExceedLimits] at hfits
  split at hfits
  · cases hfits
  · simp only [Option.some.injEq, Bool.or_eq_false_iff, decide_eq_false_iff_not, not_lt,
      projectedRouteGroups_eq] at hfits
    obtain ⟨⟨hgroups, hrecords⟩, hbytes⟩ := hfits
    refine ⟨?_, ?_, hgroups, PartitionBuffer.counted _, ?_⟩
    · rw [PartitionBuffer.push, List.length_append]
      exact hrecords
    · change (b.buffer r.partitionKey).byteTotal + r.wireBytes ≤ b.limits.maxBytes
      omega
    · change insert r.resolved.route (b.buffer r.partitionKey).routeGroups =
        (((b.buffer r.partitionKey).records ++ [r]).map fun r => r.resolved.route).toFinset
      rw [hbuffer.routeGroups, List.map_append, List.toFinset_append, List.map_singleton, List.toFinset_cons,
        List.toFinset_nil, Finset.union_comm]
      rfl

theorem Kept.step (h : b.Kept) (op : Op) : (b.step op).Kept ∧ (b.step op).limits = b.limits := by
  cases op with
  | tryAdd monotonic r =>
      rcases step_tryAdd b monotonic r with hsame | ⟨hfits, hadd⟩
      · rw [hsame]
        exact ⟨h, rfl⟩
      · rw [hadd]
        refine ⟨fun e he => ?_, rfl⟩
        rcases Lib.Dict.mem_entries_update he with he | rfl
        · exact h e he
        · exact bufferKept_push h hfits monotonic
  | popPartition key => exact ⟨fun e he => h e (Lib.Dict.mem_entries_erase he), rfl⟩
  | reserveAdmission wireBytes =>
      obtain ⟨hlimits, hbuffers⟩ := step_reserve b wireBytes
      refine ⟨fun e he => ?_, hlimits⟩
      rw [hlimits]
      exact h e (hbuffers ▸ he)

theorem Kept.run (h : b.Kept) (ops : List Op) : (b.run ops).Kept ∧ (b.run ops).limits = b.limits := by
  induction ops generalizing b with
  | nil => exact ⟨h, rfl⟩
  | cons op ops ih =>
      obtain ⟨hstep, hlimits⟩ := h.step op
      obtain ⟨hrun, hrest⟩ := ih hstep
      exact ⟨hrun, hrest.trans hlimits⟩

theorem kept_empty (limits : FlushLimits) : (empty limits).Kept := fun _ he => absurd he List.not_mem_nil

/-! ## The order of the records -/

def Op.offeredTo (key : PartitionKey) : Op → Option LakeRecord
  | .tryAdd _ record => if record.partitionKey = key then some record else none
  | _ => none

/-- The records of a partition that were offered, in order. -/
def offered (key : PartitionKey) (ops : List Op) : List LakeRecord := ops.filterMap (Op.offeredTo key)

theorem buffer_add_self (b : BatchManager) (monotonic : ℚ) (r : LakeRecord) :
    (b.add monotonic r).buffer r.partitionKey = (b.buffer r.partitionKey).push monotonic r := by
  rw [buffer, add, Lib.Dict.get?_update_self]
  rfl

theorem buffer_add_ne (h : key ≠ r.partitionKey) : (b.add monotonic r).buffer key = b.buffer key := by
  rw [buffer, add, Lib.Dict.get?_update_ne _ _ _ h]
  rfl

/-- A step leaves a buffer's records, drops them, or adds the one that is offered. -/
theorem records_step (b : BatchManager) (key : PartitionKey) (op : Op) :
    ((b.step op).buffer key).records.Sublist ((b.buffer key).records ++ offered key [op]) := by
  cases op with
  | tryAdd monotonic r =>
      rcases step_tryAdd b monotonic r with hsame | ⟨-, hadd⟩
      · rw [hsame]
        exact List.sublist_append_left _ _
      · rw [hadd]
        by_cases hkey : r.partitionKey = key
        · subst hkey
          have hrecord : Op.offeredTo r.partitionKey (.tryAdd monotonic r) = some r := if_pos rfl
          rw [offered, List.filterMap_cons_some hrecord, List.filterMap_nil, buffer_add_self]
          exact List.Sublist.refl _
        · rw [buffer_add_ne (Ne.symm hkey)]
          exact List.sublist_append_left _ _
  | popPartition popped =>
      refine List.Sublist.trans ?_ (List.sublist_append_left _ _)
      rw [step, popPartition, buffer]
      by_cases hkey : key = popped
      · rw [hkey, Lib.Dict.get?_erase_self]
        exact List.nil_sublist _
      · rw [Lib.Dict.get?_erase_ne _ hkey]
        exact List.Sublist.refl _
  | reserveAdmission wireBytes =>
      rw [buffer, (step_reserve b wireBytes).2]
      exact List.sublist_append_left _ _

theorem sublist_offered (b : BatchManager) (key : PartitionKey) (ops : List Op) :
    ((b.run ops).buffer key).records.Sublist ((b.buffer key).records ++ offered key ops) := by
  induction ops generalizing b with
  | nil => exact List.sublist_append_left _ _
  | cons op ops ih =>
      have hsplit : offered key (op :: ops) = offered key [op] ++ offered key ops := by
        rw [offered, ← List.singleton_append, List.filterMap_append]
        rfl
      rw [hsplit, ← List.append_assoc]
      exact (ih (b.step op)).trans ((records_step b key op).append_right _)

end BatchManager

/-! ## Freezing -/

section Freeze

variable {records : List LakeRecord} {route : LakeRoute}

theorem get?_group (grouped : Lib.Dict LakeRoute (List LakeRecord)) (records : List LakeRecord) (route : LakeRoute) :
    (records.foldl (fun grouped r => grouped.update r.resolved.route [] (· ++ [r])) grouped).get? route =
      if records.filter (fun r => decide (r.resolved.route = route)) = [] then grouped.get? route
      else some ((grouped.get? route).getD [] ++ records.filter fun r => decide (r.resolved.route = route)) := by
  induction records generalizing grouped with
  | nil => rfl
  | cons r records ih =>
      rw [List.foldl_cons, ih]
      by_cases hroute : r.resolved.route = route
      · subst hroute
        rw [List.filter_cons_of_pos (by exact decide_eq_true rfl), if_neg (List.cons_ne_nil _ _),
          Lib.Dict.get?_update_self,
          Option.getD_some]
        split
        · next hnil => rw [hnil]
        · rw [List.append_assoc, List.singleton_append]
      · rw [List.filter_cons_of_neg (by simpa using hroute), Lib.Dict.get?_update_ne _ _ _ (Ne.symm hroute)]

/-- A route's group is its records, in order. -/
theorem mem_entries_group : (route, records) ∈ (groupRecordsByRoute all).entries ↔
    records ≠ [] ∧ records = all.filter fun r => decide (r.resolved.route = route) := by
  rw [← Lib.Dict.get?_eq_some, groupRecordsByRoute, get?_group]
  split
  · next hnil =>
    refine iff_of_false (fun h => by cases h) ?_
    rintro ⟨hne, rfl⟩
    exact hne hnil
  · next hne =>
    rw [Option.some.injEq]
    constructor
    · rintro rfl
      exact ⟨hne, rfl⟩
    · exact fun h => h.2.symm

theorem perm_updateEntries (grouped : List (LakeRoute × List LakeRecord)) (r : LakeRecord) :
    ((Lib.updateEntries r.resolved.route [] (· ++ [r]) grouped).flatMap Prod.snd).Perm
      (grouped.flatMap Prod.snd ++ [r]) := by
  induction grouped with
  | nil => exact List.Perm.refl _
  | cons e grouped ih =>
      rw [Lib.updateEntries]
      split
      · rw [List.flatMap_cons, List.flatMap_cons, List.append_assoc, List.append_assoc]
        exact List.perm_append_comm.append_left _
      · rw [List.flatMap_cons, List.flatMap_cons, List.append_assoc]
        exact ih.append_left _

theorem perm_group (records : List LakeRecord) :
    ((groupRecordsByRoute records).entries.flatMap Prod.snd).Perm records := by
  have hgen : ∀ (records : List LakeRecord) (grouped : Lib.Dict LakeRoute (List LakeRecord)),
      ((records.foldl (fun grouped r => grouped.update r.resolved.route [] (· ++ [r])) grouped).entries.flatMap
        Prod.snd).Perm (grouped.entries.flatMap Prod.snd ++ records) := by
    intro records
    induction records with
    | nil => exact fun grouped => by rw [List.append_nil]; exact List.Perm.refl _
    | cons r records ih =>
        intro grouped
        refine (ih _).trans ?_
        have hstep := (perm_updateEntries grouped.entries r).append_right records
        rwa [List.append_assoc, List.singleton_append] at hstep
  exact hgen records .empty

/-- Every record in one group, the group of its route, in the order of the records. -/
structure Distributed (records : List LakeRecord) (groups : List FrozenRouteGroup) : Prop where
  routes : (groups.map FrozenRouteGroup.route).Nodup
  group : ∀ g ∈ groups, g.records ≠ [] ∧ g.records = records.filter fun r => decide (r.resolved.route = g.route)
  covered : ∀ r ∈ records, ∃ g ∈ groups, r ∈ g.records ∧ ∀ h ∈ groups, r ∈ h.records → h = g
  perm : (groups.flatMap FrozenRouteGroup.records).Perm records

theorem distributed_freeze (key : PartitionKey) (records : List LakeRecord) (flushId : Str) (newObjectId : Nat → Str) :
    Distributed records (freezePartitionRecords key records flushId newObjectId).routeGroups := by
  let sorted := (groupRecordsByRoute records).entries.insertionSort fun a b => routeSortKey a.1 ≤ routeSortKey b.1
  have hperm : sorted.Perm (groupRecordsByRoute records).entries := List.perm_insertionSort _ _
  have hgroups : ∀ {β : Type} (f : FrozenRouteGroup → β) (g : LakeRoute × List LakeRecord → β),
      (∀ e : (LakeRoute × List LakeRecord) × Nat,
        f ⟨e.1.1, newObjectId e.2, e.1.2, lakeObjectPath e.1.1 (newObjectId e.2)⟩ = g e.1) →
      (freezePartitionRecords key records flushId newObjectId).routeGroups.map f = sorted.map g := by
    intro β f g hfg
    have hfst := List.map_map (l := sorted.zipIdx) (f := Prod.fst) (g := g)
    rw [List.zipIdx_map_fst] at hfst
    rw [freezePartitionRecords, List.map_map, hfst]
    exact List.map_congr_left fun e _ => hfg e
  have hroutes :
      ((freezePartitionRecords key records flushId newObjectId).routeGroups.map FrozenRouteGroup.route).Nodup := by
    rw [hgroups FrozenRouteGroup.route Prod.fst fun _ => rfl]
    exact (hperm.map Prod.fst).nodup_iff.mpr (groupRecordsByRoute records).nodup
  have hgroup : ∀ g ∈ (freezePartitionRecords key records flushId newObjectId).routeGroups,
      g.records ≠ [] ∧ g.records = records.filter fun r => decide (r.resolved.route = g.route) := by
    intro g hg
    obtain ⟨e, he, rfl⟩ := List.mem_map.mp hg
    exact mem_entries_group.mp (hperm.mem_iff.mp (List.fst_mem_of_mem_zipIdx he))
  refine ⟨hroutes, hgroup, fun r hr => ?_, ?_⟩
  · have hmine : r ∈ records.filter fun s => decide (s.resolved.route = r.resolved.route) :=
      List.mem_filter.mpr ⟨hr, decide_eq_true rfl⟩
    have hentry := mem_entries_group.mpr ⟨List.ne_nil_of_mem hmine, rfl⟩
    have hin : (r.resolved.route, records.filter fun s => decide (s.resolved.route = r.resolved.route)) ∈
        (freezePartitionRecords key records flushId newObjectId).routeGroups.map fun g => (g.route, g.records) := by
      rw [hgroups (fun g => (g.route, g.records)) id fun _ => rfl, List.map_id]
      exact hperm.mem_iff.mpr hentry
    obtain ⟨g, hg, heq⟩ := List.mem_map.mp hin
    obtain ⟨hroute, hrecords⟩ := Prod.mk.inj heq
    refine ⟨g, hg, hrecords ▸ hmine, fun h hh hrh => List.inj_on_of_nodup_map hroutes hh hg ?_⟩
    rw [(hgroup h hh).2] at hrh
    rw [hroute]
    exact (of_decide_eq_true (List.mem_filter.mp hrh).2).symm
  · rw [List.flatMap_def, hgroups FrozenRouteGroup.records Prod.snd fun _ => rfl, ← List.flatMap_def]
    exact (hperm.flatMap_right Prod.snd).trans (perm_group records)

end Freeze

/-! ## Whole runs -/

/-- Records of a partition offered in the order of their offsets. -/
def InOffsetOrder (key : PartitionKey) (ops : List BatchManager.Op) : Prop :=
  (BatchManager.offered key ops).Pairwise fun r s => r.offset ≤ s.offset

/-- Over every run the buffers are kept, and a popped one is distributed over its routes in the
order of admission, the offsets' order if the records were offered so. -/
theorem batches_kept (limits : FlushLimits) (ops : List BatchManager.Op) :
    (∀ e ∈ ((BatchManager.empty limits).run ops).buffers.entries, BatchManager.BufferKept limits e.2) ∧
      ∀ (key : PartitionKey) (flushId : Str) (newObjectId : Nat → Str),
        let records := (((BatchManager.empty limits).run ops).popPartition key).1.records
        let groups := (freezePartitionRecords key records flushId newObjectId).routeGroups
        records.Sublist (BatchManager.offered key ops) ∧ Distributed records groups ∧
          (InOffsetOrder key ops → ∀ g ∈ groups, g.records.Pairwise fun r s => r.offset ≤ s.offset) := by
  obtain ⟨hkept, hlimits⟩ := (BatchManager.kept_empty limits).run ops
  refine ⟨fun e he => ?_, fun key flushId newObjectId => ?_⟩
  · have hbuffer := hkept e he
    rw [hlimits] at hbuffer
    exact hbuffer
  · intro records groups
    have hsublist : records.Sublist (BatchManager.offered key ops) :=
      BatchManager.sublist_offered (BatchManager.empty limits) key ops
    have hdistributed := distributed_freeze key records flushId newObjectId
    refine ⟨hsublist, hdistributed, fun horder g hg => ?_⟩
    rw [(hdistributed.group g hg).2]
    exact (horder.sublist hsublist).sublist List.filter_sublist

/-! ## Two records -/

def sampleTime : Datetime := Date.midnight ⟨2026, 1, 1, by decide⟩

def sampleRecord (offset : Nat) : LakeRecord where
  kafkaTopic := lit "uns.historic-events"
  partition := 0
  offset := offset
  resolved := {
    envelope := {
      schemaVersion := .int 2
      eventId := .str (lit "e1")
      identityQuality := .str (lit "ingress")
      sourceId := .str (lit "lims-1")
      sourceBootId := .null
      sourceSequence := .null
      siteId := .str (lit "plant")
      time := sampleTime
      receivedAt := sampleTime
      timestampQuality := .str (lit "ingress")
      topic := .str (lit "plant/lab/assay")
      eventKind := .str (lit "business_event")
      isHistorical := .bool false
      payload := []
      rawPayloadBase64 := none
      sourceApplication := some (lit "lims")
      payloadSchemaId := some (lit "assay")
      payloadSchemaVersion := some (lit "v1")
      contentType := some (lit "application/json")
      originalPayload := some []
      archiveEligible := some true }
    route := ⟨lit "lims", lit "plant", lit "assay", lit "v1", sampleTime.date⟩
    originalPayload := some []
    payloadFidelity := .original
    legacyRouteRevision := none }
  envelopeBytes := [123, 125]

def sampleLimits : FlushLimits :=
  ⟨60, 1000, 100, 100, 1000, 8, by norm_num, by decide, by decide, by decide, by decide, by decide, by decide⟩

/-- Records offered against their offsets stay so. -/
theorem offered_backwards : ¬ ∀ (limits : FlushLimits) (ops : List BatchManager.Op) (key : PartitionKey)
    (flushId : Str) (newObjectId : Nat → Str), ∀ g ∈ (freezePartitionRecords key
      (((BatchManager.empty limits).run ops).popPartition key).1.records flushId newObjectId).routeGroups,
      g.records.Pairwise fun r s => r.offset ≤ s.offset := by
  intro h
  have hrecords : (((BatchManager.empty sampleLimits).run
      [.tryAdd 0 (sampleRecord 1), .tryAdd 0 (sampleRecord 0)]).popPartition (sampleRecord 0).partitionKey).1.records =
        [sampleRecord 1, sampleRecord 0] := rfl
  have hdistributed := distributed_freeze (sampleRecord 0).partitionKey [sampleRecord 1, sampleRecord 0] [] fun _ => []
  obtain ⟨g, hg, hin, -⟩ := hdistributed.covered (sampleRecord 1) List.mem_cons_self
  have horder := h sampleLimits [.tryAdd 0 (sampleRecord 1), .tryAdd 0 (sampleRecord 0)] (sampleRecord 0).partitionKey []
    (fun _ => []) g (by rw [hrecords]; exact hg)
  have hgroup := (hdistributed.group g hg).2
  rw [hgroup] at hin
  rw [← of_decide_eq_true (List.mem_filter.mp hin).2] at hgroup
  have hboth : g.records = [sampleRecord 1, sampleRecord 0] := hgroup
  rw [hboth] at horder
  exact absurd (List.rel_of_pairwise_cons horder List.mem_cons_self) (by decide)

end Uns
