/-
# `Datalake.Batch` — bounded per-partition batches

`batch.py`: admission of records into per-partition buffers, the choice of the
partition to flush, and the split of a popped buffer into route groups.

A record has a coordinate, its partition and offset.  `BatchManager.held` counts
a coordinate over all buffers, and each operation is stated by what it does to
that count: admission adds the record's (`held_tryAdd`), popping moves the
buffer's out (`held_popPartition`), grouping only rearranges
(`count_freezePartitionRecords`).
-/
import UnifiedNamespace.Datalake.Routing

namespace Uns

open Py

/-- The limits, as their validator accepts them. -/
structure FlushLimits where
  intervalSeconds : ℚ
  maxBytes : Nat
  maxRecords : Nat
  maxRecordBytes : Nat
  workerMaxBufferedBytes : Nat
  maxActiveRouteGroups : Nat
  interval_pos : 0 < intervalSeconds
  maxBytes_pos : 0 < maxBytes
  maxRecords_pos : 0 < maxRecords
  maxRecordBytes_pos : 0 < maxRecordBytes
  maxActiveRouteGroups_pos : 0 < maxActiveRouteGroups
  record_fits : maxRecordBytes ≤ maxBytes
  batch_fits : maxBytes ≤ workerMaxBufferedBytes

/-- The partition and offset of a record. -/
abbrev Coord := PartitionKey × Nat

def LakeRecord.coord (r : LakeRecord) : Coord := (r.partitionKey, r.offset)

def LakeRecord.wireBytes (r : LakeRecord) : Nat := r.envelopeBytes.length

/-- How often a coordinate occurs in records. -/
def countIn (c : Coord) (records : List LakeRecord) : Nat := (records.map LakeRecord.coord).count c

/-! ## Buffers -/

structure PartitionBuffer where
  records : List LakeRecord
  byteTotal : Nat
  startedAt : Option ℚ
  routeGroups : Finset LakeRoute
  counted : byteTotal = (records.map LakeRecord.wireBytes).sum

namespace PartitionBuffer

def empty : PartitionBuffer := ⟨[], 0, none, ∅, rfl⟩

def isEmpty (b : PartitionBuffer) : Bool := b.records.isEmpty

def ageSeconds (b : PartitionBuffer) (monotonic : ℚ) : ℚ :=
  match b.startedAt with
  | none => 0
  | some startedAt => monotonic - startedAt

/-- A record admitted at the clock reading. -/
def push (monotonic : ℚ) (r : LakeRecord) (b : PartitionBuffer) : PartitionBuffer where
  records := b.records ++ [r]
  byteTotal := b.byteTotal + r.wireBytes
  startedAt := some (b.startedAt.getD monotonic)
  routeGroups := insert r.resolved.route b.routeGroups
  counted := by rw [List.map_append, List.sum_append, b.counted, List.map_singleton, List.sum_singleton]

end PartitionBuffer

/-- The first minimal element, as `min` returns it. -/
def firstMin {α : Type} (le : α → α → Bool) : List α → Option α
  | [] => none
  | x :: xs => some (xs.foldl (fun best y => if le best y then best else y) x)

theorem mem_firstMin {α : Type} {le : α → α → Bool} {xs : List α} {x : α}
    (h : firstMin le xs = some x) : x ∈ xs := by
  have hfold : ∀ (ys : List α) (z : α),
      ys.foldl (fun best y => if le best y then best else y) z ∈ z :: ys := by
    intro ys
    induction ys with
    | nil => intro z; exact List.mem_singleton_self z
    | cons y ys ih =>
        intro z
        rw [List.foldl_cons]
        by_cases hle : le z y = true
        · rw [if_pos hle]
          rcases List.mem_cons.mp (ih z) with hz | hys
          · exact List.mem_cons.mpr (.inl hz)
          · exact List.mem_cons_of_mem _ (List.mem_cons_of_mem _ hys)
        · rw [if_neg hle]
          exact List.mem_cons_of_mem _ (ih y)
  cases xs with
  | nil => cases h
  | cons y ys =>
      rw [firstMin, Option.some.injEq] at h
      rw [← h]
      exact hfold ys y

/-! ## The batch manager -/

/-- Buffers by partition; a buffer holds records of its own partition. -/
structure BatchManager where
  limits : FlushLimits
  buffers : Lib.Dict PartitionKey PartitionBuffer
  pendingRecordBytes : Nat
  keyed : ∀ e ∈ buffers.entries, ∀ r ∈ e.2.records, r.partitionKey = e.1

namespace BatchManager

def empty (limits : FlushLimits) : BatchManager :=
  ⟨limits, .empty, 0, fun _ h => absurd h List.not_mem_nil⟩

def buffer (b : BatchManager) (key : PartitionKey) : PartitionBuffer :=
  (b.buffers.get? key).getD .empty

def totalBufferedBytes (b : BatchManager) : Nat :=
  b.buffers.weight (fun _ buffer => buffer.byteTotal) + b.pendingRecordBytes

def projectedRouteGroups (b : BatchManager) (r : LakeRecord) : Nat :=
  match b.buffers.get? r.partitionKey with
  | none => 1
  | some buffer =>
      if r.resolved.route ∈ buffer.routeGroups then buffer.routeGroups.card
      else buffer.routeGroups.card + 1

/-- `none` is the `ValueError` of an oversize record. -/
def admissionWouldExceedLimits (b : BatchManager) (r : LakeRecord) : Option Bool :=
  if b.limits.maxRecordBytes < r.wireBytes then none
  else
    let buffer := b.buffer r.partitionKey
    some (b.limits.maxActiveRouteGroups < b.projectedRouteGroups r ||
      b.limits.maxRecords < buffer.records.length + 1 ||
      b.limits.maxBytes < buffer.byteTotal + r.wireBytes + b.pendingRecordBytes)

theorem mem_buffer {b : BatchManager} {key : PartitionKey} {r : LakeRecord}
    (h : r ∈ (b.buffer key).records) : r.partitionKey = key := by
  unfold buffer at h
  cases hb : b.buffers.get? key with
  | none =>
      rw [hb] at h
      cases h
  | some buffer =>
      rw [hb] at h
      exact b.keyed _ (Lib.Dict.mem_of_get? hb) r h

/-- The record in the buffer of its partition. -/
def add (b : BatchManager) (monotonic : ℚ) (r : LakeRecord) : BatchManager where
  limits := b.limits
  buffers := b.buffers.update r.partitionKey .empty (.push monotonic r)
  pendingRecordBytes := 0
  keyed := by
    intro e he s hs
    rcases Lib.Dict.mem_entries_update he with he | rfl
    · exact b.keyed e he s hs
    · rcases List.mem_append.mp hs with hs | hs
      · exact mem_buffer hs
      · rw [List.mem_singleton.mp hs]

/-- Whether the record was admitted, and the manager after; `none` is the `ValueError`. -/
def tryAdd (b : BatchManager) (monotonic : ℚ) (r : LakeRecord) : Option (Bool × BatchManager) :=
  match b.admissionWouldExceedLimits r with
  | none => none
  | some true => some (false, b)
  | some false => some (true, b.add monotonic r)

/-- `should_flush_partition` on a buffer, the clock reading included. -/
def shouldFlush (limits : FlushLimits) (monotonic : ℚ) (buffer : PartitionBuffer) : Bool :=
  !buffer.isEmpty &&
    (limits.maxRecords ≤ buffer.records.length || limits.maxBytes ≤ buffer.byteTotal ||
      limits.maxActiveRouteGroups ≤ buffer.routeGroups.card ||
      limits.intervalSeconds ≤ buffer.ageSeconds monotonic)

/-- The tuple order of partition keys. -/
def lePartitionKey (a b : PartitionKey) : Bool := a.1 < b.1 || (a.1 = b.1 && a.2 ≤ b.2)

def partitionNeedingPressureFlush (b : BatchManager) : Option PartitionKey :=
  if b.totalBufferedBytes ≤ b.limits.workerMaxBufferedBytes then none
  else
    (firstMin (fun x y => x.2.startedAt.getD 0 ≤ y.2.startedAt.getD 0)
      (b.buffers.entries.filter fun e => !e.2.isEmpty)).map Prod.fst

/-- The least ready partition, else one under memory pressure. -/
def chooseFlushPartition (b : BatchManager) (monotonic : PartitionKey → ℚ) : Option PartitionKey :=
  match (b.buffers.entries.filter fun e => shouldFlush b.limits (monotonic e.1) e.2).map Prod.fst with
  | [] => b.partitionNeedingPressureFlush
  | ready => firstMin lePartitionKey ready

/-- The buffer taken out, or an empty one. -/
def popPartition (b : BatchManager) (key : PartitionKey) : PartitionBuffer × BatchManager :=
  (b.buffer key,
    { b with
      buffers := b.buffers.erase key
      keyed := fun e he => b.keyed e (Lib.Dict.mem_entries_erase he) })

/-! ## What the buffers hold -/

/-- How often a coordinate is buffered. -/
def held (b : BatchManager) (c : Coord) : Nat :=
  b.buffers.weight fun _ buffer => countIn c buffer.records

theorem held_add (b : BatchManager) (monotonic : ℚ) (r : LakeRecord) (c : Coord) :
    (b.add monotonic r).held c = b.held c + countIn c [r] := by
  have h := b.buffers.weight_update (w := fun _ buffer => countIn c buffer.records) r.partitionKey
    (b := PartitionBuffer.empty) (PartitionBuffer.push monotonic r) rfl
  have hpush : ∀ buffer : PartitionBuffer, countIn c (buffer.push monotonic r).records =
      countIn c buffer.records + countIn c [r] := by
    intro buffer
    simp only [countIn, PartitionBuffer.push, List.map_append, List.count_append]
  rw [hpush] at h
  simp only [held, add]
  omega

theorem held_popPartition (b : BatchManager) (key : PartitionKey) (c : Coord) :
    (b.popPartition key).2.held c + countIn c (b.popPartition key).1.records = b.held c :=
  Lib.Dict.weight_erase (w := fun (_ : PartitionKey) (buffer : PartitionBuffer) =>
    countIn c buffer.records) b.buffers key (b := PartitionBuffer.empty) rfl

/-- A record with the coordinate is in the buffer of its partition. -/
theorem held_eq_countIn (b : BatchManager) (c : Coord) : b.held c = countIn c (b.buffer c.1).records := by
  have hrest : (b.popPartition c.1).2.held c = 0 := by
    rw [held, Lib.Dict.weight_eq_zero]
    intro e he
    refine List.count_eq_zero.mpr ?_
    rintro hmem
    obtain ⟨r, hr, hc⟩ := List.mem_map.mp hmem
    have hkey : r.partitionKey = e.1 := (b.popPartition c.1).2.keyed e he r hr
    have : e.1 = c.1 := by rw [← hkey, ← hc]; rfl
    have hnone : (b.popPartition c.1).2.buffers.get? e.1 = none := by
      rw [this]
      exact b.buffers.get?_erase_self c.1
    rw [Lib.Dict.get?_of_mem he] at hnone
    cases hnone
  have h := held_popPartition b c.1 c
  rw [hrest, Nat.zero_add] at h
  exact h.symm

theorem tryAdd_true {b b' : BatchManager} {monotonic : ℚ} {r : LakeRecord}
    (h : b.tryAdd monotonic r = some (true, b')) : b' = b.add monotonic r := by
  unfold tryAdd at h
  split at h <;> cases h
  rfl

theorem tryAdd_false {b b' : BatchManager} {monotonic : ℚ} {r : LakeRecord}
    (h : b.tryAdd monotonic r = some (false, b')) : b' = b := by
  unfold tryAdd at h
  split at h <;> cases h
  rfl

end BatchManager

/-! ## Frozen flushes -/

structure FrozenRouteGroup where
  route : LakeRoute
  objectId : Str
  records : List LakeRecord
  objectPath : Str

structure FrozenPartitionFlush where
  partitionKey : PartitionKey
  flushId : Str
  routeGroups : List FrozenRouteGroup

/-- `grouped.setdefault(route, []).append(record)` for each record. -/
def groupRecordsByRoute (records : List LakeRecord) : Lib.Dict LakeRoute (List LakeRecord) :=
  records.foldl (fun grouped r => grouped.update r.resolved.route [] (· ++ [r])) .empty

def routeSortKey (route : LakeRoute) : List Str :=
  [route.application, route.site, route.schema, route.version, dateText route.ingestionDate]

/-- The groups in route order, each with a new object id. -/
def freezePartitionRecords (key : PartitionKey) (records : List LakeRecord) (flushId : Str)
    (newObjectId : Nat → Str) : FrozenPartitionFlush where
  partitionKey := key
  flushId := flushId
  routeGroups :=
    (((groupRecordsByRoute records).entries.insertionSort fun a b =>
      routeSortKey a.1 ≤ routeSortKey b.1).zipIdx).map fun e =>
        { route := e.1.1
          objectId := newObjectId e.2
          records := e.1.2
          objectPath := lakeObjectPath e.1.1 (newObjectId e.2) }

/-- How often a coordinate occurs in route groups. -/
def countGroups (c : Coord) (groups : List FrozenRouteGroup) : Nat :=
  (groups.map fun g => countIn c g.records).sum

theorem countGroups_append (c : Coord) (gs hs : List FrozenRouteGroup) :
    countGroups c (gs ++ hs) = countGroups c gs + countGroups c hs := by
  simp only [countGroups, List.map_append, List.sum_append]

theorem weight_groupRecordsByRoute (c : Coord) (records : List LakeRecord) :
    (groupRecordsByRoute records).weight (fun _ rs => countIn c rs) = countIn c records := by
  have h : ∀ (records : List LakeRecord) (grouped : Lib.Dict LakeRoute (List LakeRecord)),
      (records.foldl (fun grouped r => grouped.update r.resolved.route [] (· ++ [r])) grouped).weight
        (fun _ rs => countIn c rs) = grouped.weight (fun _ rs => countIn c rs) + countIn c records := by
    intro records
    induction records with
    | nil => intro grouped; rfl
    | cons r records ih =>
        intro grouped
        have hw := grouped.weight_update (w := fun _ rs => countIn c rs) r.resolved.route
          (b := []) (· ++ [r]) rfl
        have happ : ∀ rs, countIn c (rs ++ [r]) = countIn c rs + countIn c [r] := by
          intro rs
          simp only [countIn, List.map_append, List.count_append]
        have hcons : countIn c (r :: records) = countIn c [r] + countIn c records := by
          rw [← List.singleton_append]
          simp only [countIn, List.map_append, List.count_append]
        rw [happ] at hw
        rw [List.foldl_cons, ih, hcons]
        omega
  have := h records .empty
  rw [Lib.Dict.weight_empty, Nat.zero_add] at this
  exact this

theorem mem_groupRecordsByRoute {records : List LakeRecord} {e : LakeRoute × List LakeRecord}
    (he : e ∈ (groupRecordsByRoute records).entries) {r : LakeRecord} (hr : r ∈ e.2) : r ∈ records := by
  have h : ∀ (records : List LakeRecord) (grouped : Lib.Dict LakeRoute (List LakeRecord)),
      ∀ e ∈ (records.foldl
        (fun grouped r => grouped.update r.resolved.route [] (· ++ [r])) grouped).entries,
      ∀ r ∈ e.2, r ∈ records ∨ ∃ e' ∈ grouped.entries, r ∈ e'.2 := by
    intro records
    induction records with
    | nil => exact fun grouped e he r hr => .inr ⟨e, he, hr⟩
    | cons s records ih =>
        intro grouped e he r hr
        rcases ih _ e he r hr with hr | ⟨e', he', hr⟩
        · exact .inl (List.mem_cons_of_mem _ hr)
        · rcases Lib.Dict.mem_entries_update he' with he' | rfl
          · exact .inr ⟨e', he', hr⟩
          · rcases List.mem_append.mp hr with hr | hr
            · cases hg : grouped.get? s.resolved.route with
              | none =>
                  rw [hg] at hr
                  cases hr
              | some rs =>
                  rw [hg] at hr
                  exact .inr ⟨_, Lib.Dict.mem_of_get? hg, hr⟩
            · rw [List.mem_singleton.mp hr]
              exact .inl List.mem_cons_self
  rcases h records .empty e he r hr with hr | ⟨e', he', -⟩
  · exact hr
  · cases he'

theorem mem_freezePartitionRecords {key : PartitionKey} {records : List LakeRecord} {flushId : Str}
    {newObjectId : Nat → Str} {g : FrozenRouteGroup}
    (hg : g ∈ (freezePartitionRecords key records flushId newObjectId).routeGroups) {r : LakeRecord}
    (hr : r ∈ g.records) : r ∈ records := by
  obtain ⟨e, he, rfl⟩ := List.mem_map.mp hg
  have hmem := List.fst_mem_of_mem_zipIdx he
  exact mem_groupRecordsByRoute ((List.mem_insertionSort _).mp hmem) hr

/-- Freezing rearranges the records. -/
theorem count_freezePartitionRecords (c : Coord) (key : PartitionKey) (records : List LakeRecord)
    (flushId : Str) (newObjectId : Nat → Str) :
    countGroups c (freezePartitionRecords key records flushId newObjectId).routeGroups =
      countIn c records := by
  rw [← weight_groupRecordsByRoute c records, countGroups, freezePartitionRecords, List.map_map]
  have hfst : ∀ es : List (LakeRoute × List LakeRecord),
      (es.zipIdx.map fun e => countIn c e.1.2) = es.map fun e => countIn c e.2 := by
    intro es
    have h := List.map_map (l := es.zipIdx) (f := Prod.fst)
      (g := fun e : LakeRoute × List LakeRecord => countIn c e.2)
    rw [List.zipIdx_map_fst] at h
    exact h.symm
  exact (congrArg List.sum (hfst _)).trans
    (((List.perm_insertionSort _ _).map fun e : LakeRoute × List LakeRecord =>
      countIn c e.2).sum_eq)

end Uns
