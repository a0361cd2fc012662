/-
# `Oee.Pareto` — the stops of a shift, added up by reason

`downtime_pareto` and `pareto_from_rows` of `oee_results.py`.  The buckets add up
to the stops that are stored in the range (`total_downtimePareto`).

Stored are the stops of the last save, and beside them the rows of persons that
no longer start where a stop starts: a save does not delete them.  So the total
is the union of the last stops exactly when the last save found no such row
(`reconciles_iff`).
-/
import UnifiedNamespace.Oee.RunTime
import UnifiedNamespace.Oee.StoreHistory

namespace Uns.Oee

open Py Lib

/-! ## The query and its buckets -/

/-- One group of the query. -/
structure ParetoRow where
  reasonCode : Str
  displayName : Str
  category : Str
  isPlanned : Bool
  eventCount : Nat
  totalSeconds : ℚ
  deriving DecidableEq

/-- One reason code's share of the downtime in a window. -/
structure ParetoBucket where
  reasonCode : Str
  displayName : Str
  category : Str
  isPlanned : Bool
  eventCount : Nat
  totalSeconds : ℚ
  share : ℚ
  deriving DecidableEq

/-- Largest first, ties by the code. -/
def ParetoBucket.le (a b : ParetoBucket) : Prop :=
  b.totalSeconds < a.totalSeconds ∨ (b.totalSeconds = a.totalSeconds ∧ a.reasonCode ≤ b.reasonCode)

instance : DecidableRel ParetoBucket.le := fun _ _ => inferInstanceAs (Decidable (_ ∨ _))

/-- A nameless bar takes its code, and of nothing lost the share is zero. -/
def paretoBucket (total : ℚ) (row : ParetoRow) : ParetoBucket where
  reasonCode := row.reasonCode
  displayName := if row.displayName = [] then row.reasonCode else row.displayName
  category := row.category
  isPlanned := row.isPlanned
  eventCount := row.eventCount
  totalSeconds := row.totalSeconds
  share := if 0 < total then row.totalSeconds / total else 0

/-- Grouped rows, ordered as a Pareto and given their share of the total. -/
def paretoFromRows (rows : List ParetoRow) : List ParetoBucket :=
  (rows.map (paretoBucket (rows.map ParetoRow.totalSeconds).sum)).insertionSort ParetoBucket.le

/-- The stops of a unit that began in the range. -/
def eventsIn (db : Database) (unitId : Nat) (rangeStart rangeEnd : ℤ) :
    List ((Nat × ℤ) × Nat × DowntimeEvent) :=
  db.events.rows.entries.filter fun e => e.1.1 = unitId ∧ rangeStart ≤ e.1.2 ∧ e.1.2 < rangeEnd

/-- `GROUP BY` over the join with the reasons. -/
def downtimeRows (db : Database) (unitId : Nat) (rangeStart rangeEnd : ℤ) : List ParetoRow :=
  db.reasons.entries.filterMap fun reason =>
    let group := (eventsIn db unitId rangeStart rangeEnd).filter fun e =>
      e.2.2.reason.reasonCode = reason.1
    if group = [] then none
    else some
      { reasonCode := reason.1
        displayName := reason.2.displayName
        category := reason.2.category
        isPlanned := reason.2.isPlanned
        eventCount := group.length
        totalSeconds := (group.map fun e => e.2.2.durationS).sum }

/-- Lost time per reason code over a range. -/
def downtimePareto (db : Database) (unitId : Nat) (rangeStart rangeEnd : ℤ) : List ParetoBucket :=
  paretoFromRows (downtimeRows db unitId rangeStart rangeEnd)

/-- The downtime a Pareto reports. -/
def totalSeconds (buckets : List ParetoBucket) : ℚ := (buckets.map ParetoBucket.totalSeconds).sum

/-! ## The buckets add up to the stored stops -/

theorem sum_ite_of_nodup {α : Type} [DecidableEq α] {keys : List α} (hn : keys.Nodup) {a : α}
    (ha : a ∈ keys) (x : ℚ) : (keys.map fun k => if a = k then x else 0).sum = x := by
  induction keys with
  | nil => cases ha
  | cons k keys ih =>
      obtain ⟨hk, hn⟩ := List.nodup_cons.mp hn
      rw [List.map_cons, List.sum_cons]
      by_cases hak : a = k
      · subst hak
        have hrest : (keys.map fun j => if a = j then x else 0) = keys.map fun _ => 0 := by
          refine List.map_congr_left ?_
          intro j hj
          rw [if_neg]
          rintro rfl
          exact hk hj
        rw [if_pos rfl, hrest]
        simp
      · rw [if_neg hak, zero_add]
        exact ih hn ((List.mem_cons.mp ha).resolve_left hak)

/-- Groups by a key that each member has add up to the whole. -/
theorem sum_groups {α κ : Type} [DecidableEq κ] {keys : List κ} (hn : keys.Nodup) {l : List α}
    {key : α → κ} (hl : ∀ e ∈ l, key e ∈ keys) (w : α → ℚ) :
    (keys.map fun k => ((l.filter fun e => key e = k).map w).sum).sum = (l.map w).sum := by
  induction l with
  | nil => simp
  | cons e l ih =>
      have hterm : ∀ k, (((e :: l).filter fun e => key e = k).map w).sum =
          (if key e = k then w e else 0) + ((l.filter fun e => key e = k).map w).sum := by
        intro k
        by_cases hk : key e = k <;> simp [hk]
      simp only [hterm, List.sum_map_add]
      rw [sum_ite_of_nodup hn (hl e List.mem_cons_self),
        ih fun d hd => hl d (List.mem_cons_of_mem _ hd), List.map_cons, List.sum_cons]

theorem totalSeconds_paretoFromRows (rows : List ParetoRow) :
    totalSeconds (paretoFromRows rows) = (rows.map ParetoRow.totalSeconds).sum := by
  unfold totalSeconds paretoFromRows
  rw [((List.perm_insertionSort _ _).map ParetoBucket.totalSeconds).sum_eq, List.map_map]
  rfl

variable {unitId : Nat} {start finish : ℤ}

theorem sum_downtimeRows (db : Database) :
    ((downtimeRows db unitId start finish).map ParetoRow.totalSeconds).sum =
      ((eventsIn db unitId start finish).map fun e => e.2.2.durationS).sum := by
  have hcodes : ∀ e ∈ eventsIn db unitId start finish, e.2.2.reason.reasonCode ∈ db.reasons.keys := by
    intro e he
    have href := db.referenced e (List.mem_filter.mp he).1
    by_contra hnot
    rw [Dict.get?_eq_none.mpr hnot] at href
    cases href
  rw [← sum_groups db.reasons.nodup hcodes, downtimeRows]
  generalize eventsIn db unitId start finish = events
  induction db.reasons.entries with
  | nil => rfl
  | cons reason reasons ih =>
      rw [List.filterMap_cons, List.map_cons, List.map_cons, List.sum_cons, ← ih]
      dsimp only
      split
      · rename_i hnone
        split at hnone
        · rename_i hnil
          rw [hnil, List.map_nil, List.sum_nil, zero_add]
        · cases hnone
      · rename_i row hrow
        split at hrow
        · cases hrow
        · obtain rfl := Option.some.inj hrow
          rw [List.map_cons, List.sum_cons]

/-- What a Pareto reports is the stored durations. -/
theorem total_downtimePareto (db : Database) :
    totalSeconds (downtimePareto db unitId start finish) =
      ((eventsIn db unitId start finish).map fun e => e.2.2.durationS).sum :=
  (totalSeconds_paretoFromRows _).trans (sum_downtimeRows db)

/-! ## The stops of a computation -/

/-- What a run of the pipeline hands to a save: nothing without input data. -/
def ComputedStops (window : ShiftWindow) (stops : List ClassifiedStop) : Prop :=
  stops = [] ∨ ∃ u samples manual, classifiedStops u window samples manual true = some stops

/-- Stops of one window that do not overlap. -/
structure DisjointStops (start finish : ℤ) (stops : List Interval) : Prop where
  positive : ∀ i ∈ stops, i.start < i.finish
  apart : stops.Pairwise Interval.Apart
  inside : ∀ i ∈ stops, start ≤ i.start ∧ i.start < finish

theorem disjointStops {window : ShiftWindow} {stops : List ClassifiedStop}
    (hw : window.start < window.finish) (h : ComputedStops window stops) :
    DisjointStops window.start window.finish (stops.map ClassifiedStop.interval) := by
  rcases h with rfl | ⟨u, samples, manual, h⟩
  · exact ⟨fun i hi => absurd hi List.not_mem_nil, List.Pairwise.nil,
      fun i hi => absurd hi List.not_mem_nil⟩
  rw [interval_classifiedStops h, if_pos rfl]
  have htiles := tiles_stateSegments samples.state window.asInterval
  have hsep := separated_subtract [window.asInterval]
    ((stateSegments samples.state window.asInterval).map StateSegment.interval)
  -- a stop is a segment, and an unobserved stop is a gap
  have hsegment : ∀ i ∈ (stopIntervals (stateSegments samples.state window.asInterval)
      u.producingStates).map StopInterval.interval,
      ∃ g ∈ stateSegments samples.state window.asInterval, g.interval = i := by
    intro i hi
    obtain ⟨stop, hstop, rfl⟩ := List.mem_map.mp hi
    obtain ⟨g, hg, rfl⟩ := List.mem_map.mp hstop
    exact ⟨g, (List.mem_filter.mp hg).1, rfl⟩
  have hgap : ((unobserved window (stateSegments samples.state window.asInterval) manual).map
      StopInterval.interval).Sublist (gaps window samples) := by
    rw [interval_unobserved]
    exact List.filter_sublist
  have hinside : ∀ t, (∃ s, SegmentAt (stateSegments samples.state window.asInterval) s t) →
      window.start ≤ t ∧ t < window.finish := by
    rintro t ⟨s, hs⟩
    exact @window_of_mem_stateSegments t s samples.state window.asInterval hw hs
  refine ⟨?_, List.pairwise_append.mpr ⟨?_, ?_, ?_⟩, ?_⟩
  · intro i hi
    rcases List.mem_append.mp hi with hi | hi
    · obtain ⟨g, hg, rfl⟩ := hsegment i hi
      exact htiles.nonempty g hg
    · exact hsep.nonempty i (hgap.subset hi)
  · rw [stopIntervals, List.map_map, List.pairwise_map]
    refine (htiles.before.imp ?_).sublist List.filter_sublist
    intro g k hgk
    exact .inl hgk
  · refine (hsep.apart.imp ?_).sublist hgap
    intro i j hij
    exact .inl hij.le
  · intro i hi j hj
    obtain ⟨g, hg, rfl⟩ := hsegment i hi
    have hgne := htiles.nonempty g hg
    have hjgap := hgap.subset hj
    have hjne := hsep.nonempty j hjgap
    by_contra hover
    obtain ⟨hleft, hright⟩ := not_or.mp hover
    -- an instant of both is in a segment, and in a gap
    have hin : SegmentAt (stateSegments samples.state window.asInterval) g.state
        (max g.interval.start j.start) :=
      ⟨g, hg, rfl, by omega, by omega⟩
    have hout := (covers_gaps.mp
      ⟨j, hjgap, (by omega : j.start ≤ max g.interval.start j.start), by omega⟩)
    rw [@mem_stateSegments _ _ samples.state window.asInterval hout.1, hout.2] at hin
    cases hin
  · intro i hi
    rcases List.mem_append.mp hi with hi | hi
    · obtain ⟨g, hg, rfl⟩ := hsegment i hi
      exact hinside _ ⟨g.state, g, hg, rfl, le_refl _, htiles.nonempty g hg⟩
    · have hne := hsep.nonempty i (hgap.subset hi)
      exact (covers_gaps.mp ⟨i, hgap.subset hi, le_refl _, hne⟩).1

/-! ## The rows of the shift -/

/-- The stops of the last save. -/
def History.lastStops (h : History) : List ClassifiedStop :=
  (h.saves.getLast?.map SaveCall.stops).getD []

/-- No stop of the unit is stored in the window. -/
def Clear (db : Database) (unitId : Nat) (start finish : ℤ) : Prop :=
  ∀ t, start ≤ t → t < finish → db.events.find? (unitId, t) = none

/-- Saves of the shift, with the stops of a computation. -/
def ComputedCall (start finish : ℤ) (c : SaveCall) : Prop :=
  c.finish = finish ∧ ComputedStops (c.window start) c.stops

/-- What is stored in the window: the last stops, and rows of persons that the last save found. -/
structure WindowInvariant (unitId : Nat) (start finish : ℤ) (h : History) : Prop where
  computed : ∀ c ∈ h.saves, start < finish ∧ ComputedCall start finish c
  stops : ∀ stop ∈ h.lastStops, ∃ r, h.db.events.find? (unitId, stop.interval.start) = some r ∧
    r.2.durationS = stop.interval.durationS
  rest : ∀ t r, h.db.events.find? (unitId, t) = some r → start ≤ t → t < finish →
    (∃ stop ∈ h.lastStops, stop.interval.start = t) ∨ (r.2.isManual ∧ ManualAt h.found (unitId, t))
  measured : ∀ t r, h.db.events.find? (unitId, t) = some r → start ≤ t → t < finish →
    0 < r.2.durationS ∧ r.2.shiftStart = start
  kept : ∀ t, start ≤ t → t < finish → ManualAt h.found (unitId, t) →
    ∃ r, h.db.events.find? (unitId, t) = some r

variable {h : History}

theorem mergedRow_geometry (events : EventTable) (shiftStart : ℤ) (stop : ClassifiedStop) :
    (mergedRow events unitId shiftStart stop).durationS = stop.interval.durationS ∧
      (mergedRow events unitId shiftStart stop).shiftStart = shiftStart := by
  unfold mergedRow
  cases events.find? (unitId, stop.interval.start) with
  | none => exact ⟨rfl, rfl⟩
  | some r => exact ⟨rfl, rfl⟩

theorem durationS_pos {i : Interval} (h : i.start < i.finish) : 0 < i.durationS := by
  have hmax : 0 < max (i.finish - i.start) 0 := by omega
  exact div_pos (by exact_mod_cast hmax) (by norm_num)

theorem windowInvariant_save {db : Database} {c : SaveCall} {out : StoredResult}
    (hi : WindowInvariant unitId start finish h) (hc : ComputedCall start finish c)
    (hs : Saved unitId start (c.values start) c.stops out h.db db) :
    WindowInvariant unitId start finish ⟨db, h.saves ++ [c], h.db⟩ := by
  have hlast : (⟨db, h.saves ++ [c], h.db⟩ : History).lastStops = c.stops := by
    rw [History.lastStops, List.getLast?_concat]
    rfl
  have hrange : start < finish := by
    have hcheck := Table.check_of_find? hs.result.row
    simp only [resultCheck, SaveCall.values, resultValues, SaveCall.window, Bool.and_eq_true] at hcheck
    rw [← hc.1]
    exact of_decide_eq_true hcheck.1.1
  have hold : ∀ t r, (∀ stop ∈ c.stops, stop.interval.start ≠ t) →
      db.events.find? (unitId, t) = some r → h.db.events.find? (unitId, t) = some r ∧
        ¬ (r.2.shiftStart = start ∧ r.2.reason.reasonSource = .auto) := by
    intro t r hne hr
    rw [hs.events.other _ fun stop hstop heq => hne stop hstop (congrArg Prod.snd heq).symm,
      Option.filter_eq_some_iff] at hr
    exact ⟨hr.1, not_and_or.mpr (by simpa using hr.2)⟩
  refine ⟨?_, ?_, ?_, ?_, ?_⟩
  · intro d hd
    rcases List.mem_append.mp hd with hd | hd
    · exact hi.computed d hd
    · rw [List.mem_singleton.mp hd]
      exact ⟨hrange, hc⟩
  · intro stop hstop
    rw [hlast] at hstop
    obtain ⟨i, hrow, -⟩ := hs.events.row stop hstop
    exact ⟨_, hrow, (mergedRow_geometry _ _ _).1⟩
  · intro t r hr hstart hfinish
    rw [hlast]
    by_cases ht : ∃ stop ∈ c.stops, stop.interval.start = t
    · exact .inl ht
    · obtain ⟨hrow, hkeep⟩ := hold t r (fun stop hstop heq => ht ⟨stop, hstop, heq⟩) hr
      have hshift := (hi.measured t r hrow hstart hfinish).2
      have hm : r.2.isManual := by
        cases hsrc : r.2.reason.reasonSource with
        | auto => exact absurd ⟨hshift, hsrc⟩ hkeep
        | manual => exact hsrc
      exact .inr ⟨hm, r, hrow, hm⟩
  · intro t r hr hstart hfinish
    by_cases ht : ∃ stop ∈ c.stops, stop.interval.start = t
    · obtain ⟨stop, hstop, rfl⟩ := ht
      obtain ⟨i, hrow, -⟩ := hs.events.row stop hstop
      rw [hr] at hrow
      obtain rfl := Option.some.inj hrow
      obtain ⟨hduration, hshift⟩ := @mergedRow_geometry unitId h.db.events start stop
      exact ⟨hduration ▸ durationS_pos (hs.events.positive stop hstop), hshift⟩
    · exact hi.measured t r
        (hold t r (fun stop hstop heq => ht ⟨stop, hstop, heq⟩) hr).1 hstart hfinish
  · rintro t - - ⟨r, hr, hm⟩
    by_cases ht : ∃ stop ∈ c.stops, stop.interval.start = t
    · obtain ⟨stop, hstop, rfl⟩ := ht
      obtain ⟨i, hrow, -⟩ := hs.events.row stop hstop
      exact ⟨_, hrow⟩
    · refine ⟨r, ?_⟩
      have hsource : r.2.reason.reasonSource = .manual := hm
      rw [hs.events.other _ fun stop hstop heq => ht ⟨stop, hstop, (congrArg Prod.snd heq).symm⟩]
      change (h.db.events.find? (unitId, t)).filter _ = some r
      rw [hr, Option.filter_some, if_pos (by simp [hsource])]

theorem windowInvariant_assign {db : Database} {c : AssignCall}
    (hi : WindowInvariant unitId start finish h) (hc : c.run h.db = .queued db) :
    WindowInvariant unitId start finish { h with db := db } := by
  obtain ⟨-, -, -, hevents⟩ := assignReason_spec hc
  have hrows : ∀ t, db.events.find? (unitId, t) = (h.db.events.find? (unitId, t)).map c.onRow := by
    intro t
    rw [hevents, find?_setReason]
    rfl
  have hgeometry : ∀ r, (c.onRow r).2.durationS = r.2.durationS ∧
      (c.onRow r).2.shiftStart = r.2.shiftStart := by
    intro r
    unfold AssignCall.onRow
    dsimp only
    split <;> exact ⟨rfl, rfl⟩
  refine ⟨hi.computed, ?_, ?_, ?_, ?_⟩
  · intro stop hstop
    obtain ⟨r, hr, hduration⟩ := hi.stops stop hstop
    refine ⟨c.onRow r, ?_, (hgeometry r).1.trans hduration⟩
    rw [hrows, hr, Option.map_some]
  · intro t r hr hstart hfinish
    rw [hrows] at hr
    obtain ⟨q, hq, rfl⟩ := Option.map_eq_some_iff.mp hr
    rcases hi.rest t q hq hstart hfinish with hstop | ⟨hm, hfound⟩
    · exact .inl hstop
    · exact .inr ⟨onRow_manual (.inr hm), hfound⟩
  · intro t r hr hstart hfinish
    rw [hrows] at hr
    obtain ⟨q, hq, rfl⟩ := Option.map_eq_some_iff.mp hr
    rw [(hgeometry q).1, (hgeometry q).2]
    exact hi.measured t q hq hstart hfinish
  · intro t hstart hfinish hm
    obtain ⟨r, hr⟩ := hi.kept t hstart hfinish hm
    exact ⟨c.onRow r, by rw [hrows, hr, Option.map_some]⟩

theorem windowInvariant_run {ops : List StoreOp} (hi : WindowInvariant unitId start finish h)
    (hops : ∀ c, .save c ∈ ops → ComputedCall start finish c) :
    WindowInvariant unitId start finish (h.run unitId start ops) := by
  induction ops generalizing h with
  | nil => exact hi
  | cons op ops ih =>
      refine ih ?_ fun c hc => hops c (List.mem_cons_of_mem _ hc)
      cases op with
      | save c =>
          rcases @apply_save unitId start h c with hsame | ⟨db, out, hsaved, hnew⟩
          · rw [hsame]
            exact hi
          · rw [hnew]
            exact windowInvariant_save hi (hops c List.mem_cons_self) hsaved
      | assign c =>
          rcases @apply_assign unitId start h c with hsame | ⟨db, hassign, hnew⟩
          · rw [hsame]
            exact hi
          · rw [hnew]
            exact windowInvariant_assign hi hassign

theorem windowInvariant_start {db : Database} (hclear : Clear db unitId start finish) :
    WindowInvariant unitId start finish (.start db) := by
  have hnone : ∀ t r, start ≤ t → t < finish → ¬ db.events.find? (unitId, t) = some r := by
    intro t r hstart hfinish hr
    rw [hclear t hstart hfinish] at hr
    cases hr
  refine ⟨?_, ?_, ?_, ?_, ?_⟩
  · intro c hc
    cases hc
  · intro stop hstop
    cases hstop
  · intro t r hr hstart hfinish
    exact absurd hr (hnone t r hstart hfinish)
  · intro t r hr hstart hfinish
    exact absurd hr (hnone t r hstart hfinish)
  · rintro t hstart hfinish ⟨r, hr, -⟩
    exact absurd hr (hnone t r hstart hfinish)

/-! ## Reconciliation -/

/-- The Pareto of the shift adds up to the stops of the last saved computation. -/
def Reconciles (unitId : Nat) (start finish : ℤ) (h : History) : Prop :=
  totalSeconds (downtimePareto h.db unitId start finish) =
    unionDurationS (h.lastStops.map ClassifiedStop.interval)

/-- Each row of a person that the last save found starts where one of its stops starts. -/
def NoOrphans (unitId : Nat) (start finish : ℤ) (h : History) : Prop :=
  ∀ t, start ≤ t → t < finish → ManualAt h.found (unitId, t) →
    ∃ stop ∈ h.lastStops, stop.interval.start = t

theorem sum_filter_add {α : Type} (l : List α) (p : α → Bool) (w : α → ℚ) :
    ((l.filter p).map w).sum + ((l.filter fun e => !p e).map w).sum = (l.map w).sum := by
  rw [← List.sum_append, ← List.map_append]
  exact ((List.filter_append_perm p l).map w).sum_eq

theorem sum_pos_eq_zero {α : Type} {l : List α} {w : α → ℚ} (h : ∀ e ∈ l, 0 < w e) :
    (l.map w).sum = 0 ↔ l = [] := by
  constructor
  · intro hsum
    cases l with
    | nil => rfl
    | cons e l =>
        have hrest : 0 ≤ (l.map w).sum := by
          refine List.sum_nonneg ?_
          intro x hx
          obtain ⟨d, hd, rfl⟩ := List.mem_map.mp hx
          exact (h d (List.mem_cons_of_mem _ hd)).le
        have he := h e List.mem_cons_self
        rw [List.map_cons, List.sum_cons] at hsum
        linarith
  · rintro rfl
    rfl

/-- The keys of the last stops. -/
def History.stopKeys (unitId : Nat) (h : History) : List (Nat × ℤ) :=
  h.lastStops.map fun stop => (unitId, stop.interval.start)

theorem lastStops_disjoint (hi : WindowInvariant unitId start finish h) :
    DisjointStops start finish (h.lastStops.map ClassifiedStop.interval) := by
  unfold History.lastStops
  cases hl : h.saves.getLast? with
  | none =>
      exact ⟨fun i hi => absurd hi List.not_mem_nil, List.Pairwise.nil,
        fun i hi => absurd hi List.not_mem_nil⟩
  | some c =>
      obtain ⟨hrange, hfinish, hcomputed⟩ := hi.computed c (List.mem_of_getLast? hl)
      have hwindow : (c.window start).start < (c.window start).finish := by
        change start < c.finish
        omega
      have hd := disjointStops hwindow hcomputed
      exact ⟨hd.positive, hd.apart, fun i hi => hfinish ▸ hd.inside i hi⟩

theorem nodup_stopKeys (hd : DisjointStops start finish (h.lastStops.map ClassifiedStop.interval)) :
    (h.stopKeys unitId).Nodup := by
  have hp := hd.apart
  rw [List.pairwise_map] at hp
  refine List.pairwise_map.mpr ((List.Pairwise.and_mem.mp hp).imp ?_)
  rintro p q ⟨hpmem, hqmem, hapart⟩ heq
  have hppos := hd.positive _ (List.mem_map_of_mem hpmem)
  have hqpos := hd.positive _ (List.mem_map_of_mem hqmem)
  have hstart : p.interval.start = q.interval.start := congrArg Prod.snd heq
  rcases hapart with hle | hle <;> omega

/-- The stored rows are the last stops and the orphans. -/
theorem total_eq (hi : WindowInvariant unitId start finish h) :
    totalSeconds (downtimePareto h.db unitId start finish) =
      unionDurationS (h.lastStops.map ClassifiedStop.interval) +
        (((eventsIn h.db unitId start finish).filter fun e => !decide (e.1 ∈ h.stopKeys unitId)).map
          fun e => e.2.2.durationS).sum := by
  have hd := lastStops_disjoint hi
  have hinside : ∀ k ∈ h.stopKeys unitId, k.1 = unitId ∧ start ≤ k.2 ∧ k.2 < finish := by
    intro k hk
    obtain ⟨stop, hstop, rfl⟩ := List.mem_map.mp hk
    exact ⟨rfl, hd.inside _ (List.mem_map_of_mem hstop)⟩
  have hfilter : ((eventsIn h.db unitId start finish).filter fun e => e.1 ∈ h.stopKeys unitId) =
      h.db.events.rows.entries.filter fun e => e.1 ∈ h.stopKeys unitId := by
    rw [eventsIn, List.filter_filter]
    refine List.filter_congr ?_
    intro e _
    by_cases he : e.1 ∈ h.stopKeys unitId
    · simp [he, hinside e.1 he]
    · simp [he]
  have hkeys : ∀ k ∈ h.stopKeys unitId, k ∈ h.db.events.rows.keys := by
    intro k hk
    obtain ⟨stop, hstop, rfl⟩ := List.mem_map.mp hk
    obtain ⟨r, hr, -⟩ := hi.stops stop hstop
    exact List.mem_map.mpr ⟨_, Dict.mem_of_get? hr, rfl⟩
  have hstops : ((h.stopKeys unitId).map fun k =>
      ((h.db.events.rows.get? k).map fun r => r.2.durationS).getD 0) =
      (h.lastStops.map ClassifiedStop.interval).map Interval.durationS := by
    rw [History.stopKeys, List.map_map, List.map_map]
    refine List.map_congr_left ?_
    intro stop hstop
    obtain ⟨r, hr, hduration⟩ := hi.stops stop hstop
    change ((h.db.events.find? (unitId, stop.interval.start)).map fun r => r.2.durationS).getD 0 = _
    rw [hr]
    exact hduration
  have hsum := Dict.sum_filter_keys h.db.events.rows (fun _ r => r.2.durationS)
    (p := fun k => decide (k ∈ h.stopKeys unitId)) (fun _ => decide_eq_true_iff) (nodup_stopKeys hd) hkeys
  rw [total_downtimePareto, unionDurationS_of_apart hd.positive hd.apart, ← hstops, ← hsum, ← hfilter]
  exact (sum_filter_add _ _ _).symm

theorem reconciles_iff {db : Database} {ops : List StoreOp} (hclear : Clear db unitId start finish)
    (hops : ∀ c, .save c ∈ ops → ComputedCall start finish c) :
    Reconciles unitId start finish (History.run unitId start (.start db) ops) ↔
      NoOrphans unitId start finish (History.run unitId start (.start db) ops) := by
  have hi := windowInvariant_run (windowInvariant_start hclear) hops
  generalize History.run unitId start (.start db) ops = h at hi
  have hmem : ∀ {e}, e ∈ eventsIn h.db unitId start finish →
      h.db.events.find? e.1 = some e.2 ∧ e.1 = (unitId, e.1.2) ∧ start ≤ e.1.2 ∧ e.1.2 < finish := by
    intro e he
    obtain ⟨he, hin⟩ := List.mem_filter.mp he
    obtain ⟨hunit, hin⟩ := decide_eq_true_eq.mp hin
    exact ⟨Dict.get?_of_mem he, Prod.ext hunit rfl, hin⟩
  have hpos : ∀ e ∈ (eventsIn h.db unitId start finish).filter fun e =>
      !decide (e.1 ∈ h.stopKeys unitId), 0 < e.2.2.durationS := by
    intro e he
    obtain ⟨hrow, hkey, hstart, hfinish⟩ := hmem (List.mem_filter.mp he).1
    rw [hkey] at hrow
    exact (hi.measured _ _ hrow hstart hfinish).1
  unfold Reconciles
  rw [total_eq hi, add_eq_left, sum_pos_eq_zero hpos, List.filter_eq_nil_iff]
  constructor
  · intro hnone t hstart hfinish hm
    obtain ⟨r, hr⟩ := hi.kept t hstart hfinish hm
    have he : ((unitId, t), r) ∈ eventsIn h.db unitId start finish :=
      List.mem_filter.mpr ⟨Dict.mem_of_get? hr, decide_eq_true ⟨rfl, hstart, hfinish⟩⟩
    have hkey := hnone _ he
    rw [Bool.not_eq_true', decide_eq_false_iff_not, not_not] at hkey
    obtain ⟨stop, hstop, heq⟩ := List.mem_map.mp hkey
    exact ⟨stop, hstop, congrArg Prod.snd heq⟩
  · intro hno e he
    obtain ⟨hrow, hkey, hstart, hfinish⟩ := hmem he
    rw [Bool.not_eq_true', decide_eq_false_iff_not, not_not, hkey]
    rw [hkey] at hrow
    rcases hi.rest _ _ hrow hstart hfinish with ⟨stop, hstop, heq⟩ | ⟨-, hfound⟩
    · exact List.mem_map.mpr ⟨stop, hstop, by rw [heq]⟩
    · obtain ⟨stop, hstop, heq⟩ := hno _ hstart hfinish hfound
      exact List.mem_map.mpr ⟨stop, hstop, by rw [heq]⟩

/-! ## A stop that moved -/

/-- A stop before the window that ends in it. -/
def earlySamples : ShiftSamples :=
  ⟨[⟨-hours 1, lit "HELD"⟩, ⟨seconds 5, executeState⟩], [], [], []⟩

/-- The same with two reports that came late. -/
def lateSamples : ShiftSamples :=
  ⟨[⟨-hours 1, lit "HELD"⟩, ⟨seconds 5, executeState⟩, ⟨-minutes 30, executeState⟩,
    ⟨seconds 2, lit "HELD"⟩], [], [], []⟩

theorem computedCall_saveOf {samples : ShiftSamples} {manual : ManualReasons}
    {stops : List ClassifiedStop}
    (h : classifiedStops lineUnit tenSeconds samples manual true = some stops) :
    ComputedCall 0 (seconds 10) (saveOf stops) :=
  ⟨rfl, .inr ⟨lineUnit, samples, manual, h⟩⟩

theorem clear_plantDatabase (unitId : Nat) (start finish : ℤ) : Clear plantDatabase unitId start finish :=
  fun _ _ _ => rfl

/-- The reason given to the stop before it moved. -/
def jamReason : ManualReasons := ⟨[(0, ⟨jamCode, some [], some (lit "op")⟩)], by decide⟩

theorem computed_movedStop : ∀ c, .save c ∈ movedStop → ComputedCall 0 (seconds 10) c := by
  intro c hc
  have hcases : c = saveOf [unclassifiedStop 0 (seconds 5)] ∨
      c = saveOf [unclassifiedStop (seconds 2) (seconds 5)] := by
    simpa [movedStop] using hc
  rcases hcases with rfl | rfl
  · exact @computedCall_saveOf earlySamples .empty _ rfl
  · exact @computedCall_saveOf lateSamples jamReason _ rfl

/-- The first save alone adds up. -/
theorem reconciles_firstSave : Reconciles 1 0 (seconds 10)
    (History.run 1 0 (.start plantDatabase) (movedStop.take 1)) := by
  refine (reconciles_iff (clear_plantDatabase 1 0 (seconds 10)) ?_).mpr ?_
  · intro c hc
    exact computed_movedStop c (List.mem_of_mem_take hc)
  · rintro t - - ⟨r, hr, -⟩
    cases hr

/-- After the second, the five seconds of the old row are counted beside the three of the stop. -/
theorem movedStop_not_reconciles : ¬ ∀ db unitId start finish ops, Clear db unitId start finish →
    (∀ c, .save c ∈ ops → ComputedCall start finish c) →
      Reconciles unitId start finish (History.run unitId start (.start db) ops) := by
  intro h
  have hsum := h plantDatabase 1 0 (seconds 10) movedStop (clear_plantDatabase _ _ _) computed_movedStop
  have htotal : totalSeconds (downtimePareto
      (History.run 1 0 (.start plantDatabase) movedStop).db 1 0 (seconds 10)) = 8 := by decide +kernel
  have hunion : unionDurationS ((History.run 1 0 (.start plantDatabase) movedStop).lastStops.map
      ClassifiedStop.interval) = 3 := by decide +kernel
  rw [Reconciles, htotal, hunion] at hsum
  norm_num at hsum

end Uns.Oee
