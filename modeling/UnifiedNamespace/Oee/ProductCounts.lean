/-
# `Oee.ProductCounts` — the counts of the products of a shift

A shift is split by the product that was reported, and each part has its own count.  The
parts lie end to end, from the first report to the end of the window (`joined_stateSegments`,
`ends_stateSegments`), so their counts telescope.  They add up to the count of the window
exactly when what the counter made before the first report is what readings at the very
instant of a report count twice (`product_counts_iff`).
-/
import UnifiedNamespace.Oee.CounterWindows
import UnifiedNamespace.Oee.RunTime

namespace Uns.Oee

open Py Lib

/-! ## Segments end to end -/

/-- A segment ends where the next begins, in another state. -/
abbrev Joined (segments : List StateSegment) : Prop :=
  segments.IsChain fun g h => g.interval.finish = h.interval.start ∧ g.state ≠ h.state

variable {segments : List StateSegment} {point : StateSample} {points : List StateSample} {windowEnd : ℤ}

theorem joined_extendSegments {finish : ℤ} (hj : Joined segments.reverse)
    (htouch : ∀ g ∈ segments.head?, g.interval.finish = point.at_) :
    Joined (extendSegments segments point finish).reverse := by
  rw [Joined, List.isChain_reverse] at hj ⊢
  cases segments with
  | nil => exact List.isChain_singleton _
  | cons last rest =>
      have hat := htouch last rfl
      rw [extendSegments]
      split
      · next hsame =>
          cases rest with
          | nil => exact List.isChain_singleton _
          | cons prior rest =>
              rw [List.isChain_cons_cons] at hj ⊢
              exact ⟨⟨hj.1.1, hsame ▸ hj.1.2⟩, hj.2⟩
      · next hdiffer => exact List.isChain_cons_cons.mpr ⟨⟨hat, hdiffer⟩, hj⟩

/-- The loop keeps segments end to end, and the last one reaches the end of the window. -/
theorem joined_segmentsFrom (ho : Ordered points) (hw : ∀ p ∈ points, p.at_ < windowEnd) {at_ : ℤ}
    (hr : Reaches segments at_) (hat : ∀ p ∈ points.head?, at_ = p.at_) (hend : points = [] → at_ = windowEnd)
    (hj : Joined segments.reverse) :
    Joined (segmentsFrom windowEnd segments points) ∧
      ∀ g ∈ (segmentsFrom windowEnd segments points).getLast?, g.interval.finish = windowEnd := by
  induction points generalizing segments at_ with
  | nil =>
      refine ⟨hj, ?_⟩
      rw [segmentsFrom, List.getLast?_reverse, ← hend rfl]
      exact hr.touches
  | cons p ps ih =>
      obtain rfl := hat p rfl
      obtain ⟨hreach, htouch⟩ := @reaches_step ps p segments windowEnd ho hr
      refine ih (List.pairwise_cons.mp ho).2 (fun q hq => hw q (List.mem_cons_of_mem _ hq)) hreach htouch ?_ ?_
      · rintro rfl
        exact max_eq_right (hw p List.mem_cons_self).le
      · split
        · exact hj
        · exact joined_extendSegments hj hr.touches

variable {samples : List StateSample} {window : Interval}

theorem stateSegments_of_inverted (h : window.finish ≤ window.start) : stateSegments samples window = [] := by
  have hinside : (orderedStates samples).filter (fun s => window.start < s.at_ ∧ s.at_ < window.finish) = [] := by
    refine List.filter_eq_nil_iff.mpr fun s _ hs => ?_
    rw [decide_eq_true_eq] at hs
    omega
  rw [stateSegments, statePoints, hinside, List.append_nil]
  cases ((orderedStates samples).filter fun s => s.at_ ≤ window.start).getLast? with
  | none => rfl
  | some prior =>
      show segmentsFrom window.finish [] [⟨window.start, prior.state⟩] = []
      have hend : pointEnd window.finish [] ≤ window.start := h
      rw [segmentsFrom]
      dsimp only
      rw [if_pos hend]
      rfl

theorem joined_stateSegments (samples : List StateSample) (window : Interval) :
    Joined (stateSegments samples window) ∧
      ∀ g ∈ (stateSegments samples window).getLast?, g.interval.finish = window.finish := by
  rcases le_or_gt window.finish window.start with hle | hlt
  · rw [stateSegments_of_inverted hle]
    exact ⟨List.isChain_nil, fun g hg => by cases hg⟩
  · have ho : Ordered (statePoints (orderedStates samples) window) :=
      ordered_statePoints (ordered_orderedStates samples)
    have hw : ∀ p ∈ statePoints (orderedStates samples) window, p.at_ < window.finish :=
      fun p hp => (mem_statePoints hlt hp).2
    cases hpoints : statePoints (orderedStates samples) window with
    | nil =>
        rw [stateSegments, hpoints]
        exact ⟨List.isChain_nil, fun g hg => by cases hg⟩
    | cons p ps =>
        rw [stateSegments, hpoints]
        rw [hpoints] at ho hw
        refine joined_segmentsFrom ho hw (reaches_nil p.at_) ?_ (fun h => by cases h) List.isChain_nil
        intro q hq
        obtain rfl := Option.some.inj hq
        rfl

/-- Segments of one state have a gap between them. -/
theorem gap_of_joined (hj : Joined segments) (ht : Tiles segments) :
    segments.Pairwise fun g h => g.state = h.state → g.interval.finish < h.interval.start := by
  induction segments with
  | nil => exact List.Pairwise.nil
  | cons g rest ih =>
      obtain ⟨hbefore, hrest⟩ := List.pairwise_cons.mp ht.before
      have htiles : Tiles rest := ⟨fun h hh => ht.nonempty h (List.mem_cons_of_mem _ hh), hrest⟩
      refine List.pairwise_cons.mpr ⟨?_, ih hj.tail htiles⟩
      intro h hh hsame
      cases rest with
      | nil => cases hh
      | cons next rest =>
          obtain ⟨⟨hnext, hdiffer⟩, -⟩ := List.isChain_cons_cons.mp hj
          rcases List.mem_cons.mp hh with rfl | hh
          · exact absurd hsame hdiffer
          · have hlater := (List.pairwise_cons.mp hrest).1 h hh
            have hnonempty := htiles.nonempty next List.mem_cons_self
            omega

/-! ## Groups -/

/-- Intervals in order with gaps are merged already. -/
theorem mergeFrom_of_separated {i : Interval} {l : List Interval} (h : (i :: l).Pairwise fun i j => i.finish < j.start) :
    mergeFrom i l = i :: l := by
  induction l generalizing i with
  | nil => rfl
  | cons j l ih =>
      obtain ⟨hfirst, hrest⟩ := List.pairwise_cons.mp h
      rw [mergeFrom, if_neg (not_le.mpr (hfirst j List.mem_cons_self)), ih hrest]

theorem merge_of_separated {l : List Interval} (h : Separated l) : merge l = l := by
  have hall : (l.filter fun i => !i.isEmpty) = l := by
    refine List.filter_eq_self.mpr fun i hi => ?_
    rw [Interval.isEmpty, Bool.not_eq_true', decide_eq_false_iff_not, not_le]
    exact h.nonempty i hi
  have hsorted : l.Pairwise Interval.le := by
    refine h.apart.imp_of_mem fun hi _ hij => .inl ?_
    exact (h.nonempty _ hi).trans hij
  rw [merge, hall, hsorted.insertionSort_eq]
  cases l with
  | nil => rfl
  | cons i l => exact mergeFrom_of_separated h.apart

theorem groupByProduct_concat (segments : List StateSegment) (g : StateSegment) :
    groupByProduct (segments ++ [g]) = (groupByProduct segments).update g.state [] (· ++ [g.interval]) :=
  List.foldl_concat _ _ _ _

/-- A group has the intervals of its product. -/
theorem get?_groupByProduct (segments : List StateSegment) (code : Str) :
    ((groupByProduct segments).get? code).getD [] =
      (segments.filter fun g => g.state = code).map StateSegment.interval := by
  induction segments using List.reverseRecOn with
  | nil => rfl
  | append_singleton segments g ih =>
      rw [groupByProduct_concat, List.filter_append, List.map_append, ← ih]
      rcases eq_or_ne g.state code with rfl | hne
      · rw [Dict.get?_update_self, List.filter_cons_of_pos (by exact decide_eq_true rfl)]
        rfl
      · rw [Dict.get?_update_ne _ _ _ hne.symm, List.filter_cons_of_neg (by rw [decide_eq_true_eq]; exact hne)]
        exact (List.append_nil _).symm

/-- The groups have what the segments have. -/
theorem sum_updateEntries (f : Interval → ℚ) (code : Str) (i : Interval) (entries : List (Str × List Interval)) :
    ((updateEntries code [] (· ++ [i]) entries).map fun e => (e.2.map f).sum).sum =
      (entries.map fun e => (e.2.map f).sum).sum + f i := by
  induction entries with
  | nil => simp [updateEntries]
  | cons e entries ih =>
      obtain ⟨code', intervals⟩ := e
      rw [updateEntries]
      split
      · simp only [List.map_cons, List.sum_cons, List.map_append, List.sum_append, List.map_nil, List.sum_nil]
        ring
      · rw [List.map_cons, List.sum_cons, ih, List.map_cons, List.sum_cons]
        ring

theorem sum_groupByProduct (f : Interval → ℚ) (segments : List StateSegment) :
    ((groupByProduct segments).entries.map fun e => (e.2.map f).sum).sum =
      (segments.map fun g => f g.interval).sum := by
  induction segments using List.reverseRecOn with
  | nil => rfl
  | append_singleton segments g ih =>
      rw [groupByProduct_concat, List.map_append, List.sum_append, ← ih]
      refine (sum_updateEntries f g.state g.interval _).trans ?_
      simp

theorem merge_groupByProduct {samples : List StateSample} {window : Interval} {e : Str × List Interval}
    (he : e ∈ (groupByProduct (stateSegments samples window)).entries) : merge e.2 = e.2 := by
  have hget : (groupByProduct (stateSegments samples window)).get? e.1 = some e.2 := Dict.get?_of_mem he
  have hgroup := get?_groupByProduct (stateSegments samples window) e.1
  rw [hget, Option.getD_some] at hgroup
  have htiles := tiles_stateSegments samples window
  have hgap := gap_of_joined (joined_stateSegments samples window).1 htiles
  rw [hgroup]
  refine merge_of_separated ⟨?_, ?_⟩
  · intro i hi
    obtain ⟨g, hg, rfl⟩ := List.mem_map.mp hi
    exact htiles.nonempty g (List.mem_filter.mp hg).1
  · refine List.pairwise_map.mpr ((hgap.sublist List.filter_sublist).imp_of_mem ?_)
    intro g h hg hh hlt
    have hg' := of_decide_eq_true (List.mem_filter.mp hg).2
    have hh' := of_decide_eq_true (List.mem_filter.mp hh).2
    exact hlt (hg'.trans hh'.symm)

/-! ## Counts -/

/-- The start of the first segment, and the end of the window if there is none. -/
def firstReport (product : List StateSample) (window : Interval) : ℤ :=
  ((stateSegments product window).head?.map fun g => g.interval.start).getD window.finish

/-- What readings at the very instant of a report count. -/
def countedTwice (counter : List Sample) (product : List StateSample) (window : Interval) : ℚ :=
  ((stateSegments product window).map fun g =>
    (counterDeltaIn counter g.interval.start g.interval.start).total).sum

/-- What the counter made before the first report is what is counted twice. -/
def MissedIsDoubled (counter : List Sample) (product : List StateSample) (window : Interval) : Prop :=
  (counterDeltaIn counter window.start (firstReport product window)).total = countedTwice counter product window

/-- The counts of segments end to end. -/
theorem sum_counts (counter : List Sample) {segments : List StateSegment} (hj : Joined segments)
    (hne : ∀ g ∈ segments, g.interval.start < g.interval.finish) {finish : ℤ}
    (hend : ∀ g ∈ segments.getLast?, g.interval.finish = finish) :
    (segments.map fun g => (counterDeltaIn counter g.interval.start g.interval.finish).total).sum =
      climbed counter finish - climbed counter ((segments.head?.map fun g => g.interval.start).getD finish) +
        (segments.map fun g => (counterDeltaIn counter g.interval.start g.interval.start).total).sum := by
  induction segments with
  | nil => simp
  | cons g rest ih =>
      have hg := total_eq_climbed counter (hne g List.mem_cons_self).le
      have hhead : ((rest.head?.map fun g => g.interval.start).getD finish) = g.interval.finish := by
        cases rest with
        | nil => exact (hend g rfl).symm
        | cons next rest => exact (List.isChain_cons_cons.mp hj).1.1.symm
      have hlast : ∀ h ∈ rest.getLast?, h.interval.finish = finish := by
        intro h hh
        refine hend h ?_
        cases rest with
        | nil => cases hh
        | cons next rest => rwa [List.getLast?_cons_cons]
      rw [List.map_cons, List.sum_cons, ih hj.tail (fun h hh => hne h (List.mem_cons_of_mem _ hh)) hlast, hhead, hg,
        List.map_cons, List.sum_cons, List.head?_cons, Option.map_some, Option.getD_some]
      ring

theorem start_le_firstReport (product : List StateSample) {window : Interval} (hw : window.start < window.finish) :
    window.start ≤ firstReport product window := by
  rw [firstReport]
  cases hhead : (stateSegments product window).head? with
  | none => exact hw.le
  | some g =>
      have hg := List.mem_of_head? hhead
      have hne := (tiles_stateSegments product window).nonempty g hg
      exact (window_of_mem_stateSegments hw ⟨g, hg, rfl, le_refl _, hne⟩).1

/-- The counts of the segments against the count of the window. -/
theorem sum_segments_iff (counter : List Sample) (product : List StateSample) (window : Interval) :
    ((stateSegments product window).map fun g =>
        (counterDeltaIn counter g.interval.start g.interval.finish).total).sum =
      (counterDeltaIn counter window.start window.finish).total ↔ MissedIsDoubled counter product window := by
  obtain ⟨hj, hend⟩ := joined_stateSegments product window
  rw [MissedIsDoubled, countedTwice]
  rcases le_or_gt window.finish window.start with hle | hlt
  · have hnone : stateSegments product window = [] := stateSegments_of_inverted hle
    rw [firstReport, hnone]
    exact eq_comm
  · have hfirst := start_le_firstReport product hlt
    rw [sum_counts counter hj (tiles_stateSegments product window).nonempty hend, total_eq_climbed counter hfirst,
      total_eq_climbed counter hlt.le]
    show climbed counter window.finish - climbed counter (firstReport product window) + _ = _ ↔ _
    constructor
    · intro h
      linarith
    · intro h
      linarith

theorem sum_productCounts (counter : List Sample) (product : List StateSample) (window : Interval) :
    ((groupByProduct (stateSegments product window)).entries.map fun e =>
        ((merge e.2).map fun i => (counterDeltaIn counter i.start i.finish).total).sum).sum =
      ((stateSegments product window).map fun g =>
        (counterDeltaIn counter g.interval.start g.interval.finish).total).sum := by
  rw [← sum_groupByProduct fun i => (counterDeltaIn counter i.start i.finish).total]
  refine congrArg List.sum (List.map_congr_left ?_)
  intro e he
  rw [merge_groupByProduct he]

/-- The products of a shift have the counts of the shift. -/
def CountsReconcile (u : UnitMasterData) (window : ShiftWindow) (samples : ShiftSamples) : Prop :=
  ((productSegments u window samples).map ProductSegment.goodCount).sum =
      (counterDeltaIn samples.good window.start window.finish).total ∧
    ((productSegments u window samples).map ProductSegment.rejectCount).sum =
      (counterDeltaIn samples.reject window.start window.finish).total

/-- They do when the shift is not split, or what each counter made before the first report of a product
is what is counted twice. -/
theorem product_counts_iff (u : UnitMasterData) (window : ShiftWindow) (samples : ShiftSamples) :
    CountsReconcile u window samples ↔
      u.productRef = none ∨ samples.product = [] ∨
        (MissedIsDoubled samples.good samples.product window.asInterval ∧
          MissedIsDoubled samples.reject samples.product window.asInterval) := by
  by_cases hwhole : u.productRef = none ∨ samples.product = []
  · refine iff_of_true ?_ (hwhole.imp_right .inl)
    rw [CountsReconcile, productSegments, if_pos hwhole]
    simp [productSegment, ShiftWindow.asInterval]
  · have hgood := sum_segments_iff samples.good samples.product window.asInterval
    have hreject := sum_segments_iff samples.reject samples.product window.asInterval
    rw [← sum_productCounts] at hgood hreject
    rw [not_or] at hwhole
    rw [CountsReconcile, productSegments, if_neg (not_or.mpr hwhole), List.map_map, List.map_map,
      or_iff_right hwhole.1, or_iff_right hwhole.2]
    exact and_congr hgood hreject

/-- Without two readings at one instant nothing is counted twice. -/
theorem missedIsDoubled_iff_of_distinct {counter : List Sample} (hdistinct : (counter.map Sample.at_).Nodup)
    (product : List StateSample) (window : Interval) :
    MissedIsDoubled counter product window ↔
      (counterDeltaIn counter window.start (firstReport product window)).total = 0 := by
  have hzero : countedTwice counter product window = 0 := by
    refine List.sum_eq_zero ?_
    intro x hx
    obtain ⟨g, -, rfl⟩ := List.mem_map.mp hx
    exact total_instant_eq_zero hdistinct _
  rw [MissedIsDoubled, hzero]

/-- A product is reported in the middle of the shift: what was made before is no product's. -/
theorem late_report_not_counted :
    ¬ ∀ u window samples, u.productRef ≠ none → CountsReconcile u window samples := by
  intro h
  have hcounts := (h { lineUnit with productRef := some ⟨lit "Plant/Line1/Product", lit "value"⟩ } ⟨0, 100, []⟩
    ⟨[], [⟨0, 0⟩, ⟨50, 5⟩, ⟨100, 10⟩], [], [⟨50, lit "P1"⟩]⟩ (by decide)).1
  revert hcounts
  decide +kernel

end Uns.Oee
