/-
# `Oee.States` — state segments and the interval algebra

`states.py`: half-open intervals of instants, the operations merge, subtract and
intersect, the duration of a union, and the split of a window by machine state.

An interval list stands for a set of instants.  `Covers` is membership in it, and
each operation is that set operation (`covers_merge`, `covers_subtract`,
`covers_intersect`); a union's duration counts the instants of its set
(`unionDurationS_eq_card`).  The segments of a window say, at each of its
instants, what the last sample said (`mem_stateSegments`).
-/
import Mathlib
import UnifiedNamespace.Python.Str

namespace Uns.Oee

open Py

/-- A half-open UTC interval. -/
structure Interval where
  start : ℤ
  finish : ℤ
  deriving DecidableEq

namespace Interval

def isEmpty (i : Interval) : Bool := decide (i.finish ≤ i.start)

/-- Seconds. -/
def durationS (i : Interval) : ℚ := (max (i.finish - i.start) 0 : ℤ) / 1000000

/-- The overlap with `other`. -/
def clippedTo (i other : Interval) : Option Interval :=
  let start := max i.start other.start
  let finish := min i.finish other.finish
  if finish ≤ start then none else some ⟨start, finish⟩

/-- The order of the fields. -/
def le (i j : Interval) : Prop := i.start < j.start ∨ (i.start = j.start ∧ i.finish ≤ j.finish)

instance : DecidableRel le := fun _ _ => inferInstanceAs (Decidable (_ ∨ _))

end Interval

/-! ## The algebra -/

/-- The scan of `merge`; `last` is `merged[-1]`. -/
def mergeFrom (last : Interval) : List Interval → List Interval
  | [] => [last]
  | i :: rest =>
      if i.start ≤ last.finish then mergeFrom ⟨last.start, max last.finish i.finish⟩ rest
      else last :: mergeFrom i rest

def mergeOrdered : List Interval → List Interval
  | [] => []
  | i :: rest => mergeFrom i rest

/-- The input as a minimal set of non-overlapping intervals, earliest first. -/
def merge (intervals : List Interval) : List Interval :=
  mergeOrdered ((intervals.filter fun i => !i.isEmpty).insertionSort Interval.le)

/-- Seconds covered by at least one interval. -/
def unionDurationS (intervals : List Interval) : ℚ := ((merge intervals).map Interval.durationS).sum

/-- Time covered by both sides. -/
def intersect (left right : List Interval) : List Interval :=
  merge ((merge left).flatMap fun one => (merge right).filterMap fun other => one.clippedTo other)

/-- What a cut leaves of an interval. -/
def cutOut (cut i : Interval) : List Interval :=
  if cut.finish ≤ i.start ∨ i.finish ≤ cut.start then [i]
  else
    (if i.start < cut.start then [⟨i.start, cut.start⟩] else []) ++
      if cut.finish < i.finish then [⟨cut.finish, i.finish⟩] else []

/-- Time covered by `left` and not by `right`. -/
def subtract (left right : List Interval) : List Interval :=
  (merge right).foldl (fun remaining cut => remaining.flatMap (cutOut cut)) (merge left)

/-! ## The set of instants -/

/-- The instant lies in one of the intervals. -/
def Covers (l : List Interval) (t : ℤ) : Prop := ∃ i ∈ l, i.start ≤ t ∧ t < i.finish

instance (l : List Interval) (t : ℤ) : Decidable (Covers l t) :=
  inferInstanceAs (Decidable (∃ i ∈ l, _))

/-- The instants of a list of intervals. -/
noncomputable def instants (l : List Interval) : Finset ℤ := l.foldr (fun i s => Finset.Ico i.start i.finish ∪ s) ∅

variable {l left right : List Interval} {i last : Interval} {t : ℤ}

@[simp] theorem covers_nil : ¬ Covers [] t := by
  rintro ⟨i, hi, -⟩
  cases hi

@[simp] theorem covers_cons : Covers (i :: l) t ↔ (i.start ≤ t ∧ t < i.finish) ∨ Covers l t :=
  List.exists_mem_cons_iff _ _ _

theorem covers_append : Covers (left ++ right) t ↔ Covers left t ∨ Covers right t := by
  induction left with
  | nil => simp
  | cons i left ih => rw [List.cons_append, covers_cons, covers_cons, ih, or_assoc]

theorem covers_flatMap {α : Type} {xs : List α} {f : α → List Interval} :
    Covers (xs.flatMap f) t ↔ ∃ x ∈ xs, Covers (f x) t := by
  constructor
  · rintro ⟨i, hi, ht⟩
    obtain ⟨x, hx, hi⟩ := List.mem_flatMap.mp hi
    exact ⟨x, hx, i, hi, ht⟩
  · rintro ⟨x, hx, i, hi, ht⟩
    exact ⟨i, List.mem_flatMap.mpr ⟨x, hx, hi⟩, ht⟩

theorem mem_instants : t ∈ instants l ↔ Covers l t := by
  induction l with
  | nil => simp [instants]
  | cons i l ih =>
      change t ∈ Finset.Ico i.start i.finish ∪ instants l ↔ _
      rw [Finset.mem_union, Finset.mem_Ico, covers_cons, ih]

theorem covers_of_mem {l l' : List Interval} (h : ∀ i, i ∈ l → i.start < i.finish → i ∈ l')
    (ht : Covers l t) : Covers l' t := by
  obtain ⟨i, hi, ht⟩ := ht
  exact ⟨i, h i hi (lt_of_le_of_lt ht.1 ht.2), ht⟩

/-! ## Merging -/

/-- Non-empty intervals with a gap between them. -/
structure Separated (l : List Interval) : Prop where
  nonempty : ∀ i ∈ l, i.start < i.finish
  apart : l.Pairwise fun i j => i.finish < j.start

theorem Separated.apart_of_mem (h : Separated l) {j : Interval} (hi : i ∈ l) (hj : j ∈ l) :
    i = j ∨ i.finish < j.start ∨ j.finish < i.start := by
  induction l with
  | nil => cases hi
  | cons k l ih =>
      obtain ⟨hfirst, hrest⟩ := List.pairwise_cons.mp h.apart
      rcases List.mem_cons.mp hi with rfl | hi' <;> rcases List.mem_cons.mp hj with rfl | hj'
      · exact .inl rfl
      · exact .inr (.inl (hfirst j hj'))
      · exact .inr (.inr (hfirst i hi'))
      · exact ih ⟨fun m hm => h.nonempty m (List.mem_cons_of_mem _ hm), hrest⟩ hi' hj'

theorem covers_mergeFrom (h : ∀ i ∈ l, last.start ≤ i.start)
    (hs : l.Pairwise fun i j => i.start ≤ j.start) :
    Covers (mergeFrom last l) t ↔ Covers (last :: l) t := by
  induction l generalizing last with
  | nil => rfl
  | cons i l ih =>
      have hi : last.start ≤ i.start := h i List.mem_cons_self
      rw [List.pairwise_cons] at hs
      rw [mergeFrom]
      split
      · rename_i hle
        have hmerged := @ih ⟨last.start, max last.finish i.finish⟩
          (fun j hj => hi.trans (hs.1 j hj)) hs.2
        rw [hmerged]
        simp only [covers_cons, ← or_assoc]
        refine or_congr_left ?_
        omega
      · rw [covers_cons, ih hs.1 hs.2, covers_cons, covers_cons, covers_cons]

theorem separated_mergeFrom (hlast : last.start < last.finish) (hne : ∀ i ∈ l, i.start < i.finish)
    (h : ∀ i ∈ l, last.start ≤ i.start) (hs : l.Pairwise fun i j => i.start ≤ j.start) :
    Separated (mergeFrom last l) ∧ ∀ i ∈ mergeFrom last l, last.start ≤ i.start := by
  induction l generalizing last with
  | nil =>
      refine ⟨⟨?_, List.pairwise_singleton _ _⟩, ?_⟩ <;> intro i hi <;>
        rw [List.mem_singleton.mp hi]
      exact hlast
  | cons i l ih =>
      have hi := h i List.mem_cons_self
      rw [List.pairwise_cons] at hs
      rw [mergeFrom]
      split
      · refine ih ?_ (fun j hj => hne j (List.mem_cons_of_mem _ hj))
          (fun j hj => hi.trans (hs.1 j hj)) hs.2
        exact lt_of_lt_of_le hlast (le_max_left _ _)
      · rename_i hlt
        obtain ⟨hsep, hlow⟩ := ih (hne i List.mem_cons_self)
          (fun j hj => hne j (List.mem_cons_of_mem _ hj)) hs.1 hs.2
        refine ⟨⟨?_, ?_⟩, ?_⟩
        · intro j hj
          rcases List.mem_cons.mp hj with rfl | hj
          · exact hlast
          · exact hsep.nonempty j hj
        · refine List.pairwise_cons.mpr ⟨?_, hsep.apart⟩
          intro j hj
          have := hlow j hj
          omega
        · intro j hj
          rcases List.mem_cons.mp hj with rfl | hj
          · exact le_refl _
          · exact hi.trans (hlow j hj)

/-- What `merge` scans: the non-empty intervals by their starts. -/
theorem ordered_facts (l : List Interval) :
    (((l.filter fun i => !i.isEmpty).insertionSort Interval.le).Pairwise fun i j =>
        i.start ≤ j.start) ∧
      ∀ i, i ∈ (l.filter fun i => !i.isEmpty).insertionSort Interval.le ↔
        i ∈ l ∧ i.start < i.finish := by
  constructor
  · have htotal : ∀ a b : Interval, a.le b ∨ b.le a := by
      intro a b
      unfold Interval.le
      omega
    have htrans : ∀ a b c : Interval, a.le b → b.le c → a.le c := by
      intro a b c
      unfold Interval.le
      omega
    have : Std.Total Interval.le := ⟨htotal⟩
    have : IsTrans Interval Interval.le := ⟨htrans⟩
    refine (List.pairwise_insertionSort Interval.le _).imp ?_
    intro a b hab
    unfold Interval.le at hab
    omega
  · intro i
    rw [(List.perm_insertionSort _ _).mem_iff, List.mem_filter]
    simp [Interval.isEmpty]

theorem separated_merge (l : List Interval) : Separated (merge l) := by
  obtain ⟨hs, hmem⟩ := ordered_facts l
  unfold merge
  cases he : (l.filter fun i => !i.isEmpty).insertionSort Interval.le with
  | nil => exact ⟨fun i hi => absurd hi List.not_mem_nil, List.Pairwise.nil⟩
  | cons i rest =>
      rw [he] at hs hmem
      have hne : ∀ j ∈ i :: rest, j.start < j.finish := fun j hj => ((hmem j).mp hj).2
      obtain ⟨hfirst, hrest⟩ := List.pairwise_cons.mp hs
      exact (separated_mergeFrom (hne i List.mem_cons_self)
        (fun j hj => hne j (List.mem_cons_of_mem _ hj)) hfirst hrest).1

theorem covers_merge : Covers (merge l) t ↔ Covers l t := by
  obtain ⟨hs, hmem⟩ := ordered_facts l
  have hordered : Covers ((l.filter fun i => !i.isEmpty).insertionSort Interval.le) t ↔ Covers l t :=
    ⟨covers_of_mem fun i hi _ => ((hmem i).mp hi).1, covers_of_mem fun i hi hne => (hmem i).mpr ⟨hi, hne⟩⟩
  rw [← hordered]
  unfold merge
  cases he : (l.filter fun i => !i.isEmpty).insertionSort Interval.le with
  | nil => rfl
  | cons i rest =>
      rw [he] at hs
      obtain ⟨hfirst, hrest⟩ := List.pairwise_cons.mp hs
      exact covers_mergeFrom hfirst hrest

/-! ## Durations -/

/-- Neither interval reaches into the other. -/
def Interval.Apart (i j : Interval) : Prop := i.finish ≤ j.start ∨ j.finish ≤ i.start

theorem card_instants_of_apart (hne : ∀ i ∈ l, i.start < i.finish) (hap : l.Pairwise Interval.Apart) :
    ((instants l).card : ℚ) = (l.map fun i => ((max (i.finish - i.start) 0 : ℤ) : ℚ)).sum := by
  induction l with
  | nil => rfl
  | cons i l ih =>
      obtain ⟨hfirst, hrest⟩ := List.pairwise_cons.mp hap
      have hi := hne i List.mem_cons_self
      have hdisj : Disjoint (Finset.Ico i.start i.finish) (instants l) := by
        refine Finset.disjoint_left.mpr ?_
        intro t ht hl
        obtain ⟨j, hj, hjt⟩ := mem_instants.mp hl
        have happart : i.finish ≤ j.start ∨ j.finish ≤ i.start := hfirst j hj
        rw [Finset.mem_Ico] at ht
        omega
      have hcard : ((i.finish - i.start).toNat : ℤ) = max (i.finish - i.start) 0 := by omega
      change ((Finset.Ico i.start i.finish ∪ instants l).card : ℚ) = _
      rw [Finset.card_union_of_disjoint hdisj, Int.card_Ico, List.map_cons, List.sum_cons, ← hcard,
        Nat.cast_add, ih (fun j hj => hne j (List.mem_cons_of_mem _ hj)) hrest]
      norm_cast

theorem card_instants (h : Separated l) :
    ((instants l).card : ℚ) = (l.map fun i => ((max (i.finish - i.start) 0 : ℤ) : ℚ)).sum :=
  card_instants_of_apart h.nonempty (h.apart.imp fun hlt => .inl hlt.le)

theorem sum_durationS (l : List Interval) : (l.map Interval.durationS).sum =
    (l.map fun i => ((max (i.finish - i.start) 0 : ℤ) : ℚ)).sum / 1000000 := by
  induction l with
  | nil => simp
  | cons i l ih =>
      rw [List.map_cons, List.sum_cons, List.map_cons, List.sum_cons, ih, Interval.durationS]
      ring

/-- A union's duration counts microseconds. -/
theorem unionDurationS_eq_card (l : List Interval) :
    unionDurationS l = ((instants l).card : ℚ) / 1000000 := by
  have hset : instants (merge l) = instants l := by
    ext t
    rw [mem_instants, mem_instants, covers_merge]
  rw [← hset, card_instants (separated_merge l), unionDurationS, sum_durationS]

/-- Intervals that do not overlap add up. -/
theorem unionDurationS_of_apart (hne : ∀ i ∈ l, i.start < i.finish) (hap : l.Pairwise Interval.Apart) :
    unionDurationS l = (l.map Interval.durationS).sum := by
  rw [unionDurationS_eq_card, card_instants_of_apart hne hap, sum_durationS]

/-! ## Intersection and subtraction -/

theorem covers_clippedTo {i j : Interval} :
    Covers (i.clippedTo j).toList t ↔ (i.start ≤ t ∧ t < i.finish) ∧ j.start ≤ t ∧ t < j.finish := by
  unfold Interval.clippedTo
  dsimp only
  split
  · simp only [Option.toList_none, covers_nil, false_iff]
    omega
  · simp only [Option.toList_some, covers_cons, covers_nil, or_false]
    omega

theorem covers_intersect : Covers (intersect left right) t ↔ Covers left t ∧ Covers right t := by
  have hpairs : ∀ one : Interval, Covers ((merge right).filterMap fun other => one.clippedTo other) t ↔
      (one.start ≤ t ∧ t < one.finish) ∧ Covers (merge right) t := by
    intro one
    rw [List.filterMap_eq_flatMap_toList, covers_flatMap]
    simp only [covers_clippedTo]
    constructor
    · rintro ⟨other, hother, ht, hr⟩
      exact ⟨ht, other, hother, hr⟩
    · rintro ⟨ht, other, hother, hr⟩
      exact ⟨other, hother, ht, hr⟩
  rw [intersect, covers_merge, covers_flatMap, ← covers_merge (l := left), ← covers_merge (l := right)]
  simp only [hpairs]
  constructor
  · rintro ⟨one, hone, ht, hr⟩
    exact ⟨⟨one, hone, ht⟩, hr⟩
  · rintro ⟨⟨one, hone, ht⟩, hr⟩
    exact ⟨one, hone, ht, hr⟩

theorem covers_cutOut {cut : Interval} (hcut : cut.start < cut.finish) :
    Covers (cutOut cut i) t ↔ (i.start ≤ t ∧ t < i.finish) ∧ ¬ (cut.start ≤ t ∧ t < cut.finish) := by
  unfold cutOut
  split
  · simp only [covers_cons, covers_nil, or_false]
    omega
  · rw [covers_append]
    split <;> split <;> simp only [covers_cons, covers_nil, or_false, false_or, false_iff] <;> omega

theorem covers_subtract : Covers (subtract left right) t ↔ Covers left t ∧ ¬ Covers right t := by
  have hcuts : ∀ (cuts remaining : List Interval), (∀ cut ∈ cuts, cut.start < cut.finish) →
      (Covers (cuts.foldl (fun remaining cut => remaining.flatMap (cutOut cut)) remaining) t ↔
        Covers remaining t ∧ ¬ Covers cuts t) := by
    intro cuts
    induction cuts with
    | nil =>
        intro remaining _
        simp
    | cons cut cuts ih =>
        intro remaining hne
        have hone : Covers (remaining.flatMap (cutOut cut)) t ↔
            Covers remaining t ∧ ¬ (cut.start ≤ t ∧ t < cut.finish) := by
          rw [covers_flatMap]
          simp only [covers_cutOut (hne cut List.mem_cons_self)]
          constructor
          · rintro ⟨i, hi, ht, hout⟩
            exact ⟨⟨i, hi, ht⟩, hout⟩
          · rintro ⟨⟨i, hi, ht⟩, hout⟩
            exact ⟨i, hi, ht, hout⟩
        rw [List.foldl_cons, ih _ fun c hc => hne c (List.mem_cons_of_mem _ hc), hone, covers_cons]
        tauto
  rw [subtract, hcuts _ _ (separated_merge right).nonempty, covers_merge, covers_merge]

theorem separated_cutOut {cut : Interval} (hcut : cut.start < cut.finish) (hi : i.start < i.finish) :
    Separated (cutOut cut i) ∧ ∀ p ∈ cutOut cut i, i.start ≤ p.start ∧ p.finish ≤ i.finish := by
  unfold cutOut
  split
  · refine ⟨⟨?_, List.pairwise_singleton _ _⟩, ?_⟩ <;> intro p hp <;> rw [List.mem_singleton.mp hp]
    · exact hi
    · exact ⟨le_refl _, le_refl _⟩
  · rename_i hmeet
    refine ⟨⟨?_, List.pairwise_append.mpr ⟨?_, ?_, ?_⟩⟩, ?_⟩
    · intro p hp
      rcases List.mem_append.mp hp with hp | hp <;> split at hp <;> simp at hp <;> subst hp <;>
        assumption
    · split <;> simp
    · split <;> simp
    · intro p hp q hq
      split at hp <;> split at hq <;> simp at hp hq
      subst hp hq
      exact hcut
    · intro p hp
      rcases List.mem_append.mp hp with hp | hp <;> split at hp <;> simp at hp <;> subst hp <;>
        dsimp only <;> omega

/-- What is left is again in order, with gaps. -/
theorem separated_subtract (left right : List Interval) : Separated (subtract left right) := by
  have hcuts : ∀ (cuts remaining : List Interval), (∀ cut ∈ cuts, cut.start < cut.finish) →
      Separated remaining →
      Separated (cuts.foldl (fun remaining cut => remaining.flatMap (cutOut cut)) remaining) := by
    intro cuts
    induction cuts with
    | nil => exact fun _ _ h => h
    | cons cut cuts ih =>
        intro remaining hne hr
        have hcut := hne cut List.mem_cons_self
        refine ih _ (fun c hc => hne c (List.mem_cons_of_mem _ hc)) ⟨?_, ?_⟩
        · intro p hp
          obtain ⟨j, hj, hp⟩ := List.mem_flatMap.mp hp
          exact (separated_cutOut hcut (hr.nonempty j hj)).1.nonempty p hp
        · refine List.pairwise_flatMap.mpr ⟨?_, ?_⟩
          · intro j hj
            exact (separated_cutOut hcut (hr.nonempty j hj)).1.apart
          · refine hr.apart.imp_of_mem ?_
            intro j k hj hk hjk p hp q hq
            have hpj := (separated_cutOut hcut (hr.nonempty j hj)).2 p hp
            have hqk := (separated_cutOut hcut (hr.nonempty k hk)).2 q hq
            omega
  exact hcuts _ _ (separated_merge right).nonempty (separated_merge left)

/-- The interval algebra is the algebra of the sets of instants, in separated intervals. -/
theorem interval_algebra (left right : List Interval) :
    (Separated (merge left) ∧ ∀ t, Covers (merge left) t ↔ Covers left t) ∧
      (Separated (intersect left right) ∧ ∀ t, Covers (intersect left right) t ↔ Covers left t ∧ Covers right t) ∧
      (Separated (subtract left right) ∧ ∀ t, Covers (subtract left right) t ↔ Covers left t ∧ ¬ Covers right t) ∧
      (∀ t, t ∈ instants left ↔ Covers left t) ∧
      unionDurationS left = ((instants left).card : ℚ) / 1000000 :=
  ⟨⟨separated_merge left, fun _ => covers_merge⟩, ⟨separated_merge _, fun _ => covers_intersect⟩,
    ⟨separated_subtract left right, fun _ => covers_subtract⟩, fun _ => mem_instants, unionDurationS_eq_card left⟩

/-! ## State segments -/

/-- One machine-state report. -/
structure StateSample where
  at_ : ℤ
  state : Str
  deriving DecidableEq

/-- The order of the fields. -/
def StateSample.le (a b : StateSample) : Prop := a.at_ < b.at_ ∨ (a.at_ = b.at_ ∧ a.state ≤ b.state)

instance : DecidableRel StateSample.le := fun _ _ => inferInstanceAs (Decidable (_ ∨ _))

/-- A period the machine spent continuously in one state. -/
structure StateSegment where
  state : Str
  interval : Interval
  deriving DecidableEq

/-- A segment in a non-producing state. -/
structure StopInterval where
  state : Str
  interval : Interval
  deriving DecidableEq

/-- A point that opens a period up to `finish`, joined to the last segment when the state is the
same; the segments are newest first. -/
def extendSegments (segments : List StateSegment) (point : StateSample) (finish : ℤ) :
    List StateSegment :=
  match segments with
  | [] => [⟨point.state, ⟨point.at_, finish⟩⟩]
  | last :: rest =>
      if last.state = point.state then ⟨point.state, ⟨last.interval.start, finish⟩⟩ :: rest
      else ⟨point.state, ⟨point.at_, finish⟩⟩ :: last :: rest

/-- The end of the period before the points. -/
def pointEnd (windowEnd : ℤ) (points : List StateSample) : ℤ :=
  (points.head?.map StateSample.at_).getD windowEnd

/-- The loop of `state_segments`. -/
def segmentsFrom (windowEnd : ℤ) : List StateSegment → List StateSample → List StateSegment
  | segments, [] => segments.reverse
  | segments, point :: points =>
      let finish := pointEnd windowEnd points
      segmentsFrom windowEnd
        (if finish ≤ point.at_ then segments else extendSegments segments point finish) points

/-- The opening state, then the samples inside the window. -/
def statePoints (ordered : List StateSample) (window : Interval) : List StateSample :=
  ((ordered.filter fun s => s.at_ ≤ window.start).getLast?.map fun s =>
      (⟨window.start, s.state⟩ : StateSample)).toList ++
    ordered.filter fun s => window.start < s.at_ ∧ s.at_ < window.finish

def orderedStates (samples : List StateSample) : List StateSample :=
  samples.insertionSort StateSample.le

/-- Segment `window` by machine state. -/
def stateSegments (samples : List StateSample) (window : Interval) : List StateSegment :=
  segmentsFrom window.finish [] (statePoints (orderedStates samples) window)

/-- Every segment whose state is not one the unit declares as producing. -/
def stopIntervals (segments : List StateSegment) (producingStates : List Str) : List StopInterval :=
  (segments.filter fun s => s.state ∉ producingStates).map fun s => ⟨s.state, s.interval⟩

/-- What the last sample at or before the instant said. -/
def stateAt (samples : List StateSample) (t : ℤ) : Option Str :=
  ((orderedStates samples).filter fun s => s.at_ ≤ t).getLast?.map StateSample.state

/-- The same over points that are already in order. -/
def lastState (points : List StateSample) (t : ℤ) : Option Str :=
  (points.filter fun s => s.at_ ≤ t).getLast?.map StateSample.state

/-- Some segment has the state at the instant. -/
def SegmentAt (segments : List StateSegment) (s : Str) (t : ℤ) : Prop :=
  ∃ g ∈ segments, g.state = s ∧ g.interval.start ≤ t ∧ t < g.interval.finish

variable {points : List StateSample} {point : StateSample} {segments : List StateSegment} {s : Str}
variable {windowEnd : ℤ}

/-- Points in the order of their instants. -/
abbrev Ordered (points : List StateSample) : Prop := points.Pairwise fun a b => a.at_ ≤ b.at_

theorem pairwise_orderedStates (samples : List StateSample) : (orderedStates samples).Pairwise StateSample.le := by
  have htotal : ∀ a b : StateSample, a.le b ∨ b.le a := by
    intro a b
    unfold StateSample.le
    rcases lt_trichotomy a.at_ b.at_ with h | h | h
    · exact .inl (.inl h)
    · exact (le_total a.state b.state).imp (fun hs => .inr ⟨h, hs⟩) fun hs => .inr ⟨h.symm, hs⟩
    · exact .inr (.inl h)
  have htrans : ∀ a b c : StateSample, a.le b → b.le c → a.le c := by
    intro a b c hab hbc
    unfold StateSample.le at *
    rcases hab with hab | hab <;> rcases hbc with hbc | hbc
    · exact .inl (hab.trans hbc)
    · exact .inl (hbc.1 ▸ hab)
    · exact .inl (hab.1 ▸ hbc)
    · exact .inr ⟨hab.1.trans hbc.1, hab.2.trans hbc.2⟩
  have : Std.Total StateSample.le := ⟨htotal⟩
  have : IsTrans StateSample StateSample.le := ⟨htrans⟩
  exact List.pairwise_insertionSort StateSample.le samples

theorem ordered_orderedStates (samples : List StateSample) : Ordered (orderedStates samples) := by
  refine (pairwise_orderedStates samples).imp ?_
  rintro a b (hab | hab)
  · exact hab.le
  · exact hab.1.le

theorem lastState_of_lt (h : ∀ p ∈ points, t < p.at_) : lastState points t = none := by
  have hnil : points.filter (fun s => s.at_ ≤ t) = [] := by
    refine List.filter_eq_nil_iff.mpr ?_
    intro p hp
    simpa using h p hp
  rw [lastState, hnil]
  rfl

theorem lastState_cons (h : point.at_ ≤ t) :
    lastState (point :: points) t = (lastState points t).or (some point.state) := by
  rw [lastState, List.filter_cons_of_pos (by simpa using h), List.getLast?_cons, lastState]
  cases (points.filter fun s => s.at_ ≤ t).getLast? <;> rfl

theorem lastState_isSome : (lastState points t).isSome = true ↔ ∃ p ∈ points, p.at_ ≤ t := by
  rw [lastState, Option.isSome_map, Option.isSome_iff_ne_none, ne_eq, List.getLast?_eq_none_iff,
    List.filter_eq_nil_iff]
  simp

theorem lastState_append (points points' : List StateSample) :
    lastState (points ++ points') t = (lastState points' t).or (lastState points t) := by
  rw [lastState, List.filter_append, List.getLast?_append, lastState, lastState]
  cases (points'.filter fun s => s.at_ ≤ t).getLast? <;> rfl

theorem pointEnd_spec (ho : Ordered points) (hw : ∀ p ∈ points, p.at_ < windowEnd) :
    (∀ p ∈ points, pointEnd windowEnd points ≤ p.at_) ∧
      (t < pointEnd windowEnd points ↔ t < windowEnd ∧ lastState points t = none) := by
  cases points with
  | nil =>
      refine ⟨fun _ hp => absurd hp List.not_mem_nil, ?_⟩
      exact ⟨fun h => ⟨h, rfl⟩, fun h => h.1⟩
  | cons p ps =>
      have hp := hw p List.mem_cons_self
      rw [Ordered, List.pairwise_cons] at ho
      have hfirst : ∀ q ∈ p :: ps, p.at_ ≤ q.at_ := by
        intro q hq
        rcases List.mem_cons.mp hq with rfl | hq
        · exact le_refl _
        · exact ho.1 q hq
      refine ⟨hfirst, ?_⟩
      change t < p.at_ ↔ _
      constructor
      · intro h
        exact ⟨h.trans hp, lastState_of_lt fun q hq => lt_of_lt_of_le h (hfirst q hq)⟩
      · rintro ⟨-, hnone⟩
        by_contra hle
        have hsome := (@lastState_isSome t (p :: ps)).mpr ⟨p, List.mem_cons_self, not_lt.mp hle⟩
        rw [hnone] at hsome
        cases hsome

/-- The segments so far are in order, and the last one reaches up to the instant. -/
structure Reaches (segments : List StateSegment) (at_ : ℤ) : Prop where
  nonempty : ∀ g ∈ segments, g.interval.start < g.interval.finish
  after : segments.Pairwise fun g h => h.interval.finish ≤ g.interval.start
  touches : ∀ g ∈ segments.head?, g.interval.finish = at_

theorem segmentAt_cons {g : StateSegment} :
    SegmentAt (g :: segments) s t ↔
      (g.state = s ∧ g.interval.start ≤ t ∧ t < g.interval.finish) ∨ SegmentAt segments s t :=
  List.exists_mem_cons_iff _ _ _

theorem segmentAt_extendSegments {finish : ℤ} (hr : Reaches segments point.at_)
    (hlt : point.at_ < finish) :
    SegmentAt (extendSegments segments point finish) s t ↔
      SegmentAt segments s t ∨ (point.state = s ∧ point.at_ ≤ t ∧ t < finish) := by
  cases segments with
  | nil =>
      rw [extendSegments, segmentAt_cons]
      exact or_comm
  | cons last rest =>
      have hne := hr.nonempty last List.mem_cons_self
      have hat := hr.touches last rfl
      rw [extendSegments]
      split
      · rename_i hsame
        have hsplit : (last.interval.start ≤ t ∧ t < finish) ↔
            (last.interval.start ≤ t ∧ t < last.interval.finish) ∨ (point.at_ ≤ t ∧ t < finish) := by
          omega
        rw [segmentAt_cons, segmentAt_cons, hsplit, hsame, and_or_left]
        exact or_right_comm
      · rw [segmentAt_cons]
        exact or_comm

theorem Reaches.extend {finish : ℤ} (hr : Reaches segments point.at_) (hlt : point.at_ < finish) :
    Reaches (extendSegments segments point finish) finish := by
  have hpush : ∀ {rest : List StateSegment} {g : StateSegment},
      (∀ h ∈ rest, h.interval.start < h.interval.finish) →
      (rest.Pairwise fun g h => h.interval.finish ≤ g.interval.start) →
      g.interval.start < g.interval.finish → (∀ h ∈ rest, h.interval.finish ≤ g.interval.start) →
      g.interval.finish = finish → Reaches (g :: rest) finish := by
    intro rest g hne hafter hg hbefore hfin
    refine ⟨?_, List.pairwise_cons.mpr ⟨hbefore, hafter⟩, ?_⟩
    · intro h hh
      rcases List.mem_cons.mp hh with rfl | hh
      · exact hg
      · exact hne h hh
    · intro h hh
      obtain rfl := Option.some.inj hh
      exact hfin
  cases segments with
  | nil => exact hpush hr.nonempty hr.after hlt (fun h hh => absurd hh List.not_mem_nil) rfl
  | cons last rest =>
      have hne := hr.nonempty last List.mem_cons_self
      have hat := hr.touches last rfl
      obtain ⟨hlast, hrest⟩ := List.pairwise_cons.mp hr.after
      rw [extendSegments]
      split
      · refine hpush (fun h hh => hr.nonempty h (List.mem_cons_of_mem _ hh)) hrest ?_ hlast rfl
        change last.interval.start < finish
        omega
      · refine hpush hr.nonempty hr.after hlt ?_ rfl
        intro h hh
        rcases List.mem_cons.mp hh with rfl | hh
        · exact hat.le
        · have := hlast h hh
          change h.interval.finish ≤ point.at_
          omega

/-- One turn of the loop. -/
theorem reaches_step (ho : Ordered (point :: points)) (hr : Reaches segments point.at_) :
    Reaches (if pointEnd windowEnd points ≤ point.at_ then segments
      else extendSegments segments point (pointEnd windowEnd points))
      (max point.at_ (pointEnd windowEnd points)) ∧
      ∀ p ∈ points.head?, max point.at_ (pointEnd windowEnd points) = p.at_ := by
  constructor
  · split
    · rename_i hle
      rw [max_eq_left hle]
      exact hr
    · rename_i hlt
      rw [max_eq_right (not_le.mp hlt).le]
      exact hr.extend (not_le.mp hlt)
  · intro p hp
    have hge := (List.pairwise_cons.mp ho).1 p (List.mem_of_head? hp)
    have hend : pointEnd windowEnd points = p.at_ := by
      rw [pointEnd, Option.mem_def.mp hp]
      rfl
    rw [hend, max_eq_right hge]

theorem segmentAt_segmentsFrom (ho : Ordered points) (hw : ∀ p ∈ points, p.at_ < windowEnd)
    {at_ : ℤ} (hr : Reaches segments at_) (hat : ∀ p ∈ points.head?, at_ = p.at_) :
    SegmentAt (segmentsFrom windowEnd segments points) s t ↔
      SegmentAt segments s t ∨ (t < windowEnd ∧ lastState points t = some s) := by
  induction points generalizing segments at_ with
  | nil => simp [segmentsFrom, SegmentAt, lastState]
  | cons p ps ih =>
      obtain ⟨hfirst, hps⟩ := List.pairwise_cons.mp ho
      have hws : ∀ q ∈ ps, q.at_ < windowEnd := fun q hq => hw q (List.mem_cons_of_mem _ hq)
      obtain rfl := hat p rfl
      obtain ⟨hreach, htouch⟩ := @reaches_step ps p segments windowEnd ho hr
      obtain ⟨-, hend⟩ := @pointEnd_spec t ps windowEnd hps hws
      -- the part that the first point opens, and the rest
      have hstep : (t < windowEnd ∧ lastState (p :: ps) t = some s) ↔
          (p.state = s ∧ p.at_ ≤ t ∧ t < pointEnd windowEnd ps) ∨
            (t < windowEnd ∧ lastState ps t = some s) := by
        by_cases hp : p.at_ ≤ t
        · rw [lastState_cons hp, hend]
          cases hl : lastState ps t with
          | none => simp [hp, and_comm]
          | some s' => simp
        · have hlt : t < p.at_ := not_le.mp hp
          rw [@lastState_of_lt t ps fun q hq => lt_of_lt_of_le hlt (hfirst q hq)]
          rw [@lastState_of_lt t (p :: ps)]
          · simp [hp]
          · intro q hq
            rcases List.mem_cons.mp hq with rfl | hq
            · exact hlt
            · exact lt_of_lt_of_le hlt (hfirst q hq)
      rw [segmentsFrom, ih hps hws hreach htouch, hstep]
      split
      · rename_i hle
        have hnever : ¬ (p.at_ ≤ t ∧ t < pointEnd windowEnd ps) := by omega
        rw [or_iff_right fun hpart : p.state = s ∧ p.at_ ≤ t ∧ t < pointEnd windowEnd ps => hnever hpart.2]
      · rename_i hlt
        rw [segmentAt_extendSegments hr (not_le.mp hlt), or_assoc]

/-- Non-empty segments, each before the next. -/
structure Tiles (segments : List StateSegment) : Prop where
  nonempty : ∀ g ∈ segments, g.interval.start < g.interval.finish
  before : segments.Pairwise fun g h => g.interval.finish ≤ h.interval.start

theorem tiles_segmentsFrom (ho : Ordered points) {at_ : ℤ} (hr : Reaches segments at_)
    (hat : ∀ p ∈ points.head?, at_ = p.at_) : Tiles (segmentsFrom windowEnd segments points) := by
  induction points generalizing segments at_ with
  | nil =>
      refine ⟨fun g hg => hr.nonempty g (List.mem_reverse.mp hg), ?_⟩
      exact List.pairwise_reverse.mpr hr.after
  | cons p ps ih =>
      obtain rfl := hat p rfl
      obtain ⟨hreach, htouch⟩ := @reaches_step ps p segments windowEnd ho hr
      exact ih (List.pairwise_cons.mp ho).2 hreach htouch

theorem exists_head (points : List StateSample) : ∃ at_ : ℤ, ∀ p ∈ points.head?, at_ = p.at_ := by
  cases points with
  | nil => exact ⟨0, fun p hp => by cases hp⟩
  | cons q points => exact ⟨q.at_, fun p hp => by rw [Option.some.inj hp]⟩

theorem reaches_nil (at_ : ℤ) : Reaches [] at_ :=
  ⟨fun _ h => absurd h List.not_mem_nil, List.Pairwise.nil, fun g hg => by cases hg⟩

/-! ## The segments of a window -/

variable {samples : List StateSample} {window : Interval}

theorem mem_statePoints {points : List StateSample} (hw : window.start < window.finish)
    (hp : point ∈ statePoints points window) :
    window.start ≤ point.at_ ∧ point.at_ < window.finish := by
  rcases List.mem_append.mp hp with hp | hp
  · rw [Option.mem_toList, Option.map_eq_some_iff] at hp
    obtain ⟨q, -, rfl⟩ := hp
    exact ⟨le_refl _, hw⟩
  · have := (List.mem_filter.mp hp).2
    simp only [decide_eq_true_eq] at this
    omega

theorem ordered_statePoints (ho : Ordered points) : Ordered (statePoints points window) := by
  refine List.pairwise_append.mpr ⟨?_, ho.sublist List.filter_sublist, ?_⟩
  · cases (points.filter fun s => s.at_ ≤ window.start).getLast? with
    | none => exact List.Pairwise.nil
    | some q => exact List.pairwise_singleton _ _
  · intro p hp q hq
    rw [Option.mem_toList, Option.map_eq_some_iff] at hp
    obtain ⟨r, -, rfl⟩ := hp
    have := (List.mem_filter.mp hq).2
    simp only [decide_eq_true_eq] at this
    exact this.1.le

/-- The points of the window say what the samples say. -/
theorem lastState_statePoints (ho : Ordered points) (ht : window.start ≤ t ∧ t < window.finish) :
    lastState (statePoints points window) t = lastState points t := by
  have hsplit : points = (points.filter fun s => s.at_ ≤ window.start) ++
      points.filter fun s => window.start < s.at_ := by
    induction points with
    | nil => rfl
    | cons p ps ih =>
        obtain ⟨hp, hps⟩ := List.pairwise_cons.mp ho
        by_cases hle : p.at_ ≤ window.start
        · rw [List.filter_cons_of_pos (by simpa using hle), List.filter_cons_of_neg (by simpa using hle),
            List.cons_append, ← ih hps]
        · have hlate : ∀ q ∈ p :: ps, window.start < q.at_ := by
            intro q hq
            rcases List.mem_cons.mp hq with rfl | hq
            · omega
            · have := hp q hq
              omega
          have hnone : (p :: ps).filter (fun s => s.at_ ≤ window.start) = [] := by
            refine List.filter_eq_nil_iff.mpr ?_
            intro q hq
            simpa using hlate q hq
          have hall : (p :: ps).filter (fun s => window.start < s.at_) = p :: ps := by
            refine List.filter_eq_self.mpr ?_
            intro q hq
            simpa using hlate q hq
          rw [hnone, hall, List.nil_append]
  have hlate : lastState (points.filter fun s => window.start < s.at_ ∧ s.at_ < window.finish) t =
      lastState (points.filter fun s => window.start < s.at_) t := by
    rw [lastState, lastState, List.filter_filter, List.filter_filter]
    congr 2
    refine List.filter_congr ?_
    intro p _
    simp only [decide_eq_decide, ← Bool.decide_and]
    omega
  have hopen : lastState (((points.filter fun s => s.at_ ≤ window.start).getLast?.map fun s =>
      (⟨window.start, s.state⟩ : StateSample)).toList) t =
      lastState (points.filter fun s => s.at_ ≤ window.start) t := by
    have hall : (points.filter fun s => s.at_ ≤ window.start).filter (fun s => s.at_ ≤ t) =
        points.filter fun s => s.at_ ≤ window.start := by
      refine List.filter_eq_self.mpr ?_
      intro p hp
      have := (List.mem_filter.mp hp).2
      simp only [decide_eq_true_eq] at this ⊢
      omega
    rw [lastState, lastState, hall]
    cases (points.filter fun s => s.at_ ≤ window.start).getLast? with
    | none => rfl
    | some q => simp [ht.1]
  rw [statePoints, lastState_append, hlate, hopen]
  conv_rhs => rw [hsplit, lastState_append]

/-- Each instant of the window lies in the segment of what the last sample said. -/
theorem mem_stateSegments (ht : window.start ≤ t ∧ t < window.finish) :
    SegmentAt (stateSegments samples window) s t ↔ stateAt samples t = some s := by
  have hw : window.start < window.finish := lt_of_le_of_lt ht.1 ht.2
  have ho := ordered_orderedStates samples
  obtain ⟨at_, hat⟩ := exists_head (statePoints (orderedStates samples) window)
  rw [stateSegments, segmentAt_segmentsFrom (ordered_statePoints ho)
    (fun p hp => (mem_statePoints hw hp).2) (reaches_nil at_) hat, lastState_statePoints ho ht]
  have hnil : ¬ SegmentAt [] s t := by
    rintro ⟨g, hg, -⟩
    cases hg
  exact ⟨fun h => (h.resolve_left hnil).2, fun h => .inr ⟨ht.2, h⟩⟩

/-- A segment lies in the window. -/
theorem window_of_mem_stateSegments (hw : window.start < window.finish)
    (h : SegmentAt (stateSegments samples window) s t) : window.start ≤ t ∧ t < window.finish := by
  have ho := ordered_orderedStates samples
  obtain ⟨at_, hat⟩ := exists_head (statePoints (orderedStates samples) window)
  rw [stateSegments, segmentAt_segmentsFrom (ordered_statePoints ho)
    (fun p hp => (mem_statePoints hw hp).2) (reaches_nil at_) hat] at h
  rcases h with ⟨g, hg, -⟩ | ⟨hlt, hstate⟩
  · cases hg
  · have hsome : (lastState (statePoints (orderedStates samples) window) t).isSome = true := by
      rw [hstate]
      rfl
    obtain ⟨p, hp, hpt⟩ := lastState_isSome.mp hsome
    exact ⟨(mem_statePoints hw hp).1.trans hpt, hlt⟩

theorem tiles_stateSegments (samples : List StateSample) (window : Interval) :
    Tiles (stateSegments samples window) := by
  obtain ⟨at_, hat⟩ := exists_head (statePoints (orderedStates samples) window)
  exact tiles_segmentsFrom (ordered_statePoints (ordered_orderedStates samples)) (reaches_nil at_) hat

/-! ## The last sample -/

/-- No sample up to the instant is after this one; of equal instants the greatest state is last. -/
structure LastSample (samples : List StateSample) (t : ℤ) (sample : StateSample) : Prop where
  mem : sample ∈ samples
  known : sample.at_ ≤ t
  last : ∀ other ∈ samples, other.at_ ≤ t → other.le sample

theorem StateSample.eq_of_le_le {a b : StateSample} (hab : a.le b) (hba : b.le a) : a = b := by
  obtain ⟨x, u⟩ := a
  obtain ⟨y, v⟩ := b
  unfold StateSample.le at hab hba
  simp only at hab hba
  have hat : x = y := by omega
  have huv : u ≤ v := (hab.resolve_left (by omega)).2
  have hvu : v ≤ u := (hba.resolve_left (by omega)).2
  rw [hat, le_antisymm huv hvu]

theorem lastSample_of_stateAt (h : stateAt samples t = some s) :
    ∃ sample, LastSample samples t sample ∧ sample.state = s := by
  rw [stateAt, Option.map_eq_some_iff] at h
  obtain ⟨sample, hlast, hs⟩ := h
  obtain ⟨before, hsplit⟩ := List.getLast?_eq_some_iff.mp hlast
  have hpair := (pairwise_orderedStates samples).sublist
    (List.filter_sublist (p := fun s => decide (s.at_ ≤ t)))
  rw [hsplit] at hpair
  have hmem : ∀ other, other ∈ before ++ [sample] ↔ other ∈ samples ∧ other.at_ ≤ t := by
    intro other
    rw [← hsplit, List.mem_filter, decide_eq_true_iff, orderedStates, List.mem_insertionSort]
  obtain ⟨hin, hat⟩ := (hmem sample).mp (List.mem_append_right _ List.mem_cons_self)
  refine ⟨sample, ⟨hin, hat, fun other hother hle => ?_⟩, hs⟩
  rcases List.mem_append.mp ((hmem other).mpr ⟨hother, hle⟩) with hbefore | hself
  · exact (List.pairwise_append.mp hpair).2.2 other hbefore sample List.mem_cons_self
  · rw [List.mem_singleton.mp hself]
    exact .inr ⟨rfl, le_rfl⟩

theorem stateAt_isSome : (stateAt samples t).isSome = true ↔ ∃ sample ∈ samples, sample.at_ ≤ t := by
  have hmem : ∀ sample, sample ∈ orderedStates samples ↔ sample ∈ samples := fun sample => List.mem_insertionSort _
  refine (@lastState_isSome t (orderedStates samples)).trans ?_
  simp only [hmem]

theorem LastSample.stateAt {sample : StateSample} (h : LastSample samples t sample) :
    stateAt samples t = some sample.state := by
  obtain ⟨state, hstate⟩ := Option.isSome_iff_exists.mp (stateAt_isSome.mpr ⟨sample, h.mem, h.known⟩)
  obtain ⟨other, hother, rfl⟩ := lastSample_of_stateAt hstate
  rw [hstate, StateSample.eq_of_le_le (h.last other hother.mem hother.known) (hother.last sample h.mem h.known)]

/-! ## Neighbours -/

/-- Segment and next: they touch, in different states. -/
def Follows (g h : StateSegment) : Prop := g.interval.finish = h.interval.start ∧ g.state ≠ h.state

theorem chain_extendSegments {finish : ℤ} (hr : Reaches segments point.at_)
    (h : segments.IsChain fun g h => Follows h g) :
    (extendSegments segments point finish).IsChain fun g h => Follows h g := by
  cases segments with
  | nil => exact List.isChain_singleton _
  | cons last rest =>
      rw [extendSegments]
      split
      · rename_i hsame
        cases rest with
        | nil => exact List.isChain_singleton _
        | cons previous rest =>
            rw [List.isChain_cons_cons] at h ⊢
            exact ⟨⟨h.1.1, hsame ▸ h.1.2⟩, h.2⟩
      · rename_i hother
        exact List.isChain_cons_cons.mpr ⟨⟨hr.touches last rfl, hother⟩, h⟩

theorem chain_segmentsFrom (ho : Ordered points) {at_ : ℤ} (hr : Reaches segments at_)
    (hat : ∀ p ∈ points.head?, at_ = p.at_) (h : segments.IsChain fun g h => Follows h g) :
    (segmentsFrom windowEnd segments points).IsChain Follows := by
  induction points generalizing segments at_ with
  | nil => exact List.isChain_reverse.mpr h
  | cons p ps ih =>
      obtain rfl := hat p rfl
      obtain ⟨hreach, htouch⟩ := @reaches_step ps p segments windowEnd ho hr
      refine ih (List.pairwise_cons.mp ho).2 hreach htouch ?_
      split
      · exact h
      · exact chain_extendSegments hr h

/-! ## Segmentation -/

/-- The segments say at each instant of the window what the last sample said, and tile it from the
first instant that is known. -/
structure Segmented (samples : List StateSample) (window : Interval) (segments : List StateSegment) : Prop where
  /-- An instant lies in one segment, the one with the state of the last sample. -/
  labelled : ∀ t sample, window.start ≤ t → t < window.finish → LastSample samples t sample →
    ∃ g ∈ segments, (g.interval.start ≤ t ∧ t < g.interval.finish) ∧ g.state = sample.state ∧
      ∀ h ∈ segments, h.interval.start ≤ t ∧ t < h.interval.finish → h = g
  /-- It lies in one exactly when there is a sample at or before it. -/
  known : ∀ t, window.start ≤ t → t < window.finish →
    ((∃ g ∈ segments, g.interval.start ≤ t ∧ t < g.interval.finish) ↔ ∃ sample ∈ samples, sample.at_ ≤ t)
  nonempty : ∀ g ∈ segments, g.interval.start < g.interval.finish
  follows : segments.IsChain Follows
  first : ∀ g ∈ segments.head?, IsLeast {t | window.start ≤ t ∧ ∃ sample ∈ samples, sample.at_ ≤ t} g.interval.start
  last : ∀ g ∈ segments.getLast?, g.interval.finish = window.finish

theorem segmentAt_iff {t : ℤ} : (∃ s, SegmentAt segments s t) ↔
    ∃ g ∈ segments, g.interval.start ≤ t ∧ t < g.interval.finish := by
  constructor
  · rintro ⟨s, g, hg, -, ht⟩
    exact ⟨g, hg, ht⟩
  · rintro ⟨g, hg, ht⟩
    exact ⟨g.state, g, hg, rfl, ht⟩

theorem known_stateSegments (ht : window.start ≤ t ∧ t < window.finish) :
    (∃ g ∈ stateSegments samples window, g.interval.start ≤ t ∧ t < g.interval.finish) ↔
      ∃ sample ∈ samples, sample.at_ ≤ t := by
  rw [← segmentAt_iff, ← stateAt_isSome, Option.isSome_iff_exists]
  exact exists_congr fun s => mem_stateSegments ht

theorem Tiles.eq_of_covers {segments : List StateSegment} (h : Tiles segments) {g g' : StateSegment}
    (hg : g ∈ segments) (hg' : g' ∈ segments) (ht : g.interval.start ≤ t ∧ t < g.interval.finish)
    (ht' : g'.interval.start ≤ t ∧ t < g'.interval.finish) : g' = g := by
  let Apart (a b : StateSegment) : Prop :=
    a = b ∨ a.interval.finish ≤ b.interval.start ∨ b.interval.finish ≤ a.interval.start
  have hbefore : segments.Pairwise Apart := h.before.imp fun hab => .inr (.inl hab)
  have hafter : segments.Pairwise (flip Apart) := h.before.imp fun hab => .inr (.inr hab)
  rcases List.Pairwise.forall_of_forall_of_flip (fun a _ => .inl rfl) hbefore hafter hg' hg with heq | hlt | hlt
  · exact heq
  · omega
  · omega

/-- A window without instants has no segments. -/
theorem stateSegments_of_empty (h : window.finish ≤ window.start) : stateSegments samples window = [] := by
  have hinside : (orderedStates samples).filter (fun s => window.start < s.at_ ∧ s.at_ < window.finish) = [] := by
    refine List.filter_eq_nil_iff.mpr fun p _ hp => ?_
    rw [decide_eq_true_eq] at hp
    omega
  rw [stateSegments, statePoints, hinside, List.append_nil]
  cases ((orderedStates samples).filter fun s => s.at_ ≤ window.start).getLast? with
  | none => rfl
  | some q =>
      change (if window.finish ≤ window.start then [] else _ : List StateSegment).reverse = []
      rw [if_pos h, List.reverse_nil]

/-- Every sample list is segmented exactly, over every window. -/
theorem segmented_stateSegments (samples : List StateSample) (window : Interval) :
    Segmented samples window (stateSegments samples window) := by
  have htiles := tiles_stateSegments samples window
  have hinside : ∀ g ∈ stateSegments samples window, ∀ t, g.interval.start ≤ t ∧ t < g.interval.finish →
      window.start ≤ t ∧ t < window.finish := by
    intro g hg t ht
    refine window_of_mem_stateSegments ?_ ⟨g, hg, rfl, ht⟩
    by_contra hempty
    rw [stateSegments_of_empty (not_lt.mp hempty)] at hg
    cases hg
  refine ⟨fun t sample hstart hfinish hlast => ?_, fun t hstart hfinish => known_stateSegments ⟨hstart, hfinish⟩,
    htiles.nonempty, ?_, fun g hg => ?_, fun g hg => ?_⟩
  · obtain ⟨g, hg, hs, ht⟩ := (mem_stateSegments ⟨hstart, hfinish⟩).mpr hlast.stateAt
    exact ⟨g, hg, ht, hs, fun h hh ht' => htiles.eq_of_covers hg hh ht ht'⟩
  · obtain ⟨at_, hat⟩ := exists_head (statePoints (orderedStates samples) window)
    exact chain_segmentsFrom (ordered_statePoints (ordered_orderedStates samples)) (reaches_nil at_) hat
      List.isChain_nil
  · have hmem := List.mem_of_head? hg
    have hne := htiles.nonempty g hmem
    obtain ⟨hstart, hfinish⟩ := hinside g hmem g.interval.start ⟨le_rfl, hne⟩
    refine ⟨⟨hstart, (known_stateSegments ⟨hstart, hfinish⟩).mp ⟨g, hmem, le_rfl, hne⟩⟩, fun t ht => ?_⟩
    by_contra hlt
    have hfirst := not_le.mp hlt
    obtain ⟨h, hh, hht⟩ := (known_stateSegments ⟨ht.1, hfirst.trans hfinish⟩).mpr ht.2
    obtain ⟨rest, hsplit⟩ := List.head?_eq_some_iff.mp hg
    have hbefore := htiles.before
    rw [hsplit] at hh hbefore
    rcases List.mem_cons.mp hh with rfl | hh
    · omega
    · have := List.rel_of_pairwise_cons hbefore hh
      omega
  · have hmem := List.mem_of_getLast? hg
    have hne := htiles.nonempty g hmem
    obtain ⟨hstart, hfinish⟩ := hinside g hmem (g.interval.finish - 1) ⟨by omega, by omega⟩
    by_contra hearly
    -- the last instant of the window is known too
    obtain ⟨sample, hsample, hat⟩ := (known_stateSegments ⟨hstart, hfinish⟩).mp ⟨g, hmem, by omega, by omega⟩
    have hend : window.start ≤ window.finish - 1 ∧ window.finish - 1 < window.finish := ⟨by omega, by omega⟩
    obtain ⟨h, hh, hht⟩ := (known_stateSegments hend).mpr ⟨sample, hsample, by omega⟩
    obtain ⟨before, hsplit⟩ := List.getLast?_eq_some_iff.mp hg
    have hbefore := htiles.before
    rw [hsplit] at hh hbefore
    rcases List.mem_append.mp hh with hh | hh
    · have := (List.pairwise_append.mp hbefore).2.2 h hh g List.mem_cons_self
      omega
    · rw [List.mem_singleton.mp hh] at hht
      omega

end Uns.Oee
