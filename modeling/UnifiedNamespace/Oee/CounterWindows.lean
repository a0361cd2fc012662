/-
# `Oee.CounterWindows` — counts of adjacent windows

The count of a window is what the counter climbed from its start to its end, by the steps
between consecutive readings (`climbed`), and what readings at the very instant of its start
step among themselves (`total_eq_climbed`).  Where no two readings share their instant the
latter is nothing, and the counts of adjacent windows add up (`counter_windows_add`).
-/
import UnifiedNamespace.Oee.Calc

namespace Uns.Oee

open Py

/-! ## Steps -/

/-- What one step between two readings counts. -/
def stepCount (previous current : Sample) : ℚ :=
  if 0 ≤ current.value - previous.value then current.value - previous.value else max current.value 0

/-- The steps of readings in order. -/
def stepsCount : List Sample → ℚ
  | [] => 0
  | [_] => 0
  | previous :: current :: rest => stepCount previous current + stepsCount (current :: rest)

theorem stepCount_nonneg (previous current : Sample) : 0 ≤ stepCount previous current := by
  rw [stepCount]
  split
  · assumption
  · exact le_max_right _ _

theorem stepsCount_nonneg (ordered : List Sample) : 0 ≤ stepsCount ordered := by
  induction ordered with
  | nil => exact le_refl _
  | cons previous rest ih =>
      cases rest with
      | nil => exact le_refl _
      | cons current rest => exact add_nonneg (stepCount_nonneg _ _) ih

/-- Two runs of readings share the one between them. -/
theorem stepsCount_append (before : List Sample) (shared : Sample) (after : List Sample) :
    stepsCount (before ++ shared :: after) = stepsCount (before ++ [shared]) + stepsCount (shared :: after) := by
  induction before with
  | nil => exact (zero_add _).symm
  | cons first before ih =>
      cases before with
      | nil =>
          show stepCount first shared + stepsCount (shared :: after) =
            stepCount first shared + 0 + stepsCount (shared :: after)
          rw [add_zero]
      | cons second before =>
          show stepCount first second + stepsCount (second :: before ++ shared :: after) =
            stepCount first second + stepsCount (second :: before ++ [shared]) + stepsCount (shared :: after)
          rw [ih, add_assoc]

theorem foldl_counterStep (ordered : List Sample) (sums : ℚ × Nat) :
    ((ordered.zip ordered.tail).foldl counterStep sums).1 = sums.1 + stepsCount ordered := by
  induction ordered generalizing sums with
  | nil => exact (add_zero _).symm
  | cons previous rest ih =>
      cases rest with
      | nil => exact (add_zero _).symm
      | cons current rest =>
          have hstep : (counterStep sums (previous, current)).1 = sums.1 + stepCount previous current := by
            rw [counterStep, stepCount]
            dsimp only
            split
            · rfl
            · rfl
          show (((current :: rest).zip rest).foldl counterStep (counterStep sums (previous, current))).1 = _
          have hrest := ih (counterStep sums (previous, current))
          rw [List.tail_cons] at hrest
          rw [hrest, hstep, add_assoc]
          rfl

theorem total_counterDelta (samples : List Sample) :
    (counterDelta samples).total = stepsCount (orderedSamples samples) := by
  have hfold := foldl_counterStep (orderedSamples samples) (0, 0)
  rw [zero_add] at hfold
  exact hfold

/-! ## The order of the readings -/

theorem sample_total (a b : Sample) : a.le b ∨ b.le a := by
  unfold Sample.le
  rcases lt_trichotomy a.at_ b.at_ with h | h | h
  · exact .inl (.inl h)
  · exact (le_total a.value b.value).imp (fun hs => .inr ⟨h, hs⟩) fun hs => .inr ⟨h.symm, hs⟩
  · exact .inr (.inl h)

theorem sample_trans (a b c : Sample) (hab : a.le b) (hbc : b.le c) : a.le c := by
  unfold Sample.le at *
  rcases hab with hab | hab
  · rcases hbc with hbc | hbc
    · exact .inl (hab.trans hbc)
    · exact .inl (hbc.1 ▸ hab)
  · rcases hbc with hbc | hbc
    · exact .inl (hab.1 ▸ hbc)
    · exact .inr ⟨hab.1.trans hbc.1, hab.2.trans hbc.2⟩

theorem pairwise_orderedSamples (samples : List Sample) : (orderedSamples samples).Pairwise Sample.le := by
  have : Std.Total Sample.le := ⟨sample_total⟩
  have : IsTrans Sample Sample.le := ⟨sample_trans⟩
  exact List.pairwise_insertionSort Sample.le samples

theorem orderedSamples_of_pairwise {ordered : List Sample} (h : ordered.Pairwise Sample.le) :
    orderedSamples ordered = ordered :=
  h.insertionSort_eq

variable {ordered samples : List Sample} {a b c : ℤ}

/-- Readings of one period and a later one. -/
theorem filter_of_before {p q r : ℤ → Bool} (ho : ordered.Pairwise Sample.le) (hor : ∀ t, r t = (p t || q t))
    (hbefore : ∀ s t, p s = true → q t = true → s < t) :
    (ordered.filter fun s => r s.at_) = (ordered.filter fun s => p s.at_) ++ ordered.filter fun s => q s.at_ := by
  induction ordered with
  | nil => rfl
  | cons s rest ih =>
      obtain ⟨hfirst, hrest⟩ := List.pairwise_cons.mp ho
      cases hp : p s.at_ with
      | true =>
          have hq : q s.at_ = false := by
            refine Bool.eq_false_iff.mpr fun hq => ?_
            exact lt_irrefl _ (hbefore _ _ hp hq)
          rw [List.filter_cons_of_pos (by rw [hor, hp]; rfl), List.filter_cons_of_pos (by exact hp),
            List.filter_cons_of_neg (by rw [hq]; decide), ih hrest, List.cons_append]
      | false =>
          cases hq : q s.at_ with
          | true =>
              have hnone : rest.filter (fun s => p s.at_) = [] := by
                refine List.filter_eq_nil_iff.mpr fun s' hs' hp' => ?_
                have hlt := hbefore _ _ hp' hq
                rcases hfirst s' hs' with hle | hle
                · omega
                · omega
              have hrest' := ih hrest
              rw [hnone, List.nil_append] at hrest'
              rw [List.filter_cons_of_pos (by rw [hor, hp, hq]; rfl), List.filter_cons_of_neg (by rw [hp]; decide),
                List.filter_cons_of_pos (by exact hq), hnone, hrest', List.nil_append]
          | false =>
              rw [List.filter_cons_of_neg (by rw [hor, hp, hq]; decide), List.filter_cons_of_neg (by rw [hp]; decide),
                List.filter_cons_of_neg (by rw [hq]; decide), ih hrest]

/-! ## Windows -/

/-- The readings before an instant, at it, and after it up to another one. -/
def readingsBefore (ordered : List Sample) (a : ℤ) : List Sample := ordered.filter fun s => decide (s.at_ < a)

def readingsAt (ordered : List Sample) (a : ℤ) : List Sample := ordered.filter fun s => decide (s.at_ = a)

def readingsAfter (ordered : List Sample) (a b : ℤ) : List Sample :=
  ordered.filter fun s => decide (a < s.at_ ∧ s.at_ ≤ b)

/-- What the counter climbed up to an instant. -/
def climbed (samples : List Sample) (t : ℤ) : ℚ :=
  stepsCount ((orderedSamples samples).filter fun s => decide (s.at_ ≤ t))

theorem filter_window (ho : ordered.Pairwise Sample.le) (hab : a ≤ b) :
    (ordered.filter fun s => decide (a ≤ s.at_ ∧ s.at_ ≤ b)) = readingsAt ordered a ++ readingsAfter ordered a b := by
  refine filter_of_before (p := fun t => decide (t = a)) (q := fun t => decide (a < t ∧ t ≤ b))
    (r := fun t => decide (a ≤ t ∧ t ≤ b)) ho ?_ ?_
  · intro t
    rw [← Bool.decide_or, decide_eq_decide]
    omega
  · intro s t hs ht
    rw [decide_eq_true_eq] at hs ht
    omega

theorem filter_until (ho : ordered.Pairwise Sample.le) (a : ℤ) :
    (ordered.filter fun s => decide (s.at_ ≤ a)) = readingsBefore ordered a ++ readingsAt ordered a := by
  refine filter_of_before (p := fun t => decide (t < a)) (q := fun t => decide (t = a))
    (r := fun t => decide (t ≤ a)) ho ?_ ?_
  · intro t
    rw [← Bool.decide_or, decide_eq_decide]
    omega
  · intro s t hs ht
    rw [decide_eq_true_eq] at hs ht
    omega

theorem filter_until_later (ho : ordered.Pairwise Sample.le) (hab : a ≤ b) :
    (ordered.filter fun s => decide (s.at_ ≤ b)) =
      readingsBefore ordered a ++ readingsAt ordered a ++ readingsAfter ordered a b := by
  rw [← filter_until ho]
  refine filter_of_before (p := fun t => decide (t ≤ a)) (q := fun t => decide (a < t ∧ t ≤ b))
    (r := fun t => decide (t ≤ b)) ho ?_ ?_
  · intro t
    rw [← Bool.decide_or, decide_eq_decide]
    omega
  · intro s t hs ht
    rw [decide_eq_true_eq] at hs ht
    omega

/-- The readings of a window: its own, after the last one before it where none is at its start. -/
theorem counterWindow_eq (ho : ordered.Pairwise Sample.le) (hab : a ≤ b) :
    counterWindow ordered a b =
      if readingsAt ordered a = [] ∧ readingsAfter ordered a b ≠ [] then
        (readingsBefore ordered a).getLast?.toList ++ readingsAfter ordered a b
      else readingsAt ordered a ++ readingsAfter ordered a b := by
  have hinside := filter_window ho hab
  rw [counterWindow, hinside]
  cases hat : readingsAt ordered a with
  | cons first rest =>
      have hfirst : first.at_ = a := by
        have hmem : first ∈ readingsAt ordered a := by
          rw [hat]
          exact List.mem_cons_self
        exact of_decide_eq_true (List.mem_filter.mp hmem).2
      rw [if_neg (by rintro ⟨h, -⟩; cases h), List.cons_append]
      split
      · next heq _ =>
          cases heq
          rw [if_neg (by omega)]
      · rfl
  | nil =>
      rw [List.nil_append]
      cases hafter : readingsAfter ordered a b with
      | nil =>
          rw [if_neg (by rintro ⟨-, h⟩; exact h rfl)]
      | cons first rest =>
          have hfirst : a < first.at_ := by
            have hmem : first ∈ readingsAfter ordered a b := by
              rw [hafter]
              exact List.mem_cons_self
            exact (of_decide_eq_true (List.mem_filter.mp hmem).2).1
          rw [if_pos ⟨rfl, List.cons_ne_nil _ _⟩]
          split
          · next prior heq hprior =>
              cases heq
              have hprior' : (readingsBefore ordered a).getLast? = some prior := hprior
              rw [if_pos hfirst, hprior']
              rfl
          · next hnone =>
              cases hprior : (readingsBefore ordered a).getLast? with
              | none => rfl
              | some prior => exact absurd hprior (hnone first rest prior rfl)

theorem pairwise_counterWindow (ho : ordered.Pairwise Sample.le) (hab : a ≤ b) :
    (counterWindow ordered a b).Pairwise Sample.le := by
  have hall : (readingsBefore ordered a ++ readingsAt ordered a ++ readingsAfter ordered a b).Pairwise Sample.le := by
    rw [← filter_until_later ho hab]
    exact ho.sublist List.filter_sublist
  rw [counterWindow_eq ho hab]
  split
  · next hcase =>
      rw [hcase.1, List.append_nil] at hall
      refine hall.sublist (List.Sublist.append_right ?_ _)
      cases hlast : (readingsBefore ordered a).getLast? with
      | none => exact List.nil_sublist _
      | some prior =>
          rw [Option.toList_some]
          exact List.singleton_sublist.mpr (List.mem_of_getLast? hlast)
  · rw [List.append_assoc] at hall
    exact (List.pairwise_append.mp hall).2.1

theorem total_counterDeltaIn (samples : List Sample) (hab : a ≤ b) :
    (counterDeltaIn samples a b).total = stepsCount (counterWindow (orderedSamples samples) a b) := by
  rw [counterDeltaIn, total_counterDelta,
    orderedSamples_of_pairwise (pairwise_counterWindow (pairwise_orderedSamples samples) hab)]

/-- The count of an instant: the steps of its readings. -/
theorem total_instant (samples : List Sample) (a : ℤ) :
    (counterDeltaIn samples a a).total = stepsCount (readingsAt (orderedSamples samples) a) := by
  have hnone : readingsAfter (orderedSamples samples) a a = [] := by
    refine List.filter_eq_nil_iff.mpr fun s _ hs => ?_
    rw [decide_eq_true_eq] at hs
    omega
  rw [total_counterDeltaIn samples (le_refl a), counterWindow_eq (pairwise_orderedSamples samples) (le_refl a),
    hnone, if_neg (fun h => h.2 rfl), List.append_nil]

/-- The count of a window. -/
theorem total_eq_climbed (samples : List Sample) (hab : a ≤ b) :
    (counterDeltaIn samples a b).total =
      climbed samples b - climbed samples a + (counterDeltaIn samples a a).total := by
  have ho := pairwise_orderedSamples samples
  rw [total_instant, total_counterDeltaIn samples hab, counterWindow_eq ho hab, climbed, climbed,
    filter_until_later ho hab, filter_until ho]
  generalize readingsBefore (orderedSamples samples) a = before
  generalize readingsAfter (orderedSamples samples) a b = after
  rcases List.eq_nil_or_concat (readingsAt (orderedSamples samples) a) with hat | ⟨at_, last, hat⟩
  · rw [hat, List.append_nil]
    by_cases hafter : after = []
    · rw [if_neg (fun h => h.2 hafter), hafter, List.append_nil, List.append_nil, sub_self, zero_add]
    · rw [if_pos ⟨rfl, hafter⟩]
      rcases List.eq_nil_or_concat before with rfl | ⟨front, last, rfl⟩
      · show stepsCount after = stepsCount after - 0 + 0
        rw [sub_zero, add_zero]
      · rw [List.concat_eq_append, List.getLast?_concat, List.append_assoc, List.singleton_append,
          stepsCount_append front last after, add_sub_cancel_left]
        exact (add_zero _).symm
  · rw [List.concat_eq_append] at hat
    rw [hat, if_neg (fun h => List.concat_ne_nil last at_ h.1), List.append_assoc at_, List.singleton_append,
      stepsCount_append at_ last after, ← List.append_assoc before, List.append_assoc (before ++ at_),
      List.singleton_append, stepsCount_append (before ++ at_) last after, add_sub_cancel_left, add_comm]

theorem total_nonneg (samples : List Sample) (a b : ℤ) : 0 ≤ (counterDeltaIn samples a b).total := by
  rw [counterDeltaIn, total_counterDelta]
  exact stepsCount_nonneg _

/-- At the instant of one reading nothing is counted. -/
theorem total_instant_eq_zero (hdistinct : (samples.map Sample.at_).Nodup) (a : ℤ) :
    (counterDeltaIn samples a a).total = 0 := by
  have hnodup : ((orderedSamples samples).map Sample.at_).Nodup :=
    ((List.perm_insertionSort Sample.le samples).map Sample.at_).nodup_iff.mpr hdistinct
  have hsub : ((readingsAt (orderedSamples samples) a).map Sample.at_).Nodup :=
    hnodup.sublist (List.filter_sublist.map _)
  have hmem : ∀ s ∈ readingsAt (orderedSamples samples) a, s.at_ = a :=
    fun s hs => of_decide_eq_true (List.mem_filter.mp hs).2
  rw [total_instant]
  match hlist : readingsAt (orderedSamples samples) a with
  | [] => rfl
  | [_] => rfl
  | first :: second :: rest =>
      rw [hlist] at hsub hmem
      have hsame : first.at_ = second.at_ := by
        rw [hmem first List.mem_cons_self, hmem second (List.mem_cons_of_mem _ List.mem_cons_self)]
      rw [List.map_cons, List.map_cons, hsame] at hsub
      exact absurd List.mem_cons_self (List.nodup_cons.mp hsub).1

/-- The counts of adjacent windows add up, where no two readings share their instant. -/
theorem counter_windows_add {samples : List Sample} (hdistinct : (samples.map Sample.at_).Nodup) {a b c : ℤ}
    (hab : a ≤ b) (hbc : b ≤ c) :
    (counterDeltaIn samples a b).total + (counterDeltaIn samples b c).total = (counterDeltaIn samples a c).total ∧
      0 ≤ (counterDeltaIn samples a c).total := by
  refine ⟨?_, total_nonneg samples a c⟩
  rw [total_eq_climbed samples hab, total_eq_climbed samples hbc, total_eq_climbed samples (hab.trans hbc),
    total_instant_eq_zero hdistinct, total_instant_eq_zero hdistinct]
  ring

/-- A counter that restarts after the common bound, on which a reading lies. -/
theorem counter_windows_add_restart :
    (counterDeltaIn [⟨0, 5⟩, ⟨30, 2⟩, ⟨10, 8⟩, ⟨20, 9⟩] 5 10).total +
        (counterDeltaIn [⟨0, 5⟩, ⟨30, 2⟩, ⟨10, 8⟩, ⟨20, 9⟩] 10 40).total =
      (counterDeltaIn [⟨0, 5⟩, ⟨30, 2⟩, ⟨10, 8⟩, ⟨20, 9⟩] 5 40).total :=
  (counter_windows_add (by decide) (by decide) (by decide)).1

end Uns.Oee
