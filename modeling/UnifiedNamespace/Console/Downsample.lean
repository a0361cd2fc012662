/-
# `Console.Downsample` — the points of a long series

`downsample` of `series.ts`.  A series that is short enough is returned as it is; of a long one each
time bucket gives its minimum and its maximum, in the order of their times.  Where all values of
a bucket are equal both are its first sample, so this comes out twice, and a short series is not
sorted (`keepsShape_iff`).

Times and values are finite doubles, as the rationals they are; the bucket of a sample comes from
rounded arithmetic, which keeps the order (`roundMag_mono`).
-/
import UnifiedNamespace.Python.Float

namespace Uns.Console

open Py

/-! ## Rounding keeps the order -/

theorem roundHalfEven_mono {p q : ℚ} (h : p ≤ q) : roundHalfEven p ≤ roundHalfEven q := by
  rcases lt_or_eq_of_le (Int.floor_le_floor h) with hlt | heq
  · have hp := roundHalfEven_le_floor_add_one p
    have hq := floor_le_roundHalfEven q
    omega
  · have hfract : p - ⌊p⌋ ≤ q - ⌊q⌋ := by
      rw [heq]
      linarith
    unfold roundHalfEven
    dsimp only
    rw [heq] at hfract ⊢
    split_ifs <;> first | omega | linarith

theorem ulpExp_mono {p q : ℚ} (hp : 0 < p) (h : p ≤ q) : ulpExp p ≤ ulpExp q := by
  have hlog := Int.log_mono_right (b := 2) hp h
  unfold ulpExp
  omega

/-- Rounding keeps the order. -/
theorem roundMag_mono {p q : ℚ} (hp : 0 ≤ p) (h : p ≤ q) : roundMag p ≤ roundMag q := by
  rcases hp.lt_or_eq with hp | rfl
  · rcases (ulpExp_mono hp h).lt_or_eq with hlt | heq
    · -- a power of two, a double in both scales, is between them
      have hq : (2 : ℚ) ^ (ulpExp q + 52) ≤ q := by
        have hlog : ulpExp q = Int.log 2 q - 52 := by
          unfold ulpExp at hlt ⊢
          omega
        rw [hlog, sub_add_cancel]
        exact Int.zpow_log_le_self (by norm_num) (hp.trans_le h)
      have hp' : p < (2 : ℚ) ^ (ulpExp q + 52) := by
        refine (lt_two_zpow_ulpExp p).trans_le (zpow_le_zpow_right₀ (by norm_num) ?_)
        omega
      refine le_trans (b := (2 : ℚ) ^ (ulpExp q + 52)) ?_ ?_
      · obtain ⟨k, hk⟩ := Int.eq_ofNat_of_zero_le (by omega : 0 ≤ ulpExp q + 52 - ulpExp p)
        have hsplit : (2 : ℚ) ^ (ulpExp q + 52) = ((2 ^ k : ℤ) : ℚ) * (2 : ℚ) ^ ulpExp p := by
          push_cast
          rw [← zpow_natCast, ← zpow_add₀ (by norm_num), ← hk, sub_add_cancel]
        rw [hsplit] at hp' ⊢
        refine mul_le_mul_of_nonneg_right ?_ (two_zpow_pos _).le
        exact_mod_cast roundHalfEven_le_of_lt ((div_lt_iff₀ (two_zpow_pos _)).mpr hp')
      · rw [zpow_add₀ (by norm_num), mul_comm, roundMag]
        refine mul_le_mul_of_nonneg_right ?_ (two_zpow_pos _).le
        have hfloor : (2 ^ 52 : ℤ) ≤ ⌊q / (2 : ℚ) ^ ulpExp q⌋ := by
          rw [Int.le_floor, le_div_iff₀ (two_zpow_pos _), mul_comm]
          rw [zpow_add₀ (by norm_num)] at hq
          exact_mod_cast hq
        exact_mod_cast hfloor.trans (floor_le_roundHalfEven _)
    · rw [roundMag, roundMag, heq]
      refine mul_le_mul_of_nonneg_right ?_ (two_zpow_pos _).le
      exact_mod_cast roundHalfEven_mono (div_le_div_of_nonneg_right h (two_zpow_pos _).le)
  · have hzero : roundMag 0 = 0 := by
      have h0 : roundHalfEven 0 = 0 := by exact_mod_cast roundHalfEven_intCast 0
      simp [roundMag, h0]
    rw [hzero]
    exact roundMag_nonneg h

/-! ## `downsample` -/

structure Sample where
  t : ℚ
  v : ℚ
  quality : Option Str
  boolean : Bool
  deriving DecidableEq

/-- `[...samples].sort((a, b) => a.t - b.t)`. -/
def byTime (samples : List Sample) : List Sample := samples.mergeSort fun a b => decide (a.t ≤ b.t)

/-- `Math.min(bucketCount - 1, Math.floor(((t - start) / span) * bucketCount))`. -/
def bucketIndex (bucketCount : Nat) (start span t : ℚ) : Nat :=
  min (bucketCount - 1) ⌊roundMag (roundMag (roundMag (t - start) / span) * bucketCount)⌋.toNat

/-- `Math.max(1, last - start)`. -/
def spanOf (start last : ℚ) : ℚ := max 1 (roundMag (last - start))

/-- The samples by bucket, in their order. -/
def fillBuckets (bucketCount : Nat) (index : ℚ → Nat) (ordered : List Sample) : List (List Sample) :=
  (List.range bucketCount).map fun i => ordered.filter fun s => decide (index s.t = i)

/-- The points of a bucket. -/
def extremes : List Sample → List Sample
  | [] => []
  | first :: rest =>
      let min := rest.foldl (fun a b => if a.v ≤ b.v then a else b) first
      let max := rest.foldl (fun a b => if a.v ≥ b.v then a else b) first
      if min.t ≤ max.t then [min, max] else [max, min]

/-- `Math.floor(maxPoints / 2)`. -/
def bucketCountOf (maxPoints : ℚ) : Nat := ⌊maxPoints / 2⌋.toNat

/-- The bucket of a time in a series. -/
def bucketOf (samples : List Sample) (maxPoints : ℚ) (t : ℚ) : Nat :=
  match byTime samples with
  | [] => 0
  | first :: rest =>
      bucketIndex (bucketCountOf maxPoints) first.t (spanOf first.t ((first :: rest).getLastD first).t) t

def bucketsOf (samples : List Sample) (maxPoints : ℚ) : List (List Sample) :=
  fillBuckets (bucketCountOf maxPoints) (bucketOf samples maxPoints) (byTime samples)

def downsample (samples : List Sample) (maxPoints : ℚ) : List Sample :=
  if (samples.length : ℚ) ≤ maxPoints then samples
  else ((bucketsOf samples maxPoints).flatMap extremes).take ⌊maxPoints⌋.toNat

/-! ## The buckets -/

section Pick

variable {R : Sample → Sample → Prop} [DecidableRel R]

/-- `reduce` by a total preorder finds an element that is related to all. -/
theorem foldl_pick (htotal : ∀ a b, R a b ∨ R b a) (htrans : ∀ a b c, R a b → R b c → R a c) (first : Sample)
    (rest : List Sample) :
    rest.foldl (fun a b => if R a b then a else b) first ∈ first :: rest ∧
      ∀ r ∈ first :: rest, R (rest.foldl (fun a b => if R a b then a else b) first) r := by
  induction rest generalizing first with
  | nil => exact ⟨List.mem_cons_self, List.forall_mem_singleton.mpr ((htotal first first).elim id id)⟩
  | cons second rest ih =>
      rw [List.foldl_cons]
      by_cases h : R first second
      · rw [if_pos h]
        obtain ⟨hmem, hall⟩ := ih first
        obtain ⟨hfirst, hrest⟩ := List.forall_mem_cons.mp hall
        refine ⟨?_, List.forall_mem_cons.mpr ⟨hfirst, List.forall_mem_cons.mpr ⟨htrans _ _ _ hfirst h, hrest⟩⟩⟩
        rcases List.mem_cons.mp hmem with heq | hmem
        · rw [heq]
          exact List.mem_cons_self
        · exact List.mem_cons_of_mem _ (List.mem_cons_of_mem _ hmem)
      · rw [if_neg h]
        obtain ⟨hmem, hall⟩ := ih second
        exact ⟨List.mem_cons_of_mem _ hmem, List.forall_mem_cons.mpr
          ⟨htrans _ _ _ (List.forall_mem_cons.mp hall).1 ((htotal first second).resolve_left h), hall⟩⟩

/-- The first of equals is picked. -/
theorem foldl_pick_first {first : Sample} {rest : List Sample} (h : ∀ r ∈ rest, R first r) :
    rest.foldl (fun a b => if R a b then a else b) first = first := by
  induction rest with
  | nil => rfl
  | cons second rest ih =>
      obtain ⟨hsecond, hrest⟩ := List.forall_mem_cons.mp h
      rw [List.foldl_cons, if_pos hsecond]
      exact ih hrest

end Pick

/-- The points of a bucket are a minimum and a maximum of it, in the order of time; where all values
are equal, both are the first. -/
theorem extremes_spec (first : Sample) (rest : List Sample) :
    ∃ low ∈ first :: rest, ∃ high ∈ first :: rest, (extremes (first :: rest)).Perm [low, high] ∧
      (extremes (first :: rest)).Pairwise (fun a b => a.t ≤ b.t) ∧
      (∀ r ∈ first :: rest, low.v ≤ r.v ∧ r.v ≤ high.v) ∧
      ((∀ r ∈ rest, r.v = first.v) → low = first ∧ high = first) := by
  obtain ⟨hlow, hleast⟩ := foldl_pick (R := fun a b => a.v ≤ b.v) (fun a b => le_total _ _)
    (fun a b c => le_trans) first rest
  obtain ⟨hhigh, hgreatest⟩ := foldl_pick (R := fun a b => a.v ≥ b.v) (fun a b => le_total _ _)
    (fun a b c hab hbc => le_trans hbc hab) first rest
  refine ⟨_, hlow, _, hhigh, ?_, ?_, fun r hr => ⟨hleast r hr, hgreatest r hr⟩, fun heq => ⟨?_, ?_⟩⟩
  · rw [extremes]
    split
    · exact List.Perm.refl _
    · exact List.Perm.swap _ _ _
  · rw [extremes]
    split
    · rename_i h
      exact List.pairwise_pair.mpr h
    · rename_i h
      exact List.pairwise_pair.mpr (le_of_not_ge h)
  · exact foldl_pick_first fun r hr => (heq r hr).ge
  · exact foldl_pick_first fun r hr => (heq r hr).le

theorem length_extremes_le (bucket : List Sample) : (extremes bucket).length ≤ 2 := by
  cases bucket with
  | nil => exact Nat.zero_le 2
  | cons first rest =>
      obtain ⟨low, -, high, -, hperm, -⟩ := extremes_spec first rest
      rw [hperm.length_eq]
      rfl

theorem mem_of_mem_extremes {bucket : List Sample} {s : Sample} (h : s ∈ extremes bucket) : s ∈ bucket := by
  cases bucket with
  | nil => cases h
  | cons first rest =>
      obtain ⟨low, hlow, high, hhigh, hperm, -⟩ := extremes_spec first rest
      rcases List.mem_pair.mp (hperm.mem_iff.mp h) with rfl | rfl
      · exact hlow
      · exact hhigh

theorem bucketIndex_lt {bucketCount : Nat} (h : 0 < bucketCount) (start span t : ℚ) :
    bucketIndex bucketCount start span t < bucketCount := by
  have hle := Nat.min_le_left (bucketCount - 1)
    ⌊roundMag (roundMag (roundMag (t - start) / span) * bucketCount)⌋.toNat
  rw [bucketIndex]
  omega

theorem bucketIndex_mono (bucketCount : Nat) {start span t u : ℚ} (hspan : 0 ≤ span) (ht : start ≤ t) (h : t ≤ u) :
    bucketIndex bucketCount start span t ≤ bucketIndex bucketCount start span u := by
  have hdiff : 0 ≤ t - start := sub_nonneg.mpr ht
  have hrounded : roundMag (t - start) ≤ roundMag (u - start) := roundMag_mono hdiff (by linarith)
  have hquotient : roundMag (roundMag (t - start) / span) ≤ roundMag (roundMag (u - start) / span) :=
    roundMag_mono (div_nonneg (roundMag_nonneg hdiff) hspan) (div_le_div_of_nonneg_right hrounded hspan)
  have hnonneg : 0 ≤ roundMag (roundMag (t - start) / span) :=
    roundMag_nonneg (div_nonneg (roundMag_nonneg hdiff) hspan)
  have hproduct := roundMag_mono (mul_nonneg hnonneg (Nat.cast_nonneg bucketCount))
    (mul_le_mul_of_nonneg_right hquotient (Nat.cast_nonneg bucketCount))
  exact min_le_min le_rfl (Int.toNat_le_toNat (Int.floor_le_floor hproduct))

section Series

variable {samples : List Sample} {maxPoints : ℚ}

theorem byTime_perm (samples : List Sample) : (byTime samples).Perm samples := List.mergeSort_perm _ _

theorem byTime_sorted (samples : List Sample) : (byTime samples).Pairwise fun a b => a.t ≤ b.t := by
  refine (List.pairwise_mergeSort ?_ ?_ samples).imp fun h => of_decide_eq_true h
  · intro a b c hab hbc
    exact decide_eq_true ((of_decide_eq_true hab).trans (of_decide_eq_true hbc))
  · intro a b
    rw [Bool.or_eq_true, decide_eq_true_iff, decide_eq_true_iff]
    exact le_total _ _

theorem bucketCountOf_pos (h : 2 ≤ maxPoints) : 0 < bucketCountOf maxPoints := by
  have hone : 1 ≤ ⌊maxPoints / 2⌋ := by
    rw [Int.le_floor]
    push_cast
    linarith
  rw [bucketCountOf]
  omega

theorem bucketOf_lt (h : 2 ≤ maxPoints) (t : ℚ) : bucketOf samples maxPoints t < bucketCountOf maxPoints := by
  rw [bucketOf]
  split
  · exact bucketCountOf_pos h
  · exact bucketIndex_lt (bucketCountOf_pos h) _ _ _

/-- An earlier sample is in no later bucket. -/
theorem bucketOf_mono {s r : Sample} (hs : s ∈ samples) (h : s.t ≤ r.t) :
    bucketOf samples maxPoints s.t ≤ bucketOf samples maxPoints r.t := by
  rw [bucketOf, bucketOf]
  cases hordered : byTime samples with
  | nil => exact le_rfl
  | cons first rest =>
      have hmem : s ∈ first :: rest := hordered ▸ (byTime_perm samples).mem_iff.mpr hs
      have hfirst : first.t ≤ s.t := by
        rcases List.mem_cons.mp hmem with rfl | hmem
        · exact le_rfl
        · have hsorted : (first :: rest).Pairwise fun a b => a.t ≤ b.t := hordered ▸ byTime_sorted samples
          exact (List.pairwise_cons.mp hsorted).1 s hmem
      exact bucketIndex_mono _ (zero_le_one.trans (le_max_left _ _)) hfirst h

/-- The samples of one bucket. -/
def bucketAt (samples : List Sample) (maxPoints : ℚ) (i : Nat) : List Sample :=
  (byTime samples).filter fun s => decide (bucketOf samples maxPoints s.t = i)

theorem bucketsOf_eq : bucketsOf samples maxPoints =
    (List.range (bucketCountOf maxPoints)).map (bucketAt samples maxPoints) := rfl

theorem mem_bucketAt {i : Nat} {s : Sample} :
    s ∈ bucketAt samples maxPoints i ↔ s ∈ samples ∧ bucketOf samples maxPoints s.t = i := by
  rw [bucketAt, List.mem_filter, (byTime_perm samples).mem_iff, decide_eq_true_iff]

theorem count_bucketAt (s : Sample) :
    (bucketAt samples maxPoints (bucketOf samples maxPoints s.t)).count s = samples.count s := by
  rw [bucketAt, List.count_filter (by exact decide_eq_true rfl), (byTime_perm samples).count_eq]

/-- The points before the cut. -/
def points (samples : List Sample) (maxPoints : ℚ) : List Sample := (bucketsOf samples maxPoints).flatMap extremes

theorem count_points (h : 2 ≤ maxPoints) (s : Sample) : (points samples maxPoints).count s =
    (extremes (bucketAt samples maxPoints (bucketOf samples maxPoints s.t))).count s := by
  have hother : ∀ i, i ≠ bucketOf samples maxPoints s.t → (extremes (bucketAt samples maxPoints i)).count s = 0 :=
    fun i hi => List.count_eq_zero.mpr fun hmem => hi (mem_bucketAt.mp (mem_of_mem_extremes hmem)).2.symm
  rw [points, bucketsOf_eq, List.flatMap_map, List.count_flatMap]
  have hsum : ∀ n, ((List.range n).map fun i => (extremes (bucketAt samples maxPoints i)).count s).sum =
      if bucketOf samples maxPoints s.t < n then
        (extremes (bucketAt samples maxPoints (bucketOf samples maxPoints s.t))).count s else 0 := by
    intro n
    induction n with
    | zero => rfl
    | succ n ih =>
        rw [List.range_succ, List.map_append, List.sum_append, ih, List.map_singleton, List.sum_singleton]
        by_cases heq : n = bucketOf samples maxPoints s.t
        · subst heq
          rw [if_neg (lt_irrefl _), if_pos (Nat.lt_succ_self _), Nat.zero_add]
        · rw [hother n heq, Nat.add_zero]
          exact if_congr (by omega) rfl rfl
  exact (hsum _).trans (if_pos (bucketOf_lt h _))

theorem points_sorted : (points samples maxPoints).Pairwise fun a b => a.t ≤ b.t := by
  rw [points, bucketsOf_eq, List.flatMap_map, List.pairwise_flatMap]
  constructor
  · intro i _
    cases hbucket : bucketAt samples maxPoints i with
    | nil => exact List.Pairwise.nil
    | cons first rest => exact (extremes_spec first rest).choose_spec.2.choose_spec.2.2.1
  · refine List.pairwise_lt_range.imp fun {i j} hij a ha b hb => ?_
    obtain ⟨-, hai⟩ := mem_bucketAt.mp (mem_of_mem_extremes ha)
    obtain ⟨hbmem, hbj⟩ := mem_bucketAt.mp (mem_of_mem_extremes hb)
    by_contra hlt
    have hle : bucketOf samples maxPoints b.t ≤ bucketOf samples maxPoints a.t :=
      bucketOf_mono hbmem (le_of_not_ge hlt)
    omega

theorem length_points_le : (points samples maxPoints).length ≤ ⌊maxPoints⌋.toNat := by
  have hlen : (points samples maxPoints).length ≤ 2 * bucketCountOf maxPoints := by
    rw [points, bucketsOf_eq, List.flatMap_map, List.length_flatMap]
    refine (List.sum_le_card_nsmul _ 2 fun n hn => ?_).trans (by simp [mul_comm])
    obtain ⟨i, -, rfl⟩ := List.mem_map.mp hn
    exact length_extremes_le _
  have htwice : 2 * ⌊maxPoints / 2⌋ ≤ ⌊maxPoints⌋ := by
    rw [Int.le_floor]
    have hfloor := Int.floor_le (maxPoints / 2)
    push_cast
    linarith
  rw [bucketCountOf] at hlen
  omega

theorem downsample_long (h : ¬ (samples.length : ℚ) ≤ maxPoints) : downsample samples maxPoints =
    points samples maxPoints := by
  rw [downsample, if_neg h]
  exact List.take_of_length_le length_points_le

/-! ## The law -/

/-- At most `maxPoints` samples of the series in the order of time, with its extremes and those of
each bucket. -/
structure KeepsShape (samples out : List Sample) (maxPoints : ℚ) : Prop where
  length : (out.length : ℚ) ≤ maxPoints
  sorted : out.Pairwise fun a b => a.t ≤ b.t
  count : ∀ s, out.count s ≤ samples.count s
  overall : samples ≠ [] → ∃ low ∈ out, ∃ high ∈ out, ∀ r ∈ samples, low.v ≤ r.v ∧ r.v ≤ high.v
  bucket : ∀ s ∈ samples, ∃ low ∈ out, ∃ high ∈ out,
    bucketOf samples maxPoints low.t = bucketOf samples maxPoints s.t ∧
    bucketOf samples maxPoints high.t = bucketOf samples maxPoints s.t ∧
    ∀ r ∈ samples, bucketOf samples maxPoints r.t = bucketOf samples maxPoints s.t → low.v ≤ r.v ∧ r.v ≤ high.v

/-- A short series is sorted; in a long one, a bucket of one value has its first sample twice. -/
def ShapeKept (samples : List Sample) (maxPoints : ℚ) : Prop :=
  if (samples.length : ℚ) ≤ maxPoints then samples.Pairwise fun a b => a.t ≤ b.t
  else ∀ bucket ∈ bucketsOf samples maxPoints, ∀ first ∈ bucket.head?, (∀ s ∈ bucket, s.v = first.v) →
    2 ≤ samples.count first

/-- A least and a greatest value. -/
theorem exists_extremes {l : List Sample} (h : l ≠ []) :
    ∃ low ∈ l, ∃ high ∈ l, ∀ r ∈ l, low.v ≤ r.v ∧ r.v ≤ high.v := by
  obtain ⟨first, rest, rfl⟩ := List.exists_cons_of_ne_nil h
  obtain ⟨low, hlow, high, hhigh, -, -, hall, -⟩ := extremes_spec first rest
  exact ⟨low, hlow, high, hhigh, hall⟩

theorem keepsShape_self (h : (samples.length : ℚ) ≤ maxPoints) (hsorted : samples.Pairwise fun a b => a.t ≤ b.t) :
    KeepsShape samples samples maxPoints where
  length := h
  sorted := hsorted
  count _ := le_rfl
  overall hne := exists_extremes hne
  bucket s hs := by
    obtain ⟨low, hlow, high, hhigh, hall⟩ := exists_extremes (l := bucketAt samples maxPoints (bucketOf samples maxPoints s.t))
      (List.ne_nil_of_mem (mem_bucketAt.mpr ⟨hs, rfl⟩))
    obtain ⟨hlow, hlowbucket⟩ := mem_bucketAt.mp hlow
    obtain ⟨hhigh, hhighbucket⟩ := mem_bucketAt.mp hhigh
    exact ⟨low, hlow, high, hhigh, hlowbucket, hhighbucket, fun r hr hrbucket => hall r (mem_bucketAt.mpr ⟨hr, hrbucket⟩)⟩

theorem extremes_subset_points (h : 2 ≤ maxPoints) {t : ℚ} {p : Sample}
    (hp : p ∈ extremes (bucketAt samples maxPoints (bucketOf samples maxPoints t))) : p ∈ points samples maxPoints := by
  rw [points, bucketsOf_eq, List.flatMap_map]
  exact List.mem_flatMap.mpr ⟨_, List.mem_range.mpr (bucketOf_lt h t), hp⟩

/-- The points of a bucket are its extremes. -/
theorem points_bucket (h : 2 ≤ maxPoints) {s : Sample} (hs : s ∈ samples) :
    ∃ low ∈ points samples maxPoints, ∃ high ∈ points samples maxPoints,
      bucketOf samples maxPoints low.t = bucketOf samples maxPoints s.t ∧
      bucketOf samples maxPoints high.t = bucketOf samples maxPoints s.t ∧
      ∀ r ∈ samples, bucketOf samples maxPoints r.t = bucketOf samples maxPoints s.t → low.v ≤ r.v ∧ r.v ≤ high.v := by
  have hmem : s ∈ bucketAt samples maxPoints (bucketOf samples maxPoints s.t) := mem_bucketAt.mpr ⟨hs, rfl⟩
  obtain ⟨first, rest, hbucket⟩ := List.exists_cons_of_ne_nil (List.ne_nil_of_mem hmem)
  obtain ⟨low, hlow, high, hhigh, hperm, -, hall, -⟩ := extremes_spec first rest
  rw [← hbucket] at hlow hhigh hperm hall
  refine ⟨low, extremes_subset_points h (hperm.mem_iff.mpr List.mem_cons_self), high,
    extremes_subset_points h (hperm.mem_iff.mpr (List.mem_cons_of_mem _ List.mem_cons_self)),
    (mem_bucketAt.mp hlow).2, (mem_bucketAt.mp hhigh).2, fun r hr hrbucket => hall r (mem_bucketAt.mpr ⟨hr, hrbucket⟩)⟩

theorem points_overall (h : 2 ≤ maxPoints) (hne : samples ≠ []) :
    ∃ low ∈ points samples maxPoints, ∃ high ∈ points samples maxPoints, ∀ r ∈ samples, low.v ≤ r.v ∧ r.v ≤ high.v := by
  obtain ⟨least, hleast, greatest, hgreatest, hall⟩ := exists_extremes hne
  obtain ⟨low, hlow, _, _, -, -, hlowest⟩ := points_bucket h hleast
  obtain ⟨_, _, high, hhigh, -, -, hhighest⟩ := points_bucket h hgreatest
  exact ⟨low, hlow, high, hhigh, fun r hr =>
    ⟨(hlowest least hleast rfl).1.trans (hall r hr).1, (hall r hr).2.trans (hhighest greatest hgreatest rfl).2⟩⟩

/-- The points are as often in the series as they come out exactly when no bucket of one value has its
first sample once. -/
theorem count_points_le_iff (h : 2 ≤ maxPoints) : (∀ s, (points samples maxPoints).count s ≤ samples.count s) ↔
    ∀ bucket ∈ bucketsOf samples maxPoints, ∀ first ∈ bucket.head?, (∀ s ∈ bucket, s.v = first.v) →
      2 ≤ samples.count first := by
  constructor
  · intro hcount bucket hbucket first hfirst hequal
    obtain ⟨i, -, rfl⟩ := List.mem_map.mp (bucketsOf_eq ▸ hbucket)
    obtain ⟨rest, hrest⟩ : ∃ rest, bucketAt samples maxPoints i = first :: rest := List.head?_eq_some_iff.mp hfirst
    have hindex : bucketOf samples maxPoints first.t = i := (mem_bucketAt.mp (hrest ▸ List.mem_cons_self)).2
    obtain ⟨low, -, high, -, hperm, -, -, hsame⟩ := extremes_spec first rest
    obtain ⟨hlow, hhigh⟩ := hsame fun r hr => hequal r (hrest ▸ List.mem_cons_of_mem _ hr)
    have htwice := hcount first
    rw [count_points h, hindex, hrest, hperm.count_eq, hlow, hhigh] at htwice
    simpa using htwice
  · intro hbuckets s
    rw [count_points h]
    by_cases hs : s ∈ extremes (bucketAt samples maxPoints (bucketOf samples maxPoints s.t))
    · have hmem := mem_of_mem_extremes hs
      have hpos : 0 < samples.count s := List.count_pos_iff.mpr (mem_bucketAt.mp hmem).1
      obtain ⟨first, rest, hbucket⟩ := List.exists_cons_of_ne_nil (List.ne_nil_of_mem hmem)
      obtain ⟨low, -, high, -, hperm, -, hall, hsame⟩ := extremes_spec first rest
      rw [hbucket, hperm.count_eq]
      by_cases hequal : ∀ r ∈ rest, r.v = first.v
      · -- all values are equal, so the points are the first sample twice
        obtain ⟨hlow, hhigh⟩ := hsame hequal
        rw [hlow, hhigh] at hperm ⊢
        have hfirst : s = first := by
          rw [hbucket, hperm.mem_iff] at hs
          simpa using hs
        have htwo := hbuckets _ (bucketsOf_eq ▸ List.mem_map_of_mem (List.mem_range.mpr (bucketOf_lt h s.t))) first
          (by rw [hbucket]; rfl) (by rw [hbucket]; exact List.forall_mem_cons.mpr ⟨rfl, hequal⟩)
        rw [hfirst]
        simpa using htwo
      · have hne : low ≠ high := by
          rintro rfl
          refine hequal fun r hr => ?_
          obtain ⟨hfirst, hrest⟩ := List.forall_mem_cons.mp hall
          exact le_antisymm ((hrest r hr).2.trans hfirst.1) (hfirst.2.trans (hrest r hr).1)
        have hone := List.nodup_iff_count_le_one.mp (List.nodup_cons.mpr
          ⟨fun hm => hne (List.mem_singleton.mp hm), List.nodup_singleton high⟩ : [low, high].Nodup) s
        omega
    · rw [List.count_eq_zero.mpr hs]
      exact Nat.zero_le _

/-- The shape is kept exactly when a short series is sorted and a long one has no sample that is alone
with its value in a bucket. -/
theorem keepsShape_iff (samples : List Sample) {maxPoints : ℚ} (h : 2 ≤ maxPoints) :
    KeepsShape samples (downsample samples maxPoints) maxPoints ↔ ShapeKept samples maxPoints := by
  rw [ShapeKept]
  by_cases hshort : (samples.length : ℚ) ≤ maxPoints
  · rw [if_pos hshort, downsample, if_pos hshort]
    exact ⟨fun hkeeps => hkeeps.sorted, keepsShape_self hshort⟩
  · rw [if_neg hshort, downsample_long hshort, ← count_points_le_iff h]
    refine ⟨fun hkeeps => hkeeps.count, fun hcount => ⟨?_, points_sorted, hcount, points_overall h, fun s hs => points_bucket h hs⟩⟩
    have hle : ((points samples maxPoints).length : ℤ) ≤ ⌊maxPoints⌋ := by
      have hlen : (points samples maxPoints).length ≤ ⌊maxPoints⌋.toNat := length_points_le
      have hfloor : 0 ≤ ⌊maxPoints⌋ := Int.floor_nonneg.mpr (by linarith)
      omega
    exact_mod_cast Int.le_floor.mp hle

end Series

/-! ## One bucket -/

def sampleAt (t v : ℚ) : Sample := ⟨t, v, none, false⟩

/-- For two points there is one bucket. -/
theorem bucketOf_two (samples : List Sample) (t : ℚ) : bucketOf samples 2 t = 0 := by
  have hlt : bucketOf samples 2 t < bucketCountOf 2 := bucketOf_lt (le_refl (2 : ℚ)) t
  have hone : bucketCountOf 2 = 1 := by norm_num [bucketCountOf]
  omega

theorem mem_bucketsOf_two {samples bucket : List Sample} (h : bucket ∈ bucketsOf samples 2) {s : Sample} :
    s ∈ bucket ↔ s ∈ samples := by
  obtain ⟨i, hi, rfl⟩ := List.mem_map.mp (bucketsOf_eq ▸ h)
  have hone : bucketCountOf 2 = 1 := by norm_num [bucketCountOf]
  rw [List.mem_range, hone, Nat.lt_one_iff] at hi
  rw [mem_bucketAt, hi]
  exact and_iff_left (bucketOf_two samples s.t)

/-- Three samples of different values. -/
theorem three_values_keep : KeepsShape [sampleAt 0 1, sampleAt 1 2, sampleAt 2 0]
    (downsample [sampleAt 0 1, sampleAt 1 2, sampleAt 2 0] 2) 2 := by
  refine (keepsShape_iff _ le_rfl).mpr ?_
  rw [ShapeKept, if_neg (by norm_num)]
  intro bucket hbucket first _ hequal
  have hone := hequal (sampleAt 0 1) ((mem_bucketsOf_two hbucket).mpr (by simp))
  have htwo := hequal (sampleAt 1 2) ((mem_bucketsOf_two hbucket).mpr (by simp))
  have habsurd : (1 : ℚ) = 2 := hone.trans htwo.symm
  norm_num at habsurd

/-- Three equal values: the first sample comes out twice. -/
theorem flat_series_doubled : ¬ ∀ (samples : List Sample) (maxPoints : ℚ), 2 ≤ maxPoints →
    KeepsShape samples (downsample samples maxPoints) maxPoints := by
  intro h
  have hlong : ¬ (([sampleAt 0 5, sampleAt 1 5, sampleAt 2 5].length : ℕ) : ℚ) ≤ 2 := by norm_num
  have hcount := (h [sampleAt 0 5, sampleAt 1 5, sampleAt 2 5] 2 le_rfl).count
  rw [downsample_long hlong, count_points_le_iff le_rfl] at hcount
  have hbucket : bucketAt [sampleAt 0 5, sampleAt 1 5, sampleAt 2 5] 2 0 ∈
      bucketsOf [sampleAt 0 5, sampleAt 1 5, sampleAt 2 5] 2 := by
    refine bucketsOf_eq ▸ List.mem_map_of_mem (List.mem_range.mpr (bucketCountOf_pos le_rfl))
  have hmem : sampleAt 0 5 ∈ bucketAt [sampleAt 0 5, sampleAt 1 5, sampleAt 2 5] 2 0 :=
    (mem_bucketsOf_two hbucket).mpr List.mem_cons_self
  obtain ⟨first, rest, hcons⟩ := List.exists_cons_of_ne_nil (List.ne_nil_of_mem hmem)
  have hall : ∀ s ∈ [sampleAt 0 5, sampleAt 1 5, sampleAt 2 5],
      s.v = 5 ∧ [sampleAt 0 5, sampleAt 1 5, sampleAt 2 5].count s = 1 := by decide +kernel
  have hfirst := hall first ((mem_bucketsOf_two hbucket).mp (hcons ▸ List.mem_cons_self))
  have htwo := hcount _ hbucket first (by rw [hcons]; rfl) fun s hs =>
    ((hall s ((mem_bucketsOf_two hbucket).mp hs)).1).trans hfirst.1.symm
  rw [hfirst.2] at htwo
  exact absurd htwo (by decide)

end Uns.Console
