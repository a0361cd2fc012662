/-
# `Opcua.SpoolTrim` — which rows a trim removes

`trim` says of itself that it deletes the lowest ids.  By rows and by bytes it does; by age
it deletes what was spooled before the cutoff, wherever the clock put it.  Whatever the file
measures, a trim removes a prefix of the ids exactly when each row over the age lies below
the rows within it that the row limit leaves (`trim_lowest_iff`).
-/
import UnifiedNamespace.Opcua.Spool

namespace Uns.Opcua

open Py Lib

/-- What was spooled before this is over the age. -/
def cutoff (config : SpoolConfig) (now : ℚ) : ℚ := now - config.maxAgeHours * 3600

/-- The table is within the row and the age limit, and lost its lowest ids, `dropped` of them. -/
structure TrimsLowest (config : SpoolConfig) (now : ℚ) (before after : SpoolTable) (dropped : Nat) : Prop where
  bounded : (after.rows.length : ℤ) ≤ config.maxRows
  fresh : ∀ r ∈ after.rows, cutoff config now ≤ r.spooledAt
  lowest : ∀ r ∈ before.gone after, ∀ kept ∈ after.rows, r.id < kept.id
  counted : dropped = (before.gone after).length

/-- The rows within the age. -/
def young (config : SpoolConfig) (now : ℚ) (rows : List StoredRow) : List StoredRow :=
  rows.filter fun r => decide (cutoff config now ≤ r.spooledAt)

/-- The rows within the age that the row limit leaves: the newest. -/
def withinRows (config : SpoolConfig) (now : ℚ) (rows : List StoredRow) : List StoredRow :=
  (young config now rows).drop ((young config now rows).length - config.maxRows).toNat

variable {config : SpoolConfig} {now : ℚ} {table : SpoolTable}

/-! ## What each pass leaves -/

theorem rows_trimByAge (config : SpoolConfig) (now : ℚ) (table : SpoolTable) :
    (table.trimByAge config now).1.rows = young config now table.rows := by
  refine List.filter_congr fun r _ => ?_
  change (!decide (r.spooledAt < cutoff config now)) = decide (cutoff config now ≤ r.spooledAt)
  rw [← decide_not, decide_eq_decide]
  exact not_lt

/-- Deleting the oldest is dropping from the front. -/
theorem rows_deleteOldest (table : SpoolTable) (limit : Nat) :
    (table.delete (table.amongOldest limit)).rows = table.rows.drop limit := by
  have hordered := table.ordered
  rw [← List.take_append_drop limit table.rows] at hordered
  obtain ⟨-, -, hbelow⟩ := List.pairwise_append.mp hordered
  change (table.rows.filter fun r => !table.amongOldest limit r) = table.rows.drop limit
  conv_lhs => rw [← List.take_append_drop limit table.rows]
  rw [List.filter_append]
  have hfront : (table.rows.take limit).filter (fun r => !table.amongOldest limit r) = [] := by
    refine List.filter_eq_nil_iff.mpr fun r hr hkept => ?_
    rw [SpoolTable.amongOldest, decide_eq_true (List.mem_map_of_mem hr)] at hkept
    cases hkept
  have hback : (table.rows.drop limit).filter (fun r => !table.amongOldest limit r) = table.rows.drop limit := by
    refine List.filter_eq_self.mpr fun r hr => ?_
    have hnot : r.id ∉ (table.rows.take limit).map StoredRow.id := by
      intro hmem
      obtain ⟨old, hold, heq⟩ := List.mem_map.mp hmem
      exact absurd (hbelow old hold r hr) (heq ▸ Nat.lt_irrefl _)
    rw [SpoolTable.amongOldest, decide_eq_false hnot]
    rfl
  rw [hfront, hback, List.nil_append]

theorem rows_trimByRows (config : SpoolConfig) (table : SpoolTable) :
    (table.trimByRows config).1.rows = table.rows.drop (table.rows.length - config.maxRows).toNat := by
  rw [SpoolTable.trimByRows]
  split
  · next hsmall =>
      rw [Int.toNat_of_nonpos hsmall]
      rfl
  · exact rows_deleteOldest table _

theorem rows_trimByBytes (config : SpoolConfig) (byteSize : Nat → ℤ) (table : SpoolTable) :
    ∃ n, (table.trimByBytes config byteSize).1.rows = table.rows.drop n := by
  induction byteSize, table using SpoolTable.trimByBytes.induct config with
  | case1 byteSize table hlarge hnone =>
      rw [SpoolTable.trimByBytes, if_pos hlarge, if_pos hnone]
      exact ⟨_, rows_deleteOldest table _⟩
  | case2 byteSize table hlarge hsome ih =>
      rw [SpoolTable.trimByBytes, if_pos hlarge, if_neg hsome]
      obtain ⟨n, hn⟩ := ih
      refine ⟨max 1 (table.rows.length / 10) + n, hn.trans ?_⟩
      rw [← List.drop_drop]
      exact congrArg (List.drop n) (rows_deleteOldest table _)
  | case3 byteSize table hsmall =>
      rw [SpoolTable.trimByBytes, if_neg hsmall]
      exact ⟨0, rfl⟩

/-- A trim leaves a part of the rows within the age and the row limit, the newest. -/
theorem rows_trim (config : SpoolConfig) (now : ℚ) (byteSize : Nat → ℤ) (table : SpoolTable) :
    ∃ n, (table.trim config now byteSize).1.rows = (withinRows config now table.rows).drop n := by
  obtain ⟨n, hn⟩ := rows_trimByBytes config byteSize ((table.trimByAge config now).1.trimByRows config).1
  refine ⟨n, hn.trans ?_⟩
  rw [rows_trimByRows, rows_trimByAge]
  rfl

/-- A file that measures small enough loses nothing more. -/
theorem rows_trim_small (config : SpoolConfig) (now : ℚ) (table : SpoolTable) :
    (table.trim config now fun _ => config.maxBytes).1.rows = withinRows config now table.rows := by
  have hsmall : ((table.trimByAge config now).1.trimByRows config).1.trimByBytes config (fun _ => config.maxBytes) =
      (((table.trimByAge config now).1.trimByRows config).1, 0) := by
    rw [SpoolTable.trimByBytes, if_neg fun h => absurd h.1 (lt_irrefl _)]
  rw [SpoolTable.trim]
  dsimp only
  rw [hsmall, rows_trimByRows, rows_trimByAge]
  rfl

/-! ## The lowest ids -/

/-- Each row over the age lies below the rows within it that the row limit leaves. -/
def AgedLowest (config : SpoolConfig) (now : ℚ) (rows : List StoredRow) : Prop :=
  ∀ old ∈ rows, old.spooledAt < cutoff config now → ∀ kept ∈ withinRows config now rows, old.id < kept.id

theorem trimsLowest_of_agedLowest (hmax : 0 ≤ config.maxRows) (haged : AgedLowest config now table.rows)
    (byteSize : Nat → ℤ) : TrimsLowest config now table (table.trim config now byteSize).1
      (table.trim config now byteSize).2 := by
  obtain ⟨n, hn⟩ := rows_trim config now byteSize table
  have hordered : (young config now table.rows).Pairwise fun a b => a.id < b.id :=
    table.ordered.sublist List.filter_sublist
  have hwithin : ∀ r ∈ (table.trim config now byteSize).1.rows, r ∈ withinRows config now table.rows := by
    rw [hn]
    exact fun r hr => List.mem_of_mem_drop hr
  refine ⟨?_, fun r hr => ?_, fun r hr kept hkept => ?_, (length_gone (Trimmed.trim config now byteSize table)).symm⟩
  · rw [hn, List.length_drop, withinRows, List.length_drop]
    omega
  · exact of_decide_eq_true (List.mem_filter.mp (List.mem_of_mem_drop (hwithin r hr))).2
  · obtain ⟨hrow, hgone⟩ := List.mem_filter.mp hr
    have hgone := of_decide_eq_true hgone
    rcases lt_or_ge r.spooledAt (cutoff config now) with hold | hyoung
    · exact haged r hrow hold kept (hwithin kept hkept)
    · -- the rows within the age go from the front
      have hmem : r ∈ young config now table.rows := List.mem_filter.mpr ⟨hrow, decide_eq_true hyoung⟩
      rw [hn, withinRows, List.drop_drop] at hgone hkept
      rw [← List.take_append_drop _ (young config now table.rows)] at hordered hmem
      exact (List.pairwise_append.mp hordered).2.2 r ((List.mem_append.mp hmem).resolve_right hgone) kept hkept

/-- Whatever the file measures, a trim keeps the limits and drops the lowest ids exactly when the row limit is not
negative and the rows over the age lie below those that it leaves. -/
theorem trim_lowest_iff (config : SpoolConfig) (now : ℚ) (table : SpoolTable) :
    (∀ byteSize, TrimsLowest config now table (table.trim config now byteSize).1 (table.trim config now byteSize).2) ↔
      0 ≤ config.maxRows ∧ AgedLowest config now table.rows := by
  constructor
  · intro h
    have hsmall := h fun _ => config.maxBytes
    have hrows := rows_trim_small config now table
    refine ⟨le_trans (Int.natCast_nonneg _) hsmall.bounded, fun old hrow hold kept hkept => ?_⟩
    refine hsmall.lowest old ?_ kept (hrows ▸ hkept)
    refine List.mem_filter.mpr ⟨hrow, decide_eq_true fun hmem => ?_⟩
    exact absurd (hsmall.fresh old hmem) (not_le_of_gt hold)
  · rintro ⟨hmax, haged⟩ byteSize
    exact trimsLowest_of_agedLowest hmax haged byteSize

/-- The clock was set back between the two rows. -/
def setBack : SpoolTable where
  rows := [⟨1, ⟨lit "e/s/a", [49], 1⟩, 1000000⟩, ⟨2, ⟨lit "e/s/b", [50], 1⟩, 0⟩]
  sequence := 2
  ordered := by decide
  given := by decide

/-- The second row is over the age, and is removed while the first stays. -/
theorem set_back_not_lowest : ∃ byteSize,
    ¬ TrimsLowest siteSpool 1000000 setBack (setBack.trim siteSpool 1000000 byteSize).1
      (setBack.trim siteSpool 1000000 byteSize).2 := by
  by_contra hall
  have hlowest := fun byteSize => not_not.mp fun hnot => hall ⟨byteSize, hnot⟩
  have hrows := rows_trim_small siteSpool 1000000 setBack
  have hbelow := (hlowest fun _ => siteSpool.maxBytes).lowest ⟨2, ⟨lit "e/s/b", [50], 1⟩, 0⟩
    (List.mem_filter.mpr ⟨by decide, by rw [hrows]; decide +kernel⟩) ⟨1, ⟨lit "e/s/a", [49], 1⟩, 1000000⟩
    (by rw [hrows]; decide +kernel)
  exact absurd hbelow (by decide)

end Uns.Opcua
