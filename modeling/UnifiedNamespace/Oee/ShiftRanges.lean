/-
# `Oee.ShiftRanges` — the shifts of a range

`shift_windows` walks over a few local dates and keeps the windows that start in the range.
The dates are enough: a window that starts in the range begins, on the wall clock, within a
day of the clock's own times at the two ends (`mem_localDays`).  So the windows of a range
are those of all days (`shiftWindows_perm`), and the windows of two adjacent ranges are those
of the whole (`shift_windows_compose`).
-/
import UnifiedNamespace.Python.ZoneInfo
import UnifiedNamespace.Oee.ShiftCalendar

namespace Uns.Oee

open Py

/-- What the calendar asks of a zone. -/
def zoneOf (info : ZoneInfo) : Zone := ⟨info.toLocal, info.toUtc⟩

/-- A `start_time` is a time of day. -/
def WallTimes (schedule : ShiftSchedule) : Prop :=
  ∀ slot ∈ schedule.slots, 0 ≤ slot.startTime ∧ slot.startTime < days 1

/-- The wall-clock time at which a slot begins and ends on a day. -/
def wallStart (day : ℤ) (slot : ShiftSlot) : ℤ := days day + slot.startTime

def wallEnd (day : ℤ) (slot : ShiftSlot) : ℤ := wallStart day slot + minutes slot.durationMinutes

variable {info : ZoneInfo} {slot : ShiftSlot} {day a b c : ℤ}

/-! ## Days -/

theorem resolveLocal_split (zone : Zone) (wall : ℤ) : resolveLocal zone (dayOf wall) (wall % days 1) = zone.toUtc wall := by
  have hsplit : days (dayOf wall) + wall % days 1 = wall := by
    unfold days dayOf days
    omega
  rw [resolveLocal, hsplit]

theorem slotWindow_eq (info : ZoneInfo) (day : ℤ) (slot : ShiftSlot) :
    slotWindow (zoneOf info) day slot =
      ⟨info.toUtc (wallStart day slot), info.toUtc (wallEnd day slot), slot.label⟩ := by
  rw [slotWindow, resolveLocal_split, resolveLocal_split]
  rfl

theorem dayOf_wallStart (h : 0 ≤ slot.startTime ∧ slot.startTime < days 1) : dayOf (wallStart day slot) = day := by
  unfold dayOf wallStart
  unfold days at *
  omega

theorem localDays_eq (zone : Zone) (a b : ℤ) : localDays zone a b =
    (List.range (dayOf (zone.toLocal b + days 1) - dayOf (zone.toLocal a - days 1) + 1).toNat).map fun n : ℕ =>
      dayOf (zone.toLocal a - days 1) + (n : ℤ) := by
  simp only [localDays, List.bind_eq_flatMap, List.pure_def, List.map_flatMap, List.map_cons, List.map_nil]
  exact List.flatMap_pure_eq_map _ _

theorem nodup_localDays (zone : Zone) (a b : ℤ) : (localDays zone a b).Nodup := by
  rw [localDays_eq]
  refine List.Nodup.map ?_ List.nodup_range
  intro n m hnm
  have hcast : (n : ℤ) = m := add_left_cancel hnm
  exact_mod_cast hcast

theorem mem_localDays_iff {zone : Zone} : day ∈ localDays zone a b ↔
    dayOf (zone.toLocal a - days 1) ≤ day ∧ day ≤ dayOf (zone.toLocal b + days 1) := by
  rw [localDays_eq, List.mem_map]
  constructor
  · rintro ⟨n, hn, rfl⟩
    rw [List.mem_range] at hn
    omega
  · rintro ⟨hfirst, hlast⟩
    exact ⟨(day - dayOf (zone.toLocal a - days 1)).toNat, List.mem_range.mpr (by omega), by omega⟩

/-- The walk reaches each day of a window that starts in the range. -/
theorem mem_localDays (hslot : 0 ≤ slot.startTime ∧ slot.startTime < days 1)
    (hfrom : a ≤ (slotWindow (zoneOf info) day slot).start) (hto : (slotWindow (zoneOf info) day slot).start < b) :
    day ∈ localDays (zoneOf info) a b := by
  rw [slotWindow_eq] at hfrom hto
  have hlow := info.toLocal_le hfrom
  have hhigh := info.le_toLocal hto
  rw [mem_localDays_iff, ← @dayOf_wallStart slot day hslot]
  exact ⟨Int.ediv_le_ediv (by decide) (by show info.toLocal a - days 1 ≤ _; omega),
    Int.ediv_le_ediv (by decide) hhigh⟩

/-! ## The windows of a range -/

/-- The days on which a slot starts in the range. -/
def daysIn (zone : Zone) (slot : ShiftSlot) (a b : ℤ) : List ℤ :=
  (localDays zone a b).filter fun day =>
    decide (weekday day = slot.dayOfWeek) &&
      decide (a ≤ (slotWindow zone day slot).start ∧ (slotWindow zone day slot).start < b)

theorem nodup_daysIn (zone : Zone) (slot : ShiftSlot) (a b : ℤ) : (daysIn zone slot a b).Nodup :=
  (nodup_localDays zone a b).sublist List.filter_sublist

theorem mem_daysIn (hslot : 0 ≤ slot.startTime ∧ slot.startTime < days 1) :
    day ∈ daysIn (zoneOf info) slot a b ↔ weekday day = slot.dayOfWeek ∧
      a ≤ (slotWindow (zoneOf info) day slot).start ∧ (slotWindow (zoneOf info) day slot).start < b := by
  rw [daysIn, List.mem_filter, Bool.and_eq_true, decide_eq_true_eq, decide_eq_true_eq]
  constructor
  · exact fun h => h.2
  · exact fun h => ⟨mem_localDays hslot h.2.1 h.2.2, h⟩

/-- The windows of the slots on their days. -/
def windowsIn (zone : Zone) (slots : List ShiftSlot) (a b : ℤ) : List ShiftWindow :=
  slots.flatMap fun slot => (daysIn zone slot a b).map fun day => slotWindow zone day slot

theorem filter_slotWindows (zone : Zone) (slot : ShiftSlot) (a b : ℤ) :
    ((((localDays zone a b).filter fun day => weekday day = slot.dayOfWeek).map fun day =>
        slotWindow zone day slot).filter fun w => a ≤ w.start ∧ w.start < b) =
      (daysIn zone slot a b).map fun day => slotWindow zone day slot := by
  rw [List.filter_map, List.filter_filter, daysIn]
  refine congrArg (List.map _) (List.filter_congr ?_)
  intro day _
  rw [Bool.and_comm]
  rfl

theorem window_total (v w : ShiftWindow) : v.le w ∨ w.le v := by
  unfold ShiftWindow.le
  rcases lt_trichotomy v.start w.start with h | h | h
  · exact .inl (.inl h)
  · rcases lt_trichotomy v.finish w.finish with h' | h' | h'
    · exact .inl (.inr ⟨h, .inl h'⟩)
    · exact (le_total v.label w.label).imp (fun hl => .inr ⟨h, .inr ⟨h', hl⟩⟩)
        fun hl => .inr ⟨h.symm, .inr ⟨h'.symm, hl⟩⟩
    · exact .inr (.inr ⟨h.symm, .inl h'⟩)
  · exact .inr (.inl h)

theorem window_trans (u v w : ShiftWindow) (huv : u.le v) (hvw : v.le w) : u.le w := by
  unfold ShiftWindow.le at *
  rcases huv with huv | ⟨huv, huv'⟩
  · rcases hvw with hvw | ⟨hvw, -⟩
    · exact .inl (huv.trans hvw)
    · exact .inl (hvw ▸ huv)
  · rcases hvw with hvw | ⟨hvw, hvw'⟩
    · exact .inl (huv ▸ hvw)
    · refine .inr ⟨huv.trans hvw, ?_⟩
      rcases huv' with huv' | ⟨huv', hlabel⟩
      · rcases hvw' with hvw' | ⟨hvw', -⟩
        · exact .inl (huv'.trans hvw')
        · exact .inl (hvw' ▸ huv')
      · rcases hvw' with hvw' | ⟨hvw', hlabel'⟩
        · exact .inl (huv' ▸ hvw')
        · exact .inr ⟨huv'.trans hvw', hlabel.trans hlabel'⟩

theorem window_antisymm (v w : ShiftWindow) (hvw : v.le w) (hwv : w.le v) : v = w := by
  unfold ShiftWindow.le at *
  obtain ⟨start, finish, label⟩ := v
  obtain ⟨start', finish', label'⟩ := w
  dsimp only at hvw hwv
  have hstart : start = start' := by omega
  have hfinish : finish = finish' := by omega
  subst hstart
  subst hfinish
  have hlabel : label = label' := by
    rcases hvw with hlt | ⟨-, hlt | ⟨-, hle⟩⟩
    · omega
    · omega
    · rcases hwv with hlt | ⟨-, hlt | ⟨-, hge⟩⟩
      · omega
      · omega
      · exact le_antisymm hle hge
  rw [hlabel]

theorem pairwise_windows (windows : List ShiftWindow) : (windows.insertionSort ShiftWindow.le).Pairwise ShiftWindow.le := by
  have : Std.Total ShiftWindow.le := ⟨window_total⟩
  have : IsTrans ShiftWindow ShiftWindow.le := ⟨window_trans⟩
  exact List.pairwise_insertionSort ShiftWindow.le windows

variable {zones : Str → Option Zone} {schedule : ShiftSchedule}

theorem windowsIn_of_le (hle : b ≤ a) (zone : Zone) (slots : List ShiftSlot) : windowsIn zone slots a b = [] := by
  refine List.flatMap_eq_nil_iff.mpr fun slot _ => List.map_eq_nil_iff.mpr (List.filter_eq_nil_iff.mpr ?_)
  intro day _ h
  rw [Bool.and_eq_true, decide_eq_true_eq, decide_eq_true_eq] at h
  omega

/-- `shift_windows`, as the sorted windows of the slots on their days. -/
theorem shiftWindows_eq {zone : Zone} (hzone : zones schedule.timezone = some zone) (a b : ℤ) :
    shiftWindows zones schedule a b = some ((windowsIn zone schedule.slots a b).insertionSort ShiftWindow.le) := by
  rw [shiftWindows]
  split
  · next hle =>
      rw [windowsIn_of_le hle]
      rfl
  · rw [hzone, Option.map_some]
    dsimp only
    rw [List.filter_flatMap]
    refine congrArg (fun windows : List ShiftWindow => some (windows.insertionSort ShiftWindow.le)) ?_
    refine List.flatMap_congr ?_
    intro slot _
    exact filter_slotWindows zone slot a b

/-! ## Adjacent ranges -/

/-- The days of adjacent ranges. -/
theorem daysIn_append (hslot : 0 ≤ slot.startTime ∧ slot.startTime < days 1) (hab : a ≤ b) (hbc : b ≤ c) :
    (daysIn (zoneOf info) slot a b ++ daysIn (zoneOf info) slot b c).Perm (daysIn (zoneOf info) slot a c) := by
  have hnodup : (daysIn (zoneOf info) slot a b ++ daysIn (zoneOf info) slot b c).Nodup := by
    refine List.nodup_append'.mpr ⟨nodup_daysIn _ _ _ _, nodup_daysIn _ _ _ _, ?_⟩
    intro day hday hday'
    rw [mem_daysIn hslot] at hday hday'
    omega
  refine (List.perm_ext_iff_of_nodup hnodup (nodup_daysIn _ _ _ _)).mpr fun day => ?_
  rw [List.mem_append, mem_daysIn hslot, mem_daysIn hslot, mem_daysIn hslot]
  omega

theorem windowsIn_append (hwall : WallTimes schedule) (hab : a ≤ b) (hbc : b ≤ c) :
    (windowsIn (zoneOf info) schedule.slots a b ++ windowsIn (zoneOf info) schedule.slots b c).Perm
      (windowsIn (zoneOf info) schedule.slots a c) := by
  refine (List.flatMap_append_perm _ _ _).trans (List.Perm.flatMap_left _ ?_)
  intro slot hslot
  rw [← List.map_append]
  exact (daysIn_append (hwall slot hslot) hab hbc).map _

theorem start_mem_windowsIn {zone : Zone} {slots : List ShiftSlot} {w : ShiftWindow} (h : w ∈ windowsIn zone slots a b) :
    a ≤ w.start ∧ w.start < b := by
  obtain ⟨slot, -, hw⟩ := List.mem_flatMap.mp h
  obtain ⟨day, hday, rfl⟩ := List.mem_map.mp hw
  have hin := (List.mem_filter.mp hday).2
  rw [Bool.and_eq_true, decide_eq_true_eq, decide_eq_true_eq] at hin
  exact hin.2

/-- Each slot's window on each of its days that start in the range, once. -/
structure Enumerates (info : ZoneInfo) (schedule : ShiftSchedule) (a b : ℤ) (windows : List ShiftWindow) : Prop where
  ordered : windows.Pairwise fun v w => v.start ≤ w.start
  exact : ∃ daysOf : ShiftSlot → List ℤ,
    (∀ slot ∈ schedule.slots, (daysOf slot).Nodup ∧ ∀ day, day ∈ daysOf slot ↔ weekday day = slot.dayOfWeek ∧
      a ≤ (slotWindow (zoneOf info) day slot).start ∧ (slotWindow (zoneOf info) day slot).start < b) ∧
    windows.Perm (schedule.slots.flatMap fun slot => (daysOf slot).map fun day => slotWindow (zoneOf info) day slot)

theorem enumerates_windows (hwall : WallTimes schedule) :
    Enumerates info schedule a b ((windowsIn (zoneOf info) schedule.slots a b).insertionSort ShiftWindow.le) := by
  refine ⟨(pairwise_windows _).imp ?_, fun slot => daysIn (zoneOf info) slot a b, ?_, List.perm_insertionSort _ _⟩
  · rintro v w (hlt | ⟨heq, -⟩)
    · exact hlt.le
    · exact heq.le
  · intro slot hslot
    exact ⟨nodup_daysIn _ _ _ _, fun day => mem_daysIn (hwall slot hslot)⟩

theorem sorted_append (hwall : WallTimes schedule) (hab : a ≤ b) (hbc : b ≤ c) :
    (windowsIn (zoneOf info) schedule.slots a c).insertionSort ShiftWindow.le =
      (windowsIn (zoneOf info) schedule.slots a b).insertionSort ShiftWindow.le ++
        (windowsIn (zoneOf info) schedule.slots b c).insertionSort ShiftWindow.le := by
  refine List.Perm.eq_of_pairwise (fun v w _ _ => window_antisymm v w) (pairwise_windows _) ?_ ?_
  · refine List.pairwise_append.mpr ⟨pairwise_windows _, pairwise_windows _, ?_⟩
    intro v hv w hw
    have hearly := start_mem_windowsIn ((List.perm_insertionSort _ _).mem_iff.mp hv)
    have hlate := start_mem_windowsIn ((List.perm_insertionSort _ _).mem_iff.mp hw)
    exact .inl (by omega)
  · refine (List.perm_insertionSort _ _).trans ((windowsIn_append hwall hab hbc).symm.trans ?_)
    exact ((List.perm_insertionSort _ _).append (List.perm_insertionSort _ _)).symm

/-- The shifts of a range are those of its two parts, one after the other: in the order of their starts,
each slot's window once for each of its days. -/
theorem shift_windows_compose {zones : Str → Option Zone} {schedule : ShiftSchedule} {info : ZoneInfo}
    (hzone : zones schedule.timezone = some (zoneOf info)) (hwall : WallTimes schedule) {a b c : ℤ} (hab : a ≤ b)
    (hbc : b ≤ c) :
    ∃ first second, shiftWindows zones schedule a b = some first ∧ shiftWindows zones schedule b c = some second ∧
      shiftWindows zones schedule a c = some (first ++ second) ∧ Enumerates info schedule a c (first ++ second) := by
  refine ⟨_, _, shiftWindows_eq hzone a b, shiftWindows_eq hzone b c, ?_, ?_⟩
  · rw [shiftWindows_eq hzone, sorted_append hwall hab hbc]
  · rw [← sorted_append hwall hab hbc]
    exact enumerates_windows hwall

/-- UTC, but that the clock goes forward by an hour on the first Sunday, at two. -/
def springZone : ZoneInfo where
  initial := 0
  changes := [(days 3 + hours 2, hours 1)]
  lawful := ⟨by decide, trivial, trivial⟩
  bounded := by
    refine ⟨by decide, ?_⟩
    intro c hc
    obtain rfl := List.mem_singleton.mp hc
    decide

/-- Two shifts of one name that end together, one an hour after the other. -/
def overlappingSchedule : ShiftSchedule :=
  ⟨[], [], [⟨6, hours 2 + minutes 30, 150, []⟩, ⟨6, hours 3 + minutes 30, 90, []⟩]⟩

theorem wallTimes_overlapping : WallTimes overlappingSchedule := by
  intro slot hslot
  rcases List.mem_cons.mp hslot with rfl | hslot
  · decide
  · obtain rfl := List.mem_singleton.mp hslot
    decide

theorem shift_windows_compose_spring : ∃ first second,
    shiftWindows (fun _ => some (zoneOf springZone)) overlappingSchedule 0 (days 3) = some first ∧
      shiftWindows (fun _ => some (zoneOf springZone)) overlappingSchedule (days 3) (days 14) = some second ∧
      shiftWindows (fun _ => some (zoneOf springZone)) overlappingSchedule 0 (days 14) = some (first ++ second) ∧
      Enumerates springZone overlappingSchedule 0 (days 14) (first ++ second) :=
  shift_windows_compose rfl wallTimes_overlapping (by decide) (by decide)

/-- On that Sunday the two shifts have one window, which is listed twice. -/
theorem skipped_hour_repeats_window :
    ¬ ∀ (zones : Str → Option Zone) (schedule : ShiftSchedule) (info : ZoneInfo),
      zones schedule.timezone = some (zoneOf info) → WallTimes schedule →
        ∀ a c windows, shiftWindows zones schedule a c = some windows → windows.Nodup := by
  intro h
  have hnodup := h (fun _ => some (zoneOf springZone)) overlappingSchedule springZone rfl wallTimes_overlapping
    (days 3) (days 4) _ (shiftWindows_eq rfl _ _)
  revert hnodup
  decide +kernel

end Uns.Oee
