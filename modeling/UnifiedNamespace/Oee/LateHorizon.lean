/-
# `Oee.LateHorizon` — the shifts that a pass rechecks

`recheck_windows` looks for shifts that started within the late window and one longest slot
more.  The longest slot is a length on the wall clock.  A shift during which the clock goes
back is longer than that, so it can start before the range and still have ended within
the late window (`long_night_missed`); a pass finds every due shift exactly when none does
(`recheck_exact_iff`).
-/
import UnifiedNamespace.Oee.Scheduler
import UnifiedNamespace.Oee.ShiftTiling

namespace Uns.Oee

open Py

variable {zones : Str → Option Zone} {info : ZoneInfo} {config : OeeConfig} {unit : UnitMasterData} {now : ℤ}

/-- The shift ended at least the settle delay and at most the late window before now. -/
def IsDue (config : OeeConfig) (now : ℤ) (w : ShiftWindow) : Prop :=
  w.finish + minutes config.settleMinutes ≤ now ∧ now - w.finish ≤ hours config.lateWindowHours

/-- The length of the longest slot, on the wall clock. -/
def longestSlot (schedule : ShiftSchedule) : ℤ :=
  ((schedule.slots.map fun slot => minutes slot.durationMinutes).max?).getD 0

/-- The windows of the roster. -/
def IsShift (info : ZoneInfo) (schedule : ShiftSchedule) (w : ShiftWindow) : Prop :=
  ∃ shift, Occurs schedule shift ∧ w = slotWindow (zoneOf info) shift.2 shift.1

/-- A recheck finds the due shifts of the roster. -/
def ChecksDue (zones : Str → Option Zone) (info : ZoneInfo) (config : OeeConfig) (unit : UnitMasterData) (now : ℤ) : Prop :=
  ∃ windows, recheckWindows zones config unit now = some windows ∧
    ∀ w, w ∈ windows ↔ IsShift info unit.schedule w ∧ IsDue config now w

/-- A due shift is longer than the longest slot by no more than what is left of its late window, and has
begun. -/
def InReach (info : ZoneInfo) (config : OeeConfig) (schedule : ShiftSchedule) (now : ℤ) : Prop :=
  ∀ w, IsShift info schedule w → IsDue config now w →
    w.finish - w.start ≤ longestSlot schedule + (hours config.lateWindowHours - (now - w.finish)) ∧ w.start < now

theorem mem_recheckWindows (hzone : zones unit.schedule.timezone = some (zoneOf info))
    (hwall : WallTimes unit.schedule) : ∃ windows, recheckWindows zones config unit now = some windows ∧
      ∀ w, w ∈ windows ↔ (IsShift info unit.schedule w ∧ now - lookback unit config.lateWindowHours ≤ w.start ∧
        w.start < now) ∧ IsDue config now w := by
  refine ⟨_, by rw [recheckWindows, shiftWindows_eq hzone, Option.map_some], fun w => ?_⟩
  rw [List.mem_filter, (List.perm_insertionSort _ _).mem_iff, mem_windowsIn hwall, Bool.and_eq_true,
    ShiftWindow.isClosedAt, decide_eq_true_eq, decide_eq_true_eq]
  refine and_congr_left fun _ => ?_
  constructor
  · rintro ⟨shift, hshift, hw, hin⟩
    exact ⟨⟨shift, hshift, hw⟩, hin⟩
  · rintro ⟨⟨shift, hshift, hw⟩, hin⟩
    exact ⟨shift, hshift, hw, hin⟩

/-- A recheck finds the due shifts exactly when they are all in its reach. -/
theorem recheck_exact_iff {zones : Str → Option Zone} {info : ZoneInfo} {config : OeeConfig} {unit : UnitMasterData}
    {now : ℤ} (hzone : zones unit.schedule.timezone = some (zoneOf info)) (hwall : WallTimes unit.schedule) :
    ChecksDue zones info config unit now ↔ InReach info config unit.schedule now := by
  obtain ⟨windows, hwindows, hmem⟩ := @mem_recheckWindows zones info config unit now hzone hwall
  have hreach : ∀ w : ShiftWindow,
      (w.finish - w.start ≤ longestSlot unit.schedule + (hours config.lateWindowHours - (now - w.finish)) ∧ w.start < now) ↔
        now - lookback unit config.lateWindowHours ≤ w.start ∧ w.start < now := by
    intro w
    have hlookback : lookback unit config.lateWindowHours = hours config.lateWindowHours + longestSlot unit.schedule := rfl
    rw [hlookback]
    omega
  constructor
  · rintro ⟨found, hfound, hexact⟩ w hshift hdue
    rw [hwindows] at hfound
    obtain rfl := Option.some.inj hfound
    exact (hreach w).mpr ((hmem w).mp ((hexact w).mpr ⟨hshift, hdue⟩)).1.2
  · intro h
    refine ⟨windows, hwindows, fun w => (hmem w).trans ?_⟩
    constructor
    · exact fun hin => ⟨hin.1.1, hin.2⟩
    · exact fun hdue => ⟨⟨hdue.1, (hreach w).mp (h w hdue.1 hdue.2)⟩, hdue.2⟩

/-! ## Two nights -/

def rosterUnit (schedule : ShiftSchedule) : UnitMasterData := { lineUnit with schedule := schedule }

/-- Where the clock stands still, a shift is as long as its slot. -/
theorem recheck_exact_fixed :
    ChecksDue (fun _ => some (zoneOf fixedZone)) fixedZone ⟨30, 24, 7⟩ (rosterUnit nightlySchedule) (days 5) := by
  refine (recheck_exact_iff rfl wallTimes_nightly).mpr ?_
  rintro w ⟨shift, hshift, rfl⟩ ⟨hsettled, hlate⟩
  rw [slotWindow_eq] at *
  have hlongest : longestSlot nightlySchedule = minutes 1260 := by decide +kernel
  have hslots : ∀ slot ∈ nightlySchedule.slots, 0 ≤ slot.durationMinutes ∧ slot.durationMinutes ≤ 1260 := by
    decide +kernel
  have hlength := hslots shift.1 hshift.slot
  have hsame : fixedZone.toUtc (wallEnd shift.2 shift.1) - fixedZone.toUtc (wallStart shift.2 shift.1) =
      minutes shift.1.durationMinutes := by
    show wallStart shift.2 shift.1 + minutes shift.1.durationMinutes - hours 1 - (wallStart shift.2 shift.1 - hours 1) = _
    omega
  dsimp only at hsettled hlate ⊢
  rw [show (rosterUnit nightlySchedule).schedule = nightlySchedule from rfl, hlongest]
  simp only [minutes, hours] at *
  omega

/-- The clock goes back by an hour on the first Sunday, at two. -/
def autumnZone : ZoneInfo where
  initial := hours 1
  changes := [(days 3 + hours 1, 0)]
  lawful := ⟨by decide, trivial, trivial⟩
  bounded := by
    refine ⟨by decide, ?_⟩
    intro c hc
    obtain rfl := List.mem_singleton.mp hc
    decide

/-- A night shift of eight hours that took nine has ended a day ago, and is not found. -/
theorem long_night_missed :
    ¬ ∀ (zones : Str → Option Zone) (info : ZoneInfo) (config : OeeConfig) (unit : UnitMasterData) (now : ℤ),
      zones unit.schedule.timezone = some (zoneOf info) → WallTimes unit.schedule →
        ChecksDue zones info config unit now := by
  intro h
  obtain ⟨windows, hwindows, hexact⟩ := h (fun _ => some (zoneOf autumnZone)) autumnZone ⟨30, 24, 7⟩
    (rosterUnit ⟨[], [], [⟨6, 0, 480, []⟩]⟩) (days 4 + hours 8) rfl (by
      intro slot hslot
      obtain rfl := List.mem_singleton.mp hslot
      exact ⟨by decide, by decide⟩)
  have hnone : recheckWindows (fun _ => some (zoneOf autumnZone)) ⟨30, 24, 7⟩
      (rosterUnit ⟨[], [], [⟨6, 0, 480, []⟩]⟩) (days 4 + hours 8) = some [] := by decide +kernel
  rw [hnone] at hwindows
  obtain rfl := Option.some.inj hwindows
  refine absurd ((hexact (slotWindow (zoneOf autumnZone) 3 ⟨6, 0, 480, []⟩)).mpr
    ⟨⟨(⟨6, 0, 480, []⟩, 3), ⟨List.mem_singleton.mpr rfl, rfl⟩, rfl⟩, ?_⟩) List.not_mem_nil
  exact ⟨by decide, by decide⟩

end Uns.Oee
