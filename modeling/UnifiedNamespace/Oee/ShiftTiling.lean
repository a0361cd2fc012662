/-
# `Oee.ShiftTiling` — shifts across an offset change

A roster whose shifts tile the wall clock: does it tile real time?  The end of a shift and
the start of the next are the same wall-clock time, so they are the same instant, whatever
the zone does.  What a change of the offset can break is the order of a shift's own two
ends: a shift that begins in the skipped time and ends right after it has its end before
its start, or at it.  The windows tile real time exactly when no shift does
(`windows_tile_iff`).
-/
import UnifiedNamespace.Oee.ShiftRanges

namespace Uns.Oee

open Py

variable {schedule : ShiftSchedule} {info : ZoneInfo}

/-! ## The wall clock -/

/-- A slot of the roster on one of its days. -/
structure Occurs (schedule : ShiftSchedule) (shift : ShiftSlot × ℤ) : Prop where
  slot : shift.1 ∈ schedule.slots
  day : weekday shift.2 = shift.1.dayOfWeek

def onWall (shift : ShiftSlot × ℤ) (wall : ℤ) : Prop :=
  wallStart shift.2 shift.1 ≤ wall ∧ wall < wallEnd shift.2 shift.1

/-- The table has `duration_minutes > 0`. -/
def Lasting (schedule : ShiftSchedule) : Prop := ∀ slot ∈ schedule.slots, 0 < slot.durationMinutes

/-- Each wall-clock time belongs to one shift. -/
def TilesWall (schedule : ShiftSchedule) : Prop := ∀ wall, ∃! shift, Occurs schedule shift ∧ onWall shift wall

def shiftStart (info : ZoneInfo) (shift : ShiftSlot × ℤ) : ℤ := (slotWindow (zoneOf info) shift.2 shift.1).start

def shiftFinish (info : ZoneInfo) (shift : ShiftSlot × ℤ) : ℤ := (slotWindow (zoneOf info) shift.2 shift.1).finish

theorem shiftStart_eq (info : ZoneInfo) (shift : ShiftSlot × ℤ) :
    shiftStart info shift = info.toUtc (wallStart shift.2 shift.1) := by
  rw [shiftStart, slotWindow_eq]

theorem shiftFinish_eq (info : ZoneInfo) (shift : ShiftSlot × ℤ) :
    shiftFinish info shift = info.toUtc (wallEnd shift.2 shift.1) := by
  rw [shiftFinish, slotWindow_eq]

theorem Lasting.lt (h : Lasting schedule) {shift : ShiftSlot × ℤ} (hshift : Occurs schedule shift) :
    wallStart shift.2 shift.1 < wallEnd shift.2 shift.1 := by
  have hduration := h shift.1 hshift.slot
  unfold wallEnd minutes
  omega

section

variable (htiles : TilesWall schedule) (hlasting : Lasting schedule)
include htiles

theorem TilesWall.eq {shift shift' : ShiftSlot × ℤ} (hshift : Occurs schedule shift) (hshift' : Occurs schedule shift')
    {wall : ℤ} (hwall : onWall shift wall) (hwall' : onWall shift' wall) : shift = shift' :=
  (htiles wall).unique ⟨hshift, hwall⟩ ⟨hshift', hwall'⟩

include hlasting

/-- A shift that begins later begins after the end. -/
theorem TilesWall.end_le {shift shift' : ShiftSlot × ℤ} (hshift : Occurs schedule shift)
    (hshift' : Occurs schedule shift') (hlt : wallStart shift.2 shift.1 < wallStart shift'.2 shift'.1) :
    wallEnd shift.2 shift.1 ≤ wallStart shift'.2 shift'.1 := by
  by_contra hlate
  have heq := htiles.eq hshift hshift' ⟨hlt.le, not_le.mp hlate⟩ ⟨le_refl _, hlasting.lt hshift'⟩
  rw [heq] at hlt
  exact lt_irrefl _ hlt

/-- The next shift begins where the shift ends. -/
theorem TilesWall.next {shift : ShiftSlot × ℤ} (hshift : Occurs schedule shift) :
    ∃ shift', Occurs schedule shift' ∧ wallStart shift'.2 shift'.1 = wallEnd shift.2 shift.1 := by
  obtain ⟨shift', ⟨hshift', hon⟩, -⟩ := htiles (wallEnd shift.2 shift.1)
  refine ⟨shift', hshift', le_antisymm hon.1 ?_⟩
  have hlt := hlasting.lt hshift
  rcases lt_trichotomy (wallStart shift.2 shift.1) (wallStart shift'.2 shift'.1) with hafter | hsame | hbefore
  · exact htiles.end_le hlasting hshift hshift' hafter
  · have heq := htiles.eq hshift hshift' ⟨le_refl _, hlt⟩ ⟨hsame.ge, hsame.trans_lt (hlasting.lt hshift')⟩
    rw [← heq] at hon
    exact absurd hon.2 (lt_irrefl _)
  · have hend := htiles.end_le hlasting hshift' hshift hbefore
    have := hon.2
    omega

end

/-! ## Real time -/

/-- No change of the offset swallows a shift. -/
def NoneSwallowed (info : ZoneInfo) (schedule : ShiftSchedule) : Prop :=
  ∀ shift, Occurs schedule shift → ∀ step ∈ info.steps,
    ¬ step.Swallows (wallStart shift.2 shift.1) (wallEnd shift.2 shift.1)

theorem start_lt_finish_iff {shift : ShiftSlot × ℤ} (hlt : wallStart shift.2 shift.1 < wallEnd shift.2 shift.1) :
    shiftStart info shift < shiftFinish info shift ↔
      ∀ step ∈ info.steps, ¬ step.Swallows (wallStart shift.2 shift.1) (wallEnd shift.2 shift.1) := by
  rw [shiftStart_eq, shiftFinish_eq, ← not_le, info.toUtc_le_iff hlt]
  constructor
  · exact fun h step hstep hswallows => h ⟨step, hstep, hswallows⟩
  · rintro h ⟨step, hstep, hswallows⟩
    exact h step hstep hswallows

/-- Each window ends after its start, consecutive shifts share the instant between them, and each instant
belongs to one shift. -/
structure TilesTime (zones : Str → Option Zone) (info : ZoneInfo) (schedule : ShiftSchedule) : Prop where
  positive : ∀ a b windows, shiftWindows zones schedule a b = some windows → ∀ w ∈ windows, w.start < w.finish
  abut : ∀ shift shift', Occurs schedule shift → Occurs schedule shift' →
    wallEnd shift.2 shift.1 = wallStart shift'.2 shift'.1 → shiftFinish info shift = shiftStart info shift'
  one : ∀ t, ∃! shift, Occurs schedule shift ∧ shiftStart info shift ≤ t ∧ t < shiftFinish info shift

theorem finish_eq_start {shift shift' : ShiftSlot × ℤ} (h : wallStart shift'.2 shift'.1 = wallEnd shift.2 shift.1) :
    shiftFinish info shift = shiftStart info shift' := by
  rw [shiftStart_eq, shiftFinish_eq, h]

section

variable (htiles : TilesWall schedule) (hlasting : Lasting schedule)
include htiles hlasting

/-- The end of a shift is not after the start of a later one.  The induction is on the wall-clock time
between them. -/
theorem finish_le_start (hpositive : ∀ shift, Occurs schedule shift → shiftStart info shift < shiftFinish info shift)
    {shift shift' : ShiftSlot × ℤ} (hshift : Occurs schedule shift)
    (hshift' : Occurs schedule shift') (hle : wallEnd shift.2 shift.1 ≤ wallStart shift'.2 shift'.1) :
    shiftFinish info shift ≤ shiftStart info shift' := by
  induction hn : (wallStart shift'.2 shift'.1 - wallEnd shift.2 shift.1).toNat using Nat.strong_induction_on
    generalizing shift with
  | _ n ih =>
      obtain ⟨next, hnext, hstart⟩ := htiles.next hlasting hshift
      rw [finish_eq_start hstart]
      rcases hle.eq_or_lt with heq | hlt
      · exact (by rw [shiftStart_eq, shiftStart_eq, hstart, heq] : shiftStart info next = shiftStart info shift').le
      · have hend := htiles.end_le hlasting hnext hshift' (by omega)
        have hlast := hlasting.lt hnext
        exact (hpositive next hnext).le.trans (ih _ (by omega) hnext hend rfl)

/-- From a shift that has begun one gets to the shift of the instant. -/
theorem exists_shift_at {t : ℤ} {shift : ShiftSlot × ℤ} (hshift : Occurs schedule shift)
    (hbegun : shiftStart info shift ≤ t) :
    ∃ shift', Occurs schedule shift' ∧ shiftStart info shift' ≤ t ∧ t < shiftFinish info shift' := by
  induction hn : (t + days 1 - wallStart shift.2 shift.1).toNat using Nat.strong_induction_on generalizing shift with
  | _ n ih =>
      rcases lt_or_ge t (shiftFinish info shift) with hlt | hge
      · exact ⟨shift, hshift, hbegun, hlt⟩
      · obtain ⟨next, hnext, hstart⟩ := htiles.next hlasting hshift
        have hlast := hlasting.lt hshift
        have hbounds := (info.toUtc_bounds (wallStart shift.2 shift.1)).1
        rw [← shiftStart_eq] at hbounds
        refine ih _ ?_ hnext ?_ rfl
        · omega
        · rw [← finish_eq_start hstart]
          exact hge

theorem one_shift_at (hpositive : ∀ shift, Occurs schedule shift → shiftStart info shift < shiftFinish info shift)
    (t : ℤ) : ∃! shift, Occurs schedule shift ∧ shiftStart info shift ≤ t ∧ t < shiftFinish info shift := by
  obtain ⟨first, ⟨hfirst, hon⟩, -⟩ := htiles (t - days 1)
  have hbegun : shiftStart info first ≤ t := by
    have hbounds := (info.toUtc_bounds (wallStart first.2 first.1)).2
    have := hon.1
    rw [shiftStart_eq]
    omega
  obtain ⟨shift, hshift, hat⟩ := exists_shift_at htiles hlasting hfirst hbegun
  refine ⟨shift, ⟨hshift, hat⟩, ?_⟩
  rintro shift' ⟨hshift', hat'⟩
  rcases lt_trichotomy (wallStart shift'.2 shift'.1) (wallStart shift.2 shift.1) with hlt | heq | hgt
  · have hle := finish_le_start htiles hlasting hpositive hshift' hshift (htiles.end_le hlasting hshift' hshift hlt)
    omega
  · exact htiles.eq hshift' hshift ⟨le_refl _, hlasting.lt hshift'⟩ ⟨heq.ge, heq.trans_lt (hlasting.lt hshift)⟩
  · have hle := finish_le_start htiles hlasting hpositive hshift hshift' (htiles.end_le hlasting hshift hshift' hgt)
    omega

end

theorem mem_windowsIn {a b : ℤ} (hwall : WallTimes schedule) {w : ShiftWindow} :
    w ∈ windowsIn (zoneOf info) schedule.slots a b ↔ ∃ shift, Occurs schedule shift ∧
      w = slotWindow (zoneOf info) shift.2 shift.1 ∧ a ≤ w.start ∧ w.start < b := by
  constructor
  · intro hw
    have hin := start_mem_windowsIn hw
    obtain ⟨slot, hslot, hw⟩ := List.mem_flatMap.mp hw
    obtain ⟨day, hday, rfl⟩ := List.mem_map.mp hw
    exact ⟨(slot, day), ⟨hslot, ((mem_daysIn (hwall slot hslot)).mp hday).1⟩, rfl, hin⟩
  · rintro ⟨shift, hshift, rfl, hin⟩
    refine List.mem_flatMap.mpr ⟨shift.1, hshift.slot, List.mem_map.mpr ⟨shift.2, ?_, rfl⟩⟩
    exact (mem_daysIn (hwall shift.1 hshift.slot)).mpr ⟨hshift.day, hin⟩

/-- A roster that tiles the wall clock tiles real time exactly when no change of the offset swallows a
shift. -/
theorem windows_tile_iff {zones : Str → Option Zone} {schedule : ShiftSchedule} {info : ZoneInfo}
    (hzone : zones schedule.timezone = some (zoneOf info)) (hwall : WallTimes schedule) (hlasting : Lasting schedule)
    (htiles : TilesWall schedule) : TilesTime zones info schedule ↔ NoneSwallowed info schedule := by
  constructor
  · intro h shift hshift
    refine (start_lt_finish_iff (hlasting.lt hshift)).mp ?_
    have hwindows := shiftWindows_eq hzone (shiftStart info shift) (shiftStart info shift + 1)
    refine h.positive _ _ _ hwindows _ ((List.perm_insertionSort _ _).mem_iff.mpr ?_)
    exact (mem_windowsIn hwall).mpr ⟨shift, hshift, rfl, le_refl _, lt_add_one _⟩
  · intro h
    have hpositive : ∀ shift, Occurs schedule shift → shiftStart info shift < shiftFinish info shift :=
      fun shift hshift => (start_lt_finish_iff (hlasting.lt hshift)).mpr (h shift hshift)
    refine ⟨?_, fun shift shift' _ _ hsame => finish_eq_start hsame.symm, one_shift_at htiles hlasting hpositive⟩
    intro a b windows hwindows w hw
    rw [shiftWindows_eq hzone] at hwindows
    obtain rfl := Option.some.inj hwindows
    obtain ⟨shift, hshift, rfl, -⟩ := (mem_windowsIn hwall).mp ((List.perm_insertionSort _ _).mem_iff.mp hw)
    exact hpositive shift hshift

/-! ## A day of three shifts -/

/-- A shift up to two o'clock, one of an hour, and one for the rest of the day. -/
def nightlySlots (dayOfWeek : ℤ) : List ShiftSlot :=
  [⟨dayOfWeek, 0, 120, []⟩, ⟨dayOfWeek, hours 2, 60, []⟩, ⟨dayOfWeek, hours 3, 1260, []⟩]

def nightlySchedule : ShiftSchedule := ⟨[], [], [0, 1, 2, 3, 4, 5, 6].flatMap nightlySlots⟩

theorem mem_nightlySlots {slot : ShiftSlot} (h : slot ∈ nightlySchedule.slots) :
    slot = ⟨slot.dayOfWeek, 0, 120, []⟩ ∨ slot = ⟨slot.dayOfWeek, hours 2, 60, []⟩ ∨
      slot = ⟨slot.dayOfWeek, hours 3, 1260, []⟩ := by
  obtain ⟨dayOfWeek, -, hslot⟩ := List.mem_flatMap.mp h
  rcases List.mem_cons.mp hslot with rfl | hslot
  · exact .inl rfl
  rcases List.mem_cons.mp hslot with rfl | hslot
  · exact .inr (.inl rfl)
  obtain rfl := List.mem_singleton.mp hslot
  exact .inr (.inr rfl)

theorem weekday_mem (day : ℤ) : weekday day ∈ ([0, 1, 2, 3, 4, 5, 6] : List ℤ) := by
  have hlow : 0 ≤ weekday day := Int.emod_nonneg _ (by decide)
  have hhigh : weekday day < 7 := Int.emod_lt_of_pos _ (by decide)
  simp only [List.mem_cons, List.not_mem_nil, or_false]
  omega

theorem wallTimes_nightly : WallTimes nightlySchedule := by
  unfold WallTimes
  decide +kernel

theorem lasting_nightly : Lasting nightlySchedule := by
  unfold Lasting
  decide +kernel

/-- The slots of a day lie one after the other, so a shift on the wall is known by its start. -/
theorem tilesWall_nightly : TilesWall nightlySchedule := by
  intro wall
  have hmem : ∀ slot ∈ nightlySlots (weekday (dayOf wall)), slot ∈ nightlySchedule.slots :=
    fun slot hslot => List.mem_flatMap.mpr ⟨_, weekday_mem _, hslot⟩
  have hone : ∀ shift, Occurs nightlySchedule shift ∧ onWall shift wall → shift.2 = dayOf wall ∧
      shift.1 = if wall - days (dayOf wall) < hours 2 then ⟨weekday (dayOf wall), 0, 120, []⟩
        else if wall - days (dayOf wall) < hours 3 then ⟨weekday (dayOf wall), hours 2, 60, []⟩
        else ⟨weekday (dayOf wall), hours 3, 1260, []⟩ := by
    rintro ⟨slot, day⟩ ⟨⟨hslot, hday⟩, hfrom, hto⟩
    dsimp only at hslot hday hfrom hto ⊢
    have hsame : day = dayOf wall := by
      unfold wallStart wallEnd wallStart at *
      unfold dayOf
      rcases mem_nightlySlots hslot with h | h | h
      · rw [h] at hfrom hto
        simp only [days, minutes] at hfrom hto ⊢
        omega
      · rw [h] at hfrom hto
        simp only [days, minutes, hours] at hfrom hto ⊢
        omega
      · rw [h] at hfrom hto
        simp only [days, minutes, hours] at hfrom hto ⊢
        omega
    refine ⟨hsame, ?_⟩
    rw [← hsame, hday]
    unfold wallStart wallEnd wallStart at *
    rcases mem_nightlySlots hslot with h | h | h
    · rw [h] at hfrom hto
      simp only [minutes] at hfrom hto
      rw [if_pos (by unfold hours; omega)]
      exact h
    · rw [h] at hfrom hto
      simp only [minutes, hours] at hfrom hto
      rw [if_neg (by unfold hours; omega), if_pos (by unfold hours; omega)]
      exact h
    · rw [h] at hfrom hto
      simp only [minutes, hours] at hfrom hto
      rw [if_neg (by unfold hours; omega), if_neg (by unfold hours; omega)]
      exact h
  refine ⟨(if wall - days (dayOf wall) < hours 2 then ⟨weekday (dayOf wall), 0, 120, []⟩
      else if wall - days (dayOf wall) < hours 3 then ⟨weekday (dayOf wall), hours 2, 60, []⟩
      else ⟨weekday (dayOf wall), hours 3, 1260, []⟩, dayOf wall), ?_, fun shift hshift => ?_⟩
  · have hday : 0 ≤ wall - days (dayOf wall) ∧ wall - days (dayOf wall) < days 1 := by
      unfold days dayOf days
      omega
    dsimp only
    split
    · next hlt =>
        refine ⟨⟨hmem _ (by simp [nightlySlots]), rfl⟩, ?_, ?_⟩
        · show days (dayOf wall) + 0 ≤ wall
          omega
        · show wall < days (dayOf wall) + 0 + minutes 120
          unfold hours at hlt
          unfold minutes
          omega
    · next hge =>
        split
        · next hlt =>
            refine ⟨⟨hmem _ (by simp [nightlySlots]), rfl⟩, ?_, ?_⟩
            · show days (dayOf wall) + hours 2 ≤ wall
              omega
            · show wall < days (dayOf wall) + hours 2 + minutes 60
              unfold hours at hlt ⊢
              unfold minutes
              omega
        · next hge' =>
            refine ⟨⟨hmem _ (by simp [nightlySlots]), rfl⟩, ?_, ?_⟩
            · show days (dayOf wall) + hours 3 ≤ wall
              omega
            · show wall < days (dayOf wall) + hours 3 + minutes 1260
              have hlast := hday.2
              simp only [days, hours, minutes] at hlast ⊢
              omega
  · obtain ⟨hday, hslot⟩ := hone shift hshift
    exact Prod.ext hslot hday

/-- Where the clock stands still nothing is swallowed. -/
def fixedZone : ZoneInfo where
  initial := hours 1
  changes := []
  lawful := trivial
  bounded := by
    refine ⟨by decide, ?_⟩
    intro c hc
    cases hc

theorem windows_tile_fixed : TilesTime (fun _ => some (zoneOf fixedZone)) fixedZone nightlySchedule := by
  refine (windows_tile_iff rfl wallTimes_nightly lasting_nightly tilesWall_nightly).mpr ?_
  intro shift _ step hstep
  cases hstep

/-- The shift from two to three has no time on the Sunday on which that hour is skipped. -/
theorem skipped_shift_is_empty :
    ¬ ∀ (zones : Str → Option Zone) (schedule : ShiftSchedule) (info : ZoneInfo),
      zones schedule.timezone = some (zoneOf info) → WallTimes schedule → Lasting schedule → TilesWall schedule →
        TilesTime zones info schedule := by
  intro h
  have htime := h (fun _ => some (zoneOf springZone)) nightlySchedule springZone rfl wallTimes_nightly lasting_nightly
    tilesWall_nightly
  have hwindow := htime.positive (days 3 + hours 2) (days 3 + hours 3) _ (shiftWindows_eq rfl _ _)
    (slotWindow (zoneOf springZone) 3 ⟨6, hours 2, 60, []⟩) (by decide +kernel)
  revert hwindow
  decide

end Uns.Oee
