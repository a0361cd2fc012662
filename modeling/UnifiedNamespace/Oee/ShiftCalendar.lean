/-
# `Oee.ShiftCalendar` — which UTC windows a shift pattern produces

`shift_calendar.py`: a slot is a weekday, a local start and a wall-clock duration;
both ends of its window are resolved through the zone.

The zone database is not part of the program.  A `Zone` is what `zoneinfo` answers
for one name: the wall clock of an instant, and the instant that a wall-clock time
names with `fold=0`, both in microseconds.
-/
import UnifiedNamespace.Python.Instant
import UnifiedNamespace.Oee.Calc

namespace Uns.Oee

open Py

structure Zone where
  toLocal : ℤ → ℤ
  toUtc : ℤ → ℤ

/-- One shift on one weekday; 0 is Monday. -/
structure ShiftSlot where
  dayOfWeek : ℤ
  startTime : ℤ
  durationMinutes : ℤ
  label : Str

/-- A named weekly pattern in one IANA timezone. -/
structure ShiftSchedule where
  name : Str
  timezone : Str
  slots : List ShiftSlot

/-- One UTC interval a shift occupies. -/
structure ShiftWindow where
  start : ℤ
  finish : ℤ
  label : Str
  deriving DecidableEq

def ShiftWindow.le (a b : ShiftWindow) : Prop :=
  a.start < b.start ∨
    (a.start = b.start ∧ (a.finish < b.finish ∨ (a.finish = b.finish ∧ a.label ≤ b.label)))

instance : DecidableRel ShiftWindow.le := fun _ _ => inferInstanceAs (Decidable (_ ∨ _))

def ShiftWindow.isClosedAt (w : ShiftWindow) (at_ settleMinutes : ℤ) : Bool :=
  decide (w.finish + minutes settleMinutes ≤ at_)

/-- `as_interval`. -/
def ShiftWindow.asInterval (w : ShiftWindow) : Interval := ⟨w.start, w.finish⟩

/-- The day number of a wall-clock time. -/
def dayOf (wall : ℤ) : ℤ := wall / days 1

/-- 1970-01-01 was a Thursday. -/
def weekday (day : ℤ) : ℤ := (day + 3) % 7

def resolveLocal (zone : Zone) (day at_ : ℤ) : ℤ := zone.toUtc (days day + at_)

/-- One window, both ends resolved as local wall-clock times. -/
def slotWindow (zone : Zone) (day : ℤ) (slot : ShiftSlot) : ShiftWindow :=
  let naiveStart := days day + slot.startTime
  let naiveEnd := naiveStart + minutes slot.durationMinutes
  { start := resolveLocal zone (dayOf naiveStart) (naiveStart % days 1)
    finish := resolveLocal zone (dayOf naiveEnd) (naiveEnd % days 1)
    label := slot.label }

/-- The days of the walk, widened by one at each end. -/
def localDays (zone : Zone) (fromUtc toUtc : ℤ) : List ℤ :=
  let firstDay := dayOf (zone.toLocal fromUtc - days 1)
  let lastDay := dayOf (zone.toLocal toUtc + days 1)
  (List.range (lastDay - firstDay + 1).toNat).map fun n => firstDay + n

/-- Every window whose start lies in `[from_utc, to_utc)`, earliest first; `none` is the `ValueError`
of an unknown zone. -/
def shiftWindows (zones : Str → Option Zone) (schedule : ShiftSchedule) (fromUtc toUtc : ℤ) :
    Option (List ShiftWindow) :=
  if toUtc ≤ fromUtc then some []
  else
    (zones schedule.timezone).map fun zone =>
      let windows := schedule.slots.flatMap fun slot =>
        ((localDays zone fromUtc toUtc).filter fun day => weekday day = slot.dayOfWeek).map fun day =>
          slotWindow zone day slot
      (windows.filter fun w => fromUtc ≤ w.start ∧ w.start < toUtc).insertionSort ShiftWindow.le

end Uns.Oee
