/-
# `Historian.Metrics` — payloads flattened to metric rows

`metric_flattener.py`: every scalar leaf of a payload becomes a row, named by the
keys and indices on the way to it.

The source is a chain of generators, so a row can be consumed before a later one
raises.  A generator is the list of what it yields, up to and including the first
exception (`Yields`).  Each level of nesting is a generator of its own and takes a
frame of the interpreter's stack: `frames` is what is left of it.
-/
import UnifiedNamespace.Config.Events

namespace Uns.Historian

open Py

/-- What flattening raises; `MetricExpansionLimitError` carries its text. -/
inductive MetricRaised where
  | expansionLimit (detail : Str)
  | overflowError
  | recursionError
  deriving DecidableEq

/-- `MetricRow`: the name and the value, a number or a text. -/
structure MetricRow where
  name : Str
  valueDouble : Option PyFloat
  valueText : Option Str

/-- What a generator yields. -/
abbrev Yields := List (Except MetricRaised MetricRow)

/-- `_scalar_to_metric`: `bool` before `int`, and `None` gives no row. -/
def scalarToMetric (path : Str) : Json → Yields
  | .bool b => [.ok ⟨path, none, some (lit (if b then "true" else "false"))⟩]
  | .int n =>
      match floatOfInt n with
      | some x => [.ok ⟨path, some x, none⟩]
      | none => [.error .overflowError]
  | .float x => [.ok ⟨path, some x, none⟩]
  | .str s => [.ok ⟨path, none, some s⟩]
  | _ => []

/-- `f"{path}.{key}"`. -/
def dotted (path key : Str) : Str := path ++ 46 :: key

/-- `_iter_value`. -/
def iterValue : Nat → Json → Str → Yields
  | 0, _, _ => [.error .recursionError]
  | frames + 1, .obj fields, path =>
      fields.flatMap fun e => iterValue frames e.2 (dotted path e.1)
  | frames + 1, .arr xs, path =>
      xs.zipIdx.flatMap fun e => iterValue frames e.1 (dotted path (decimal e.2))
  | _ + 1, scalar, path => scalarToMetric path scalar

/-- `f"{start}.{key}" if start else key`. -/
def rooted (start key : Str) : Str := if start = [] then key else dotted start key

/-- `_iter_metrics`. -/
def iterMetrics (frames : Nat) (payload : Json) (start : Str) : Yields :=
  match payload with
  | .obj fields => fields.flatMap fun e => iterValue frames e.2 (rooted start e.1)
  | .arr xs => xs.zipIdx.flatMap fun e => iterValue frames e.1 (rooted start (decimal e.2))
  | scalar => scalarToMetric (if start = [] then lit "value" else start) scalar

def limitText (limit : Nat) : Str := lit "metric expansion exceeds limit of " ++ decimal limit

/-- The loop of `iter_payload_metrics` after `emitted` rows. -/
def limited (limit : Nat) : Nat → Yields → Yields
  | _, [] => []
  | _, .error e :: _ => [.error e]
  | emitted, .ok m :: rest =>
      if limit ≤ emitted then [.error (.expansionLimit (limitText limit))]
      else .ok m :: limited limit (emitted + 1) rest

def iterPayloadMetrics (frames : Nat) (payload : Json) (start : Str) (limit : Option Nat) : Yields :=
  match limit with
  | none => iterMetrics frames payload start
  | some n => limited n 0 (iterMetrics frames payload start)

end Uns.Historian
