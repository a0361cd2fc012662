/-
# `Config.UnsIngest` — which topics belong in the history

The mapper ingest policy of `uns_ingest.py`: platform observability topics are
not historic events, and Sparkplug topics are classified by their message type.
-/
import UnifiedNamespace.Python.Str

namespace Uns

open Py

/-- The kinds of historic event. -/
inductive EventKind where
  | telemetry
  | sparkplugRaw
  | lifecycle
  | command
  | businessEvent
  | stateSnapshot
  deriving DecidableEq

def EventKind.text : EventKind → Str
  | telemetry => lit "telemetry"
  | sparkplugRaw => lit "sparkplug_raw"
  | lifecycle => lit "lifecycle"
  | command => lit "command"
  | businessEvent => lit "business_event"
  | stateSnapshot => lit "state_snapshot"

def sparkplugPrefix : Str := lit "spBv1.0/"

def sparkplugStatePrefix : Str := lit "spBv1.0/STATE/"

def platformObservabilityPrefix : Str := lit "uns/platform/"

/-- `s.startswith(p)`. -/
def startsWith (s p : Str) : Bool := p.isPrefixOf s

/-- `s.split("/")`. -/
def splitTopic (s : Str) : List Str := s.splitOn 47

/-- True when a published topic belongs in Unified Namespace history. -/
def isHistoricEventTopic (topic : Str) : Bool :=
  topic ≠ [] && !startsWith topic platformObservabilityPrefix

def lifecycleMessageTypes : List Str :=
  [lit "NBIRTH", lit "DBIRTH", lit "NDEATH", lit "DDEATH", lit "STATE"]

def commandMessageTypes : List Str := [lit "NCMD", lit "DCMD"]

/-- Classify MQTT traffic for the canonical historic event envelope. -/
def classifyEventKind (topic : Str) : EventKind :=
  if !startsWith topic sparkplugPrefix then .telemetry
  else if startsWith topic sparkplugStatePrefix then .lifecycle
  else
    match (splitTopic topic)[2]? with
    | some messageType =>
        if messageType ∈ commandMessageTypes then .command
        else if messageType ∈ lifecycleMessageTypes then .lifecycle
        else .sparkplugRaw
    | none => .sparkplugRaw

end Uns
