/-
# `Model.ContextCache` — the cache of `TopicContextResolver` while loads are in flight

`resolve` looks into the cache, and if the topic is not there it reads the Ancestors and then the
Metric Definitions of the deepest of them, and stores what it made of both.  `refresh` forgets the
cache, but not the loads that have read already: such a load stores its result afterwards, and later
calls find it (`found_after_put`).  In the runs where no load stores what it read before a refresh,
no call returns what was read before it began (`resolve_fresh`).
-/
import UnifiedNamespace.Lib.Interleaving
import UnifiedNamespace.Model.TopicResolution

namespace Uns.Model

open Py Lib

/-! ## What is read -/

/-- A row of Metric Definitions, with its other columns as `info`. -/
structure MetricDefinition (Info : Type) where
  assetId : Option Nat
  metricKey : Str
  info : Info

/-- The Asset Model as `_load` reads it, with the other columns of an Asset by its identity. -/
structure AssetFacts (Facts Info : Type) where
  assets : AssetTable
  facts : Nat → Facts
  definitions : List (MetricDefinition Info)

/-- `metric_definitions_for` an Asset: those of every Asset first. -/
def metricDefinitionsFor {Info : Type} (definitions : List (MetricDefinition Info)) (assetId : Nat)
    (metricPathPrefix : Str) : List (MetricDefinition Info) :=
  let starting := definitions.filter fun definition => metricPathPrefix.isPrefixOf definition.metricKey
  starting.filter (fun definition => definition.assetId = none) ++
    starting.filter (fun definition => definition.assetId = some assetId)

/-- A dictionary of pairs, of which the later win. -/
def dictOf {Value : Type} (pairs : List (Str × Value)) : Dict Str Value :=
  pairs.foldl (fun d pair => d.update pair.1 pair.2 fun _ => pair.2) .empty

/-- What the Asset Model knows about one topic. -/
structure Enrichment (Facts Info : Type) where
  topic : Str
  assetId : Nat
  assetPath : Str
  assetLevel : Str
  metricPath : Str
  /-- Segment and columns of the Ancestors by their level. -/
  levels : Dict Str (Str × Facts)
  definitions : Dict Str Info

/-! ## Calls -/

variable {Facts Info : Type}

/-- A row of `ancestors_of` with its columns. -/
abbrev Ancestor (Facts : Type) := (Str × Nat × AssetRow) × Facts

/-- How far a call of `resolve` is.  It began after `started` refreshes, and its first read was made
after `read` of them. -/
inductive Call (Facts Info : Type) where
  | called (topic : Str)
  | reading (topic : Str) (started : Nat)
  | ancestors (topic : Str) (started read : Nat) (ancestors : List (Ancestor Facts))
  | deepest (topic : Str) (started read : Nat) (ancestors : List (Ancestor Facts)) (asset : Ancestor Facts)
  | definitions (topic : Str) (started read : Nat) (ancestors : List (Ancestor Facts)) (asset : Ancestor Facts)
      (definitions : List (MetricDefinition Info))
  | returned (started read : Nat) (context : Option (Enrichment Facts Info))

/-- An entry, and after how many refreshes its first read was made. -/
structure Cached (Facts Info : Type) where
  time : ℚ
  context : Option (Enrichment Facts Info)
  read : Nat

structure Resolver (Facts Info : Type) where
  model : AssetFacts Facts Info
  /-- The least recently used first. -/
  cache : Dict Str (Cached Facts Info)
  /-- How many refreshes there were. -/
  refreshes : Nat

/-- `move_to_end`. -/
def moveToEnd (cache : Dict Str (Cached Facts Info)) (topic : Str) (entry : Cached Facts Info) :
    Dict Str (Cached Facts Info) := (cache.erase topic).update topic entry fun _ => entry

/-- `popitem(last=False)`, several times. -/
def popItems (cache : Dict Str (Cached Facts Info)) (count : Nat) : Dict Str (Cached Facts Info) where
  entries := cache.entries.drop count
  nodup := cache.nodup.sublist ((List.drop_sublist _ _).map _)

/-- `_get_cached`. -/
def getCached (ttlSeconds now : ℚ) (cache : Dict Str (Cached Facts Info)) (topic : Str) :
    Option (Cached Facts Info) × Dict Str (Cached Facts Info) :=
  match cache.get? topic with
  | none => (none, cache)
  | some entry =>
      if now - entry.time > ttlSeconds then (none, cache.erase topic) else (some entry, moveToEnd cache topic entry)

/-- `_put_cached`. -/
def putCached (cacheSize : Nat) (cache : Dict Str (Cached Facts Info)) (topic : Str) (entry : Cached Facts Info) :
    Dict Str (Cached Facts Info) :=
  let stored := moveToEnd cache topic entry
  popItems stored (stored.entries.length - cacheSize)

/-- The context that `_load` builds. -/
def enrichment (topic : Str) (ancestors : List (Ancestor Facts)) (asset : Ancestor Facts)
    (definitions : List (MetricDefinition Info)) : Enrichment Facts Info where
  topic := topic
  assetId := asset.1.2.1
  assetPath := asset.1.1
  assetLevel := asset.1.2.2.level
  metricPath := metricPathBelow topic asset.1.1
  levels := dictOf (ancestors.map fun ancestor => (ancestor.1.2.2.level, ancestor.1.2.2.segment, ancestor.2))
  definitions := dictOf (definitions.map fun definition => (definition.metricKey, definition.info))

/-- Up to the next `await`, at the time `now`; a read and what follows it are two steps. -/
def resolveStep (cacheSize : Nat) (ttlSeconds now : ℚ) (s : Resolver Facts Info) :
    Call Facts Info → Resolver Facts Info × Call Facts Info
  | .called topic =>
      match getCached ttlSeconds now s.cache topic with
      | (some entry, cache) => ({ s with cache := cache }, .returned s.refreshes entry.read entry.context)
      | (none, cache) => ({ s with cache := cache }, .reading topic s.refreshes)
  | .reading topic started =>
      (s, .ancestors topic started s.refreshes
        ((ancestorsOf s.model.assets topic).map fun row => (row, s.model.facts row.2.1)))
  | .ancestors topic started read ancestors =>
      match ancestors.getLast? with
      | none => ({ s with cache := putCached cacheSize s.cache topic ⟨now, none, read⟩ }, .returned started read none)
      | some asset => (s, .deepest topic started read ancestors asset)
  | .deepest topic started read ancestors asset =>
      (s, .definitions topic started read ancestors asset
        (metricDefinitionsFor s.model.definitions asset.1.2.1 (metricPathBelow topic asset.1.1)))
  | .definitions topic started read ancestors asset definitions =>
      let context := enrichment topic ancestors asset definitions
      ({ s with cache := putCached cacheSize s.cache topic ⟨now, some context, read⟩ },
        .returned started read (some context))
  | .returned started read context => (s, .returned started read context)

/-- What happens besides the calls. -/
inductive Event (Facts Info : Type) where
  | refresh
  | edit (model : AssetFacts Facts Info)

def Resolver.on (s : Resolver Facts Info) : Event Facts Info → Resolver Facts Info
  | .refresh => { s with cache := .empty, refreshes := s.refreshes + 1 }
  | .edit model => { s with model := model }

/-- The calls, with the reading of the clock at each step. -/
def resolving (cacheSize : Nat) (ttlSeconds : ℚ) :
    Program (Resolver Facts Info) (Call Facts Info) ℚ (Event Facts Info) where
  advance now s call := resolveStep cacheSize ttlSeconds now s call
  disturb event s := s.on event
  entry call := ∃ topic, call = .called topic

abbrev Calls (Facts Info : Type) := Config Nat (Resolver Facts Info) (Call Facts Info)

/-- An empty cache, and calls that have not begun. -/
def Begins (c : Calls Facts Info) : Prop := c.shared.cache = .empty ∧ ∀ i, ∃ topic, c.locals i = .called topic

/-- No call has returned what was read before a refresh that was before it began. -/
def Fresh (c : Calls Facts Info) : Prop :=
  ∀ i started read context, c.locals i = .returned started read context → started ≤ read

/-- The topic that the call's next step stores, and after how many refreshes it was read. -/
def Call.stores : Call Facts Info → Option (Str × Nat)
  | .ancestors topic _ read rows => if rows.isEmpty then some (topic, read) else none
  | .definitions topic _ read _ _ _ => some (topic, read)
  | _ => none

/-- No load stores what it read before a refresh. -/
def StoresCurrent (c : Calls Facts Info) : Move Nat (Call Facts Info) ℚ (Event Facts Info) → Prop
  | .advance i _ => (c.locals i).stores.all (fun stored => decide (stored.2 = c.shared.refreshes)) = true
  | _ => True

instance (c : Calls Facts Info) (m : Move Nat (Call Facts Info) ℚ (Event Facts Info)) :
    Decidable (StoresCurrent c m) :=
  match m with
  | .start _ _ => inferInstanceAs (Decidable True)
  | .advance _ _ => inferInstanceAs (Decidable (_ = true))
  | .disturb _ => inferInstanceAs (Decidable True)

/-! ## The cache -/

section

variable {cache : Dict Str (Cached Facts Info)} {topic : Str} {entry : Cached Facts Info} {e : Str × Cached Facts Info}

theorem mem_moveToEnd (h : e ∈ (moveToEnd cache topic entry).entries) : e ∈ cache.entries ∨ e = (topic, entry) :=
  (Dict.mem_entries_update h).imp_left Dict.mem_entries_erase

theorem mem_putCached {cacheSize : Nat} (h : e ∈ (putCached cacheSize cache topic entry).entries) :
    e ∈ cache.entries ∨ e = (topic, entry) := mem_moveToEnd (List.mem_of_mem_drop h)

theorem getCached_some {ttlSeconds now : ℚ} {cache' : Dict Str (Cached Facts Info)}
    (h : getCached ttlSeconds now cache topic = (some entry, cache')) :
    cache.get? topic = some entry ∧ cache' = moveToEnd cache topic entry := by
  rw [getCached] at h
  cases hfound : cache.get? topic with
  | none =>
      rw [hfound] at h
      cases h
  | some found =>
      rw [hfound] at h
      change (if now - found.time > ttlSeconds then (none, cache.erase topic) else
        (some found, moveToEnd cache topic found)) = _ at h
      split at h
      · cases h
      · cases h
        exact ⟨rfl, rfl⟩

theorem mem_getCached {ttlSeconds now : ℚ} (h : e ∈ (getCached ttlSeconds now cache topic).2.entries) :
    e ∈ cache.entries := by
  rw [getCached] at h
  cases hfound : cache.get? topic with
  | none => rwa [hfound] at h
  | some found =>
      rw [hfound] at h
      change e ∈ (if now - found.time > ttlSeconds then (none, cache.erase topic) else
        (some found, moveToEnd cache topic found)).2.entries at h
      split at h
      · exact Dict.mem_entries_erase h
      · rcases mem_moveToEnd h with h | rfl
        · exact h
        · exact Dict.mem_of_get? hfound

/-- What was stored last is in the cache. -/
theorem get?_putCached {cacheSize : Nat} (hsize : 0 < cacheSize) :
    (putCached cacheSize cache topic entry).get? topic = some entry := by
  have hlast : (moveToEnd cache topic entry).entries = (cache.erase topic).entries ++ [(topic, entry)] :=
    Dict.entries_update_of_none _ _ (Dict.get?_erase_self _ _)
  refine Dict.get?_of_mem ?_
  change _ ∈ (moveToEnd cache topic entry).entries.drop _
  rw [hlast, List.length_append, List.length_singleton, List.drop_append_of_le_length (by omega)]
  exact List.mem_append_right _ List.mem_cons_self

end

/-! ## Runs -/

/-- The cache holds what was read after the last refresh. -/
def Current (s : Resolver Facts Info) : Prop := ∀ e ∈ s.cache.entries, e.2.read = s.refreshes

/-- The first read of a call is made after it began. -/
def ReadsLater (s : Resolver Facts Info) : Call Facts Info → Prop
  | .called _ => True
  | .reading _ started => started ≤ s.refreshes
  | .ancestors _ started read _ => started ≤ read
  | .deepest _ started read _ _ => started ≤ read
  | .definitions _ started read _ _ _ => started ≤ read
  | .returned started read _ => started ≤ read

section

variable {cacheSize : Nat} {ttlSeconds now : ℚ} {s : Resolver Facts Info} {call : Call Facts Info}

theorem refreshes_resolveStep : (resolveStep cacheSize ttlSeconds now s call).1.refreshes = s.refreshes := by
  cases call with
  | called topic =>
      rw [resolveStep]
      split <;> rfl
  | ancestors topic started read rows =>
      rw [resolveStep]
      split <;> rfl
  | reading _ _ => rfl
  | deepest _ _ _ _ _ => rfl
  | definitions _ _ _ _ _ _ => rfl
  | returned _ _ _ => rfl

theorem current_put {topic : Str} {entry : Cached Facts Info} (h : Current s) (hread : entry.read = s.refreshes) :
    Current { s with cache := putCached cacheSize s.cache topic entry } := by
  intro e he
  rcases mem_putCached he with he | rfl
  · exact h e he
  · exact hread

theorem current_resolveStep (h : Current s) (hstores : ∀ stored, call.stores = some stored → stored.2 = s.refreshes) :
    Current (resolveStep cacheSize ttlSeconds now s call).1 := by
  cases call with
  | called topic =>
      rw [resolveStep]
      have hcache : ∀ e ∈ (getCached ttlSeconds now s.cache topic).2.entries, e.2.read = s.refreshes :=
        fun e he => h e (mem_getCached he)
      split <;> rename_i hget <;> rw [hget] at hcache <;> exact hcache
  | ancestors topic started read rows =>
      rw [resolveStep]
      split
      · rename_i hnone
        refine current_put h (hstores (topic, read) ?_)
        rw [List.getLast?_eq_none_iff.mp hnone]
        rfl
      · exact h
  | definitions topic started read rows asset definitions => exact current_put h (hstores _ rfl)
  | reading _ _ => exact h
  | deepest _ _ _ _ _ => exact h
  | returned _ _ _ => exact h

theorem readsLater_resolveStep (h : Current s) (hcall : ReadsLater s call) :
    ReadsLater (resolveStep cacheSize ttlSeconds now s call).1 (resolveStep cacheSize ttlSeconds now s call).2 := by
  cases call with
  | called topic =>
      rw [resolveStep]
      split
      · rename_i entry cache hget
        exact (h _ (Dict.mem_of_get? (getCached_some hget).1)).ge
      · exact le_refl s.refreshes
  | reading topic started => exact hcall
  | ancestors topic started read rows =>
      rw [resolveStep]
      split <;> exact hcall
  | deepest _ _ _ _ _ => exact hcall
  | definitions _ _ _ _ _ _ => exact hcall
  | returned _ _ _ => exact hcall

theorem ReadsLater.mono {t : Resolver Facts Info} (hle : s.refreshes ≤ t.refreshes) (h : ReadsLater s call) :
    ReadsLater t call := by
  cases call with
  | reading topic started => exact h.trans hle
  | called _ => exact h
  | ancestors _ _ _ _ => exact h
  | deepest _ _ _ _ _ => exact h
  | definitions _ _ _ _ _ _ => exact h
  | returned _ _ _ => exact h

end

variable {cacheSize : Nat} {ttlSeconds : ℚ} {c : Calls Facts Info}

/-- In the runs where no load stores what it read before a refresh, calls return what was read after
they began. -/
theorem resolve_fresh
    (h : (((resolving cacheSize ttlSeconds).system Nat Begins).restrict StoresCurrent).Reachable c) : Fresh c := by
  have hinv := Program.invariant (I := Current) (A := ReadsLater) (G := fun s t => s.refreshes ≤ t.refreshes)
    ?_ ?_ ?_ ?_ ?_ h
  · intro i started read context hreturned
    have hlater := hinv.2 i
    rwa [hreturned] at hlater
  · rintro c ⟨hempty, hbegin⟩
    refine ⟨fun e he => ?_, fun i => ?_⟩
    · rw [hempty] at he
      cases he
    · obtain ⟨topic, htopic⟩ := hbegin i
      rw [htopic]
      trivial
  · rintro s _ ⟨topic, rfl⟩
    trivial
  · intro c i now hok hcurrent hlater
    refine ⟨current_resolveStep hcurrent fun stored hstored => ?_, readsLater_resolveStep hcurrent hlater,
      refreshes_resolveStep.ge⟩
    change (c.locals i).stores.all _ = true at hok
    rw [hstored] at hok
    exact of_decide_eq_true hok
  · intro event s hcurrent
    cases event with
    | refresh => exact ⟨fun e he => absurd he List.not_mem_nil, Nat.le_succ _⟩
    | edit model => exact ⟨hcurrent, le_rfl⟩
  · exact fun s t call hle hcall => hcall.mono hle

/-- What a load has stored, the next call of the topic returns. -/
theorem found_after_put {s : Resolver Facts Info} {call : Call Facts Info} {topic : Str} {read : Nat} {now later : ℚ}
    (hstores : call.stores = some (topic, read)) (hsize : 0 < cacheSize) (hsoon : later - now ≤ ttlSeconds) :
    ∃ context, (resolveStep cacheSize ttlSeconds later (resolveStep cacheSize ttlSeconds now s call).1
      (.called topic)).2 = .returned s.refreshes read context := by
  have hhit : ∀ context, getCached ttlSeconds later (putCached cacheSize s.cache topic ⟨now, context, read⟩) topic =
      (some ⟨now, context, read⟩,
        moveToEnd (putCached cacheSize s.cache topic ⟨now, context, read⟩) topic ⟨now, context, read⟩) := by
    intro context
    rw [getCached, get?_putCached hsize]
    exact if_neg (not_lt.mpr hsoon)
  have hput : ∃ context, (resolveStep cacheSize ttlSeconds now s call).1 =
      { s with cache := putCached cacheSize s.cache topic ⟨now, context, read⟩ } := by
    cases call with
    | ancestors asked started first rows =>
        cases rows with
        | nil =>
            cases hstores
            exact ⟨none, rfl⟩
        | cons row rows => cases hstores
    | definitions asked started first rows asset definitions =>
        cases hstores
        exact ⟨_, rfl⟩
    | called _ => cases hstores
    | reading _ _ => cases hstores
    | deepest _ _ _ _ _ => cases hstores
    | returned _ _ _ => cases hstores
  obtain ⟨context, hput⟩ := hput
  refine ⟨context, ?_⟩
  rw [hput, resolveStep]
  change (match getCached ttlSeconds later (putCached cacheSize s.cache topic ⟨now, context, read⟩) topic with
    | (some entry, cache) => (_, _)
    | (none, cache) => (_, _)).2 = _
  rw [hhit]

/-! ## A load across a refresh -/

def emptyModel : AssetFacts Unit Unit := ⟨.empty, fun _ => (), []⟩

/-- Nothing is modelled, and every call asks for one topic. -/
def firstCalls : Calls Unit Unit := ⟨⟨emptyModel, .empty, 0⟩, fun _ => .called (lit "acme/line/speed")⟩

theorem begins_firstCalls : Begins firstCalls := ⟨rfl, fun _ => ⟨_, rfl⟩⟩

/-- A call that reads and stores, a refresh, and another call. -/
def loadThenRefresh : List (Move Nat (Call Unit Unit) ℚ (Event Unit Unit)) :=
  [.advance 0 0, .advance 0 0, .advance 0 0, .disturb .refresh, .advance 1 0, .advance 1 0, .advance 1 0]

/-- A call that has read, and a refresh. -/
def refreshDuringLoad : List (Move Nat (Call Unit Unit) ℚ (Event Unit Unit)) :=
  [.advance 0 0, .advance 0 0, .disturb .refresh]

theorem loadThenRefresh_fresh : Fresh ((resolving 4096 300).run firstCalls loadThenRefresh) := by
  have hstart : (((resolving 4096 300).system Nat Begins).restrict StoresCurrent).Reachable firstCalls :=
    .init begins_firstCalls
  refine resolve_fresh (Program.reachable_run_restrict hstart ?_ (by decide +kernel))
  simp [loadThenRefresh, Program.Allowed]

/-- The second call began after the refresh, and is given what the first one read before it. -/
theorem stale_after_refresh : ¬ ∀ c : Calls Unit Unit,
    ((resolving 4096 300).system Nat Begins).Reachable c → Fresh c := by
  intro h
  have hstart : ((resolving 4096 300).system Nat Begins).Reachable firstCalls := .init begins_firstCalls
  have hread : ((resolving 4096 300).system Nat Begins).Reachable
      ((resolving 4096 300).run firstCalls refreshDuringLoad) :=
    Program.reachable_run hstart (by simp [refreshDuringLoad, Program.Allowed])
  have hstores : (((resolving 4096 300).run firstCalls refreshDuringLoad).locals 0).stores =
      some (lit "acme/line/speed", 0) := by decide +kernel
  obtain ⟨context, hfound⟩ := @found_after_put Unit Unit 4096 300
    ((resolving 4096 300).run firstCalls refreshDuringLoad).shared _ _ _ 0 0 hstores (by decide) (by norm_num)
  have hboth : ((resolving 4096 300).system Nat Begins).Reachable
      ((resolving 4096 300).run ((resolving 4096 300).run firstCalls refreshDuringLoad) [.advance 0 0, .advance 1 0]) :=
    Program.reachable_run hread (by simp [Program.Allowed])
  have hstale : (1 : Nat) ≤ 0 := h _ hboth 1 1 0 context hfound
  exact absurd hstale (by decide)

end Uns.Model
