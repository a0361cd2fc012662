/-
# `Historian.LateRefresh` — the worklist of late days

`aggregate_refresh.py`: a worker claims the oldest pending day in one transaction.
In a second one it refreshes both aggregates over the day and marks the generation
it has claimed; when no row takes the mark, that transaction is rolled back.

Any number of workers run over the tables, and any batch of the historian may be
committed between two of their statements.  A worker that raises or dies starts
again with a claim.  `Shared.log` records, newest first, what the statement of the
result is about: the bumps, and of each refresh when it began, what it called and
what it marked.
-/
import UnifiedNamespace.Lib.Interleaving
import UnifiedNamespace.Historian.OneByOne

namespace Uns.Historian

open Py Lib

/-! ## The worker -/

/-- `METRICS_1M_VIEW` and `METRICS_1H_VIEW`. -/
inductive View where
  | metrics1m
  | metrics1h
  deriving DecidableEq

structure RefreshClaim where
  utcDay : Date
  generation : Nat

/-- The day as a half-open window; the last day of the calendar has no end. -/
def utcDayBounds (day : Date) : Option (Datetime × Datetime) :=
  day.next.map fun next => (day.at 0, next.at 0)

def Date.le (a b : Date) : Prop :=
  a.year < b.year ∨ a.year = b.year ∧ (a.month < b.month ∨ a.month = b.month ∧ a.day ≤ b.day)

instance : DecidableRel Date.le := fun _ _ => inferInstanceAs (Decidable (_ ∨ _))

/-- `_PENDING_WORK`; `SKIP LOCKED` passes over the days another transaction has locked. -/
def claimPending (locked : List Date) (t : Tables) : Option RefreshClaim :=
  let rows := t.worklist.entries.filter fun row => row.2.processed < row.2.pending ∧ row.1 ∉ locked
  (rows.insertionSort fun a b => Date.le a.1 b.1).head?.map fun row => ⟨row.1, row.2.pending⟩

/-- The row that `_MARK_PROCESSED` leaves, when the row meets its condition. -/
def Generations.mark (g : Generations) (generation : Nat) : Option Generations :=
  if h : generation ≤ g.pending ∧ g.processed < generation then some ⟨g.pending, generation, h.1⟩
  else none

def setWork (t : Tables) (day : Date) (row : Generations) : Tables :=
  { t with worklist := t.worklist.update day row fun _ => row }

inductive RefreshEvent where
  | bumped (day : Date)
  | began (refresh : Nat) (day : Date)
  | called (refresh : Nat) (view : View) (window : Datetime × Datetime)
  | marked (refresh : Nat) (day : Date) (generation : Nat)
  deriving DecidableEq

structure Shared where
  tables : Tables
  log : List RefreshEvent

def Shared.record (s : Shared) (e : RefreshEvent) : Shared := { s with log := e :: s.log }

/-- What the next statement of a worker meets: the days that others have locked, and whether it
raises. -/
structure Answer where
  locked : List Date
  raises : Bool

/-- Where a worker is; a refresh is known by the length of the log when it began. -/
inductive RefreshStage where
  | idle
  | claimed (claim : RefreshClaim)
  | refreshing (refresh : Nat) (claim : RefreshClaim) (views : List View)

/-- One statement of `run_once`, with what follows it up to the next. -/
def RefreshStage.advance (a : Answer) (s : Shared) : RefreshStage → Shared × RefreshStage
  | .idle =>
      if a.raises then (s, .idle)
      else
        match claimPending a.locked s.tables with
        | none => (s, .idle)
        | some claim => (s, .claimed claim)
  | .claimed claim =>
      if a.raises then (s, .idle)
      else
        (s.record (.began s.log.length claim.utcDay),
          .refreshing s.log.length claim [.metrics1m, .metrics1h])
  | .refreshing refresh claim (view :: views) =>
      match utcDayBounds claim.utcDay with
      | none => (s, .idle)
      | some window =>
          (s.record (.called refresh view window),
            if a.raises then .idle else .refreshing refresh claim views)
  | .refreshing refresh claim [] =>
      if a.raises then (s, .idle)
      else
        match (s.tables.worklist.get? claim.utcDay).bind (·.mark claim.generation) with
        | none => (s, .idle)
        | some row =>
            ({ tables := setWork s.tables claim.utcDay row
               log := .marked refresh claim.utcDay claim.generation :: s.log }, .idle)

/-! ## The historian beside it -/

/-- A call of `persist_batch`. -/
structure PersistCall where
  setting : Setting
  epoch : Nat
  events : List ConsumedEvent

/-- The days the call bumps, in order. -/
def PersistCall.bumps (call : PersistCall) (t : Tables) : List Date :=
  match prepare call.setting call.events with
  | .ok (rows, _) => lateDays (insertedRows call.epoch t rows)
  | .error _ => []

def Shared.persist (s : Shared) (call : PersistCall) : Shared :=
  match persistBatch call.setting call.epoch call.events s.tables with
  | .error _ => s
  | .ok (t, _) => ⟨t, (call.bumps s.tables).foldl (fun log day => .bumped day :: log) s.log⟩

/-- Workers and historian over one database. -/
def refreshProgram : Program Shared RefreshStage Answer PersistCall where
  advance := RefreshStage.advance
  disturb call s := s.persist call
  entry stage := stage = .idle

/-- The worklist as the migration creates it, and no worker at work. -/
def refreshStart {ι : Type} (c : Config ι Shared RefreshStage) : Prop :=
  c.shared.tables.worklist = .empty ∧ c.shared.log = [] ∧ ∀ i, c.locals i = .idle

/-! ## What the log says of the worklist -/

section Log

variable {day : Date} {log newer older : List RefreshEvent}

/-- The bumps of a day. -/
def bumps (day : Date) (log : List RefreshEvent) : Nat :=
  log.countP fun
    | .bumped d => decide (d = day)
    | _ => false

theorem bumps_append (newer older : List RefreshEvent) :
    bumps day (newer ++ older) = bumps day newer + bumps day older := List.countP_append

theorem bumps_pos : 0 < bumps day log ↔ .bumped day ∈ log := by
  rw [bumps, List.countP_pos_iff]
  constructor
  · rintro ⟨e, he, hday⟩
    cases e with
    | bumped d =>
        obtain rfl : d = day := of_decide_eq_true hday
        exact he
    | began n d => cases hday
    | called n v w => cases hday
    | marked n d g => cases hday
  · intro h
    exact ⟨_, h, decide_eq_true rfl⟩

/-- A call of the view over the day, made after so many bumps of it. -/
def Covered (log : List RefreshEvent) (day : Date) (view : View) (generation : Nat) : Prop :=
  ∃ newer n window older, log = newer ++ .called n view window :: older ∧
    utcDayBounds day = some window ∧ generation ≤ bumps day older

theorem Covered.append {view : View} {generation : Nat} (h : Covered older day view generation)
    (newer : List RefreshEvent) : Covered (newer ++ older) day view generation := by
  obtain ⟨mid, n, window, rest, rfl, hwindow, hle⟩ := h
  exact ⟨newer ++ mid, n, window, rest, (List.append_assoc ..).symm, hwindow, hle⟩

/-- The refresh began after so many bumps of the day. -/
def BeganAfter (log : List RefreshEvent) (n : Nat) (day : Date) (generation : Nat) : Prop :=
  ∃ newer older, log = newer ++ .began n day :: older ∧ generation ≤ bumps day older

theorem BeganAfter.append {n generation : Nat} (h : BeganAfter older n day generation)
    (newer : List RefreshEvent) : BeganAfter (newer ++ older) n day generation := by
  obtain ⟨mid, rest, rfl, hle⟩ := h
  exact ⟨newer ++ mid, rest, (List.append_assoc ..).symm, hle⟩

theorem BeganAfter.le {n generation : Nat} (h : BeganAfter log n day generation) :
    generation ≤ bumps day log := by
  obtain ⟨newer, older, rfl, hle⟩ := h
  rw [bumps_append]
  exact le_trans hle (le_trans (List.sublist_cons_self _ _).countP_le (Nat.le_add_left _ _))

/-- A mark of the day, by a refresh that began after so many bumps of it. -/
def MarkedFrom (log : List RefreshEvent) (day : Date) (generation : Nat) : Prop :=
  ∃ newer n older, log = newer ++ .marked n day generation :: older ∧
    BeganAfter older n day generation

theorem MarkedFrom.append {generation : Nat} (h : MarkedFrom older day generation)
    (newer : List RefreshEvent) : MarkedFrom (newer ++ older) day generation := by
  obtain ⟨mid, n, rest, rfl, hbegan⟩ := h
  exact ⟨newer ++ mid, n, rest, (List.append_assoc ..).symm, hbegan⟩

end Log

structure Logged (s : Shared) : Prop where
  absent : ∀ day, s.tables.worklist.get? day = none → bumps day s.log = 0
  pending : ∀ day row, s.tables.worklist.get? day = some row →
    row.pending = bumps day s.log ∧ 0 < row.pending
  numbered : ∀ newer n day older, s.log = newer ++ .began n day :: older → n = older.length
  processed : ∀ day row, s.tables.worklist.get? day = some row → row.processed = 0 ∨
    MarkedFrom s.log day row.processed ∧ ∀ view, Covered s.log day view row.processed

/-- What a worker may rely on. -/
def RefreshStage.Holds (s : Shared) : RefreshStage → Prop
  | .idle => True
  | .claimed claim => claim.generation ≤ bumps claim.utcDay s.log
  | .refreshing n claim views =>
      BeganAfter s.log n claim.utcDay claim.generation ∧
        ∀ view ∉ views, Covered s.log claim.utcDay view claim.generation

/-- The log only grows, which is all that a worker's facts need. -/
def LogGrows (s t : Shared) : Prop := ∃ newer, t.log = newer ++ s.log

theorem RefreshStage.Holds.mono {s t : Shared} {stage : RefreshStage} (hgrows : LogGrows s t)
    (h : stage.Holds s) : stage.Holds t := by
  obtain ⟨newer, hlog⟩ := hgrows
  cases stage with
  | idle => trivial
  | claimed claim =>
      change _ ≤ bumps _ _ at h ⊢
      rw [hlog, bumps_append]
      exact le_trans h (Nat.le_add_left _ _)
  | refreshing n claim views =>
      change _ ∧ _ at h
      refine ⟨hlog ▸ h.1.append newer, ?_⟩
      intro view hview
      exact hlog ▸ (h.2 view hview).append newer

/-! ## What a step keeps -/

section Steps

variable {s : Shared} {day : Date}

/-- Where the log splits at an event of a refresh, it may be split at the newest event. -/
theorem numbered_cons {log : List RefreshEvent} {e : RefreshEvent}
    (h : ∀ newer n day older, log = newer ++ .began n day :: older → n = older.length)
    (he : ∀ n day, e = .began n day → n = log.length) :
    ∀ newer n day older, e :: log = newer ++ .began n day :: older → n = older.length := by
  intro newer n day older hsplit
  cases newer with
  | nil =>
      rw [List.nil_append, List.cons.injEq] at hsplit
      rw [← hsplit.2]
      exact he n day hsplit.1
  | cons f newer =>
      rw [List.cons_append, List.cons.injEq] at hsplit
      exact h newer n day older hsplit.2

/-- An event that is no bump. -/
theorem Logged.record (h : Logged s) {e : RefreshEvent} (hbump : ∀ day, e ≠ .bumped day)
    (hbegan : ∀ n day, e = .began n day → n = s.log.length) : Logged (s.record e) := by
  have hcount : ∀ day, bumps day (e :: s.log) = bumps day s.log := by
    intro day
    cases e with
    | bumped d => exact absurd rfl (hbump d)
    | began n d => rfl
    | called n v w => rfl
    | marked n d g => rfl
  refine ⟨?_, ?_, numbered_cons h.numbered hbegan, ?_⟩
  · intro day hrow
    exact (hcount day).trans (h.absent day hrow)
  · intro day row hrow
    obtain ⟨hp, hpos⟩ := h.pending day row hrow
    exact ⟨hp.trans (hcount day).symm, hpos⟩
  · intro day row hrow
    rcases h.processed day row hrow with h0 | ⟨hm, hc⟩
    · exact .inl h0
    · exact .inr ⟨hm.append [e], fun view => (hc view).append [e]⟩

def Shared.bump (s : Shared) (day : Date) : Shared := ⟨bumpLate s.tables day, .bumped day :: s.log⟩

theorem bumps_bumped (d : Date) (log : List RefreshEvent) :
    bumps d (.bumped day :: log) = if d = day then bumps d log + 1 else bumps d log := by
  rw [bumps, List.countP_cons, ← bumps]
  by_cases h : d = day
  · rw [if_pos h, if_pos (decide_eq_true h.symm)]
  · rw [if_neg h, if_neg (fun hd => h (of_decide_eq_true hd).symm), Nat.add_zero]

/-- The row of a day after a bump. -/
theorem get?_bumpLate (t : Tables) {d : Date} {row : Generations}
    (h : (bumpLate t day).worklist.get? d = some row) :
    t.worklist.get? d = some row ∧ d ≠ day ∨
      d = day ∧ row = (((t.worklist.get? day).getD ⟨0, 0, le_rfl⟩).bump) := by
  by_cases hd : d = day
  · subst hd
    rw [bumpLate, Dict.get?_update_self, Option.some.injEq] at h
    exact .inr ⟨rfl, h.symm⟩
  · rw [bumpLate, Dict.get?_update_ne _ _ _ hd] at h
    exact .inl ⟨h, hd⟩

theorem Logged.bump (h : Logged s) (day : Date) : Logged (s.bump day) := by
  refine ⟨?_, ?_, numbered_cons h.numbered (fun _ _ he => nomatch he), ?_⟩
  · intro d hd
    change (bumpLate s.tables day).worklist.get? d = none at hd
    change bumps d (.bumped day :: s.log) = 0
    by_cases hne : d = day
    · subst hne
      rw [bumpLate, Dict.get?_update_self] at hd
      cases hd
    · rw [bumpLate, Dict.get?_update_ne _ _ _ hne] at hd
      rw [bumps_bumped, if_neg hne]
      exact h.absent d hd
  · intro d row hd
    change row.pending = bumps d (.bumped day :: s.log) ∧ _
    rcases get?_bumpLate s.tables hd with ⟨hold, hne⟩ | ⟨rfl, rfl⟩
    · rw [bumps_bumped, if_neg hne]
      exact h.pending d row hold
    · rw [bumps_bumped, if_pos rfl]
      refine ⟨?_, Nat.succ_pos _⟩
      cases hrow : s.tables.worklist.get? d with
      | none => exact congrArg (· + 1) (h.absent d hrow).symm
      | some row => exact congrArg (· + 1) (h.pending d row hrow).1
  · intro d row hd
    change row.processed = 0 ∨ MarkedFrom (.bumped day :: s.log) d row.processed ∧ _
    have hkept : ∀ g, MarkedFrom s.log d g ∧ (∀ view, Covered s.log d view g) →
        MarkedFrom (.bumped day :: s.log) d g ∧ ∀ view, Covered (.bumped day :: s.log) d view g :=
      fun g hg => ⟨hg.1.append [_], fun view => (hg.2 view).append [_]⟩
    rcases get?_bumpLate s.tables hd with ⟨hold, -⟩ | ⟨rfl, rfl⟩
    · exact (h.processed d row hold).imp_right (hkept _)
    · cases hrow : s.tables.worklist.get? d with
      | none => exact .inl rfl
      | some row => exact (h.processed d row hrow).imp_right (hkept _)

theorem mark_eq_some {g row : Generations} {generation : Nat} (h : g.mark generation = some row) :
    row.pending = g.pending ∧ row.processed = generation ∧ generation ≤ g.pending := by
  rw [Generations.mark] at h
  split at h
  · rename_i hle
    cases h
    exact ⟨rfl, rfl, hle.1⟩
  · cases h

/-- The mark of a refresh that has called both views. -/
theorem Logged.mark (h : Logged s) {refresh generation : Nat} {g row : Generations}
    (hrow : s.tables.worklist.get? day = some g) (hmark : g.mark generation = some row)
    (hbegan : BeganAfter s.log refresh day generation)
    (hcovered : ∀ view, Covered s.log day view generation) :
    Logged ⟨setWork s.tables day row, .marked refresh day generation :: s.log⟩ := by
  obtain ⟨hpending, hprocessed, -⟩ := mark_eq_some hmark
  have hget : ∀ d r, (setWork s.tables day row).worklist.get? d = some r →
      s.tables.worklist.get? d = some r ∧ d ≠ day ∨ d = day ∧ r = row := by
    intro d r hd
    by_cases hne : d = day
    · subst hne
      rw [setWork, Dict.get?_update_self, Option.some.injEq] at hd
      exact .inr ⟨rfl, hd.symm⟩
    · rw [setWork, Dict.get?_update_ne _ _ _ hne] at hd
      exact .inl ⟨hd, hne⟩
  refine ⟨?_, ?_, numbered_cons h.numbered (fun _ _ he => nomatch he), ?_⟩
  · intro d hd
    change (setWork s.tables day row).worklist.get? d = none at hd
    by_cases hne : d = day
    · subst hne
      rw [setWork, Dict.get?_update_self] at hd
      cases hd
    · rw [setWork, Dict.get?_update_ne _ _ _ hne] at hd
      exact h.absent d hd
  · intro d r hd
    change r.pending = bumps d s.log ∧ _
    rcases hget d r hd with ⟨hold, -⟩ | ⟨rfl, rfl⟩
    · exact h.pending d r hold
    · rw [hpending]
      exact h.pending d g hrow
  · intro d r hd
    change r.processed = 0 ∨ MarkedFrom (.marked refresh day generation :: s.log) d r.processed ∧ _
    rcases hget d r hd with ⟨hold, -⟩ | ⟨rfl, rfl⟩
    · rcases h.processed d r hold with h0 | ⟨hm, hc⟩
      · exact .inl h0
      · exact .inr ⟨hm.append [_], fun view => (hc view).append [_]⟩
    · rw [hprocessed]
      exact .inr ⟨⟨[], refresh, s.log, rfl, hbegan⟩, fun view => (hcovered view).append [_]⟩

theorem claimPending_spec {locked : List Date} {t : Tables} {claim : RefreshClaim}
    (h : claimPending locked t = some claim) :
    ∃ row, t.worklist.get? claim.utcDay = some row ∧ row.pending = claim.generation := by
  simp only [claimPending, Option.map_eq_some_iff] at h
  obtain ⟨⟨d, row⟩, hhead, rfl⟩ := h
  have hmem := List.mem_of_mem_head? hhead
  rw [List.mem_insertionSort] at hmem
  exact ⟨row, Dict.get?_of_mem (List.mem_filter.mp hmem).1, rfl⟩

/-- A worker's statement keeps what the log says, and leaves the worker with what it relies on. -/
theorem Logged.advance (h : Logged s) (a : Answer) {stage : RefreshStage} (hstage : stage.Holds s) :
    Logged (stage.advance a s).1 ∧ (stage.advance a s).2.Holds (stage.advance a s).1 ∧
      LogGrows s (stage.advance a s).1 := by
  have hsame : LogGrows s s := ⟨[], rfl⟩
  cases stage with
  | idle =>
      rw [RefreshStage.advance]
      split
      · exact ⟨h, trivial, hsame⟩
      · split
        · exact ⟨h, trivial, hsame⟩
        · rename_i claim hclaim
          obtain ⟨row, hrow, hgen⟩ := claimPending_spec hclaim
          refine ⟨h, ?_, hsame⟩
          change claim.generation ≤ bumps claim.utcDay s.log
          rw [← hgen]
          exact (h.pending _ row hrow).1.le
  | claimed claim =>
      rw [RefreshStage.advance]
      split
      · exact ⟨h, trivial, hsame⟩
      · refine ⟨h.record (fun _ he => nomatch he) ?_, ⟨⟨[], s.log, rfl, hstage⟩, ?_⟩, [_], rfl⟩
        · intro n day he
          cases he
          rfl
        · intro view hview
          cases view with
          | metrics1m => exact absurd List.mem_cons_self hview
          | metrics1h => exact absurd (List.mem_cons_of_mem _ List.mem_cons_self) hview
  | refreshing refresh claim views =>
      obtain ⟨hbegan, hcovered⟩ := hstage
      cases views with
      | cons view views =>
          rw [RefreshStage.advance]
          split
          · exact ⟨h, trivial, hsame⟩
          · rename_i window hwindow
            refine ⟨h.record (fun _ he => nomatch he) (fun _ _ he => nomatch he), ?_, [_], rfl⟩
            split
            · trivial
            · refine ⟨hbegan.append [_], ?_⟩
              intro v hv
              by_cases hnow : v = view
              · subst hnow
                exact ⟨[], refresh, window, s.log, rfl, hwindow, hbegan.le⟩
              · exact (hcovered v (List.not_mem_cons_of_ne_of_not_mem hnow hv)).append [_]
      | nil =>
          rw [RefreshStage.advance]
          split
          · exact ⟨h, trivial, hsame⟩
          · split
            · exact ⟨h, trivial, hsame⟩
            · rename_i row hrow
              obtain ⟨g, hg, hmark⟩ := Option.bind_eq_some_iff.mp hrow
              exact ⟨h.mark hg hmark hbegan (fun view => hcovered view List.not_mem_nil), trivial,
                [_], rfl⟩

/-- A committed batch bumps its late days one after another. -/
theorem persist_ok {call : PersistCall} {t : Tables} {result : BatchPersistResult}
    (h : persistBatch call.setting call.epoch call.events s.tables = .ok (t, result)) :
    t.worklist = ((call.bumps s.tables).foldl bumpLate s.tables).worklist := by
  cases hp : prepare call.setting call.events with
  | error e =>
      rw [persistBatch_of_error hp] at h
      cases h
  | ok p =>
      obtain ⟨rows, ms⟩ := p
      have hbatch := @persistBatch_of_ok call.setting call.epoch s.tables _ _ _ hp
      split at hbatch
      · rw [hbatch] at h
        cases h
      · obtain ⟨u, result', hok, hpersisted⟩ := hbatch
        rw [hok] at h
        cases h
        rw [hpersisted.worklist, PersistCall.bumps, hp]

theorem foldl_bump (days : List Date) (s : Shared) :
    days.foldl Shared.bump s =
      ⟨days.foldl bumpLate s.tables, days.foldl (fun log day => .bumped day :: log) s.log⟩ := by
  induction days generalizing s with
  | nil => rfl
  | cons day days ih => exact ih (s.bump day)

theorem Logged.congr {t : Shared} (h : Logged s) (hwork : t.tables.worklist = s.tables.worklist)
    (hlog : t.log = s.log) : Logged t := by
  refine ⟨?_, ?_, ?_, ?_⟩
  · rw [hwork, hlog]
    exact h.absent
  · rw [hwork, hlog]
    exact h.pending
  · rw [hlog]
    exact h.numbered
  · rw [hwork, hlog]
    exact h.processed

theorem logGrows_bumps (days : List Date) (log : List RefreshEvent) :
    ∃ newer, days.foldl (fun log day => .bumped day :: log) log = newer ++ log := by
  induction days generalizing log with
  | nil => exact ⟨[], rfl⟩
  | cons day days ih =>
      obtain ⟨newer, h⟩ := ih (.bumped day :: log)
      exact ⟨newer ++ [.bumped day], by rw [List.foldl_cons, h, List.append_assoc]; rfl⟩

theorem Logged.persist (h : Logged s) (call : PersistCall) :
    Logged (s.persist call) ∧ LogGrows s (s.persist call) := by
  rw [Shared.persist]
  split
  · exact ⟨h, [], rfl⟩
  · rename_i t result hok
    have hbumped : ∀ (days : List Date) (s : Shared), Logged s → Logged (days.foldl Shared.bump s) := by
      intro days
      induction days with
      | nil => exact fun _ h => h
      | cons day days ih => exact fun _ h => ih _ (h.bump day)
    have hdays := hbumped (call.bumps s.tables) s h
    rw [foldl_bump] at hdays
    exact ⟨hdays.congr (persist_ok hok) rfl, logGrows_bumps _ _⟩

end Steps

/-! ## Every run -/

section Runs

/-- A refresh has begun at one place of the log. -/
theorem began_unique {s : Shared} (h : Logged s) {n : Nat} {day day' : Date}
    {newer older newer' older' : List RefreshEvent} (h1 : s.log = newer ++ .began n day :: older)
    (h2 : s.log = newer' ++ .began n day' :: older') : older = older' := by
  have hlen : (RefreshEvent.began n day :: older).length = (RefreshEvent.began n day' :: older').length :=
    congrArg (· + 1) ((h.numbered _ _ _ _ h1).symm.trans (h.numbered _ _ _ _ h2))
  have hsplit := (List.append_inj' (h1.symm.trans h2) hlen).2
  rw [List.cons.injEq] at hsplit
  exact hsplit.2

variable {ι : Type} [DecidableEq ι] {c : Config ι Shared RefreshStage}

theorem logged_of_reachable (h : (refreshProgram.system ι refreshStart).Reachable c) :
    Logged c.shared := by
  have hany : ((refreshProgram.system ι refreshStart).restrict fun _ _ => True).Reachable c := by
    refine System.Reachable.mono ?_ ?_ h
    · exact fun _ hs => hs
    · exact fun _ _ _ hstep => ⟨trivial, hstep⟩
  refine (@Program.invariant _ _ _ _ _ _ refreshProgram refreshStart _ Logged
    (fun s stage => stage.Holds s) LogGrows ?_ ?_ ?_ ?_ ?_ c hany).1
  · rintro c ⟨hwork, hlog, hidle⟩
    refine ⟨Logged.mk ?_ ?_ ?_ ?_, ?_⟩
    · intro day _
      rw [hlog]
      rfl
    · intro day row hrow
      rw [hwork] at hrow
      cases hrow
    · intro newer n day older hsplit
      rw [hlog] at hsplit
      cases newer <;> cases hsplit
    · intro day row hrow
      rw [hwork] at hrow
      cases hrow
    · intro i
      rw [hidle i]
      trivial
  · rintro s stage rfl
    trivial
  · intro c i a _ hlogged hstage
    exact hlogged.advance a hstage
  · intro call s hlogged
    exact hlogged.persist call
  · intro s t stage hgrows hstage
    exact hstage.mono hgrows

/-- When the processed generation of a day is the current one, both aggregates were called over
the day after its last bump; and a bump leaves its day pending, whatever the refreshes that
had begun before it mark. -/
theorem late_refresh_loses_nothing (h : (refreshProgram.system ι refreshStart).Reachable c) :
    (∀ day row, c.shared.tables.worklist.get? day = some row → row.processed = row.pending →
      ∀ view, ∃ newer n window older, c.shared.log = newer ++ .called n view window :: older ∧
        utcDayBounds day = some window ∧ .bumped day ∉ newer) ∧
    (∀ day newer older, c.shared.log = newer ++ .bumped day :: older →
      (∀ n generation, .marked n day generation ∈ newer → .began n day ∈ older) →
      c.shared.tables.Pending day) := by
  have hlogged := logged_of_reachable h
  constructor
  · intro day row hrow heq view
    obtain ⟨hpending, hpos⟩ := hlogged.pending day row hrow
    rcases hlogged.processed day row hrow with h0 | ⟨-, hcovered⟩
    · omega
    · obtain ⟨newer, n, window, older, hlog, hwindow, hle⟩ := hcovered view
      refine ⟨newer, n, window, older, hlog, hwindow, ?_⟩
      intro hbumped
      rw [hlog, bumps_append, bumps, bumps, List.countP_cons] at hpending
      have hnewer := bumps_pos.mpr hbumped
      rw [bumps] at hnewer hle
      omega
  · intro day newer older hlog hmarks
    have hall : bumps day c.shared.log = bumps day newer + (bumps day older + 1) := by
      rw [hlog, bumps_append, bumps_bumped, if_pos rfl]
    cases hrow : c.shared.tables.worklist.get? day with
    | none =>
        have habsent := hlogged.absent day hrow
        omega
    | some row =>
        obtain ⟨hpending, hpos⟩ := hlogged.pending day row hrow
        refine ⟨row, hrow, ?_⟩
        rcases hlogged.processed day row hrow with h0 | ⟨⟨newer', n, rest, hmark, mid, older', hrest, hle⟩, -⟩
        · omega
        · have hmiddle : row.processed ≤ bumps day older := by
            rcases List.append_eq_append_iff.mp (hmark.symm.trans hlog) with
              ⟨as, hnewer, hrest'⟩ | ⟨as, -, hbumped⟩
            · cases as with
              | nil => cases hrest'
              | cons e as =>
                  -- the mark is newer than the bump, so its refresh began before it
                  rw [List.cons_append, List.cons.injEq] at hrest'
                  have hold := hmarks n row.processed (by
                    rw [hnewer, hrest'.1]
                    exact List.mem_append_right _ List.mem_cons_self)
                  obtain ⟨p, q, hold⟩ := List.append_of_mem hold
                  have hlater : c.shared.log = (newer ++ .bumped day :: p) ++ .began n day :: q := by
                    rw [hlog, hold, List.append_assoc, List.cons_append]
                  have hmarked : c.shared.log =
                      (newer' ++ .marked n day row.processed :: mid) ++ .began n day :: older' := by
                    rw [hmark, hrest, List.append_assoc, List.cons_append]
                  have hq := began_unique hlogged hlater hmarked
                  rw [hold, hq]
                  exact le_trans hle (le_trans (List.sublist_cons_self _ _).countP_le
                    (List.sublist_append_right _ _).countP_le)
            · cases as with
              | nil => cases hbumped
              | cons e as =>
                  rw [List.cons_append, List.cons.injEq] at hbumped
                  rw [hbumped.2, hrest]
                  refine le_trans hle (List.Sublist.countP_le ?_)
                  exact ((List.sublist_cons_self _ _).trans (List.sublist_append_right _ _)).trans
                    ((List.sublist_cons_self _ _).trans (List.sublist_append_right _ _))
          omega

/-- The sample event, marked as historical. -/
def lateRecord (id : Str) (offset : Nat) : ConsumedEvent where
  kafkaTopic := lit "uns.historic-events"
  partition := 0
  offset := offset
  envelope :=
    { telemetrySample Datetime newYear2026 1700000000 with
      eventId := .str id, isHistorical := .bool true }
  eventId := id
  hasId := rfl

def persistLate (id : Str) (offset : Nat) : Move Unit RefreshStage Answer PersistCall :=
  .disturb ⟨openSetting, 1, [lateRecord id offset]⟩

def refreshAnswers : Move Unit RefreshStage Answer PersistCall := .advance () ⟨[], false⟩

/-- A late row arrives between the claim and the calls of a refresh. -/
def overlappingMoves : List (Move Unit RefreshStage Answer PersistCall) :=
  [persistLate firstId 0, refreshAnswers, refreshAnswers, persistLate secondId 1, refreshAnswers,
    refreshAnswers, refreshAnswers]

def idleRefresh : Config Unit Shared RefreshStage := ⟨⟨emptyTables, []⟩, fun _ => .idle⟩

def newYearWindow : Datetime × Datetime :=
  (newYear2026, Date.midnight ⟨2026, 1, 2, by decide⟩)

/-- The mark of that refresh leaves the day pending. -/
theorem late_refresh_loses_nothing_overlap :
    (refreshProgram.run idleRefresh overlappingMoves).shared.tables.Pending newYear2026.date := by
  have hstart : (refreshProgram.system Unit refreshStart).Reachable idleRefresh :=
    .init ⟨rfl, rfl, fun _ => rfl⟩
  have hmoves : ∀ m ∈ overlappingMoves, refreshProgram.Allowed m := by
    intro m hm
    fin_cases hm <;> trivial
  have hlog : (refreshProgram.run idleRefresh overlappingMoves).shared.log =
      [.marked 1 newYear2026.date 1, .called 1 .metrics1h newYearWindow,
        .called 1 .metrics1m newYearWindow] ++
      .bumped newYear2026.date :: [.began 1 newYear2026.date, .bumped newYear2026.date] := by
    decide +kernel
  refine (late_refresh_loses_nothing (Program.reachable_run hstart hmoves)).2 _ _ _ hlog ?_
  intro n generation hmark
  simp only [List.mem_cons, RefreshEvent.marked.injEq, List.not_mem_nil, or_false, reduceCtorEq] at hmark
  rw [hmark.1]
  exact List.mem_cons_self

end Runs

end Uns.Historian
