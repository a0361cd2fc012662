/-
# `Oee.StoreHistory` — what a history of saves leaves on record

Saves of one shift and reassignments by operators, in any order.  A save that
violates a constraint is rolled back and counts for nothing, like a reassignment
to an unknown reason or of an event that is gone.

`historyInvariant_apply` is the step: the row on record is the last save's, the
revisions are the earlier ones, and the automatic rows of the shift are the stops
of the last save that no person has claimed.  `manual_apply` is the other step,
and together they give every history (`storeLaw`).
-/
import UnifiedNamespace.Oee.Store

namespace Uns.Oee

open Py Lib

/-! ## Histories -/

/-- The arguments of one save of a shift. -/
structure SaveCall where
  finish : ℤ
  label : Str
  metrics : ShiftMetrics
  stops : List ClassifiedStop
  fingerprint : Fingerprint
  computedAt : ℤ

/-- The arguments of one reassignment, and the database's clock. -/
structure AssignCall where
  eventId : Nat
  reasonCode : Str
  note : Option Str
  assignedBy : Str
  now : ℤ

inductive StoreOp where
  | save (call : SaveCall)
  | assign (call : AssignCall)

/-- The database, the saves it has taken, oldest first, and what the last one found. -/
structure History where
  db : Database
  saves : List SaveCall
  found : Database

def SaveCall.window (c : SaveCall) (shiftStart : ℤ) : ShiftWindow := ⟨shiftStart, c.finish, c.label⟩

/-- The row this save writes under a revision number. -/
def SaveCall.values (c : SaveCall) (shiftStart : ℤ) (revision : Nat) : ShiftResult :=
  resultValues (c.window shiftStart) c.metrics c.fingerprint c.computedAt revision

def AssignCall.run (c : AssignCall) (db : Database) : Assigned :=
  assignReason db c.eventId c.reasonCode c.note c.assignedBy c.now

namespace History

/-- One operation; what fails changes nothing. -/
def apply (unitId : Nat) (shiftStart : ℤ) (h : History) : StoreOp → History
  | .save c =>
      match save h.db unitId (c.window shiftStart) c.metrics c.stops c.fingerprint c.computedAt with
      | none => h
      | some (db, _) => ⟨db, h.saves ++ [c], h.db⟩
  | .assign c =>
      match c.run h.db with
      | .queued db => { h with db := db }
      | .unknownReason => h
      | .noSuchEvent => h

/-- Before any operation. -/
def start (db : Database) : History := ⟨db, [], db⟩

def run (unitId : Nat) (shiftStart : ℤ) (h : History) (ops : List StoreOp) : History :=
  ops.foldl (apply unitId shiftStart) h

end History

/-- A person set the reason of this row. -/
def DowntimeEvent.isManual (e : DowntimeEvent) : Prop := e.reason.reasonSource = .manual

def ManualAt (db : Database) (key : Nat × ℤ) : Prop := ∃ r, db.events.find? key = some r ∧ r.2.isManual

/-- Nothing of the shift is on record. -/
structure Untouched (db : Database) (unitId : Nat) (shiftStart : ℤ) : Prop where
  results : db.results.find? (unitId, shiftStart) = none
  revisions : ∀ n, db.revisions.find? (unitId, shiftStart, n) = none
  events : ∀ t r, db.events.find? (unitId, t) = some r → r.2.shiftStart = shiftStart → r.2.isManual

/-- The row is the last save's, the revisions are the earlier ones, and the automatic rows are the
last stops that no person has claimed. -/
structure HistoryInvariant (unitId : Nat) (shiftStart : ℤ) (h : History) : Prop where
  current : (h.db.results.find? (unitId, shiftStart)).map Prod.snd =
    h.saves.getLast?.map fun c => c.values shiftStart h.saves.length
  superseded : ∀ n, (h.db.revisions.find? (unitId, shiftStart, n)).map Prod.snd =
    if 1 ≤ n ∧ n < h.saves.length then
      h.saves[n - 1]?.map fun c => revisionValues (c.values shiftStart n)
    else none
  automatic : ∀ t e, (∃ i, h.db.events.find? (unitId, t) = some (i, e)) ∧
      e.shiftStart = shiftStart ∧ ¬ e.isManual ↔
    ∃ c ∈ h.saves.getLast?, ∃ stop ∈ c.stops, stop.interval.start = t ∧
      e = eventValue shiftStart stop ∧ ¬ ManualAt h.db (unitId, t)

/-! ## One operation -/

theorem assignReason_spec {db db' : Database} {c : AssignCall} (h : c.run db = .queued db') :
    db'.results = db.results ∧ db'.revisions = db.revisions ∧ db'.reasons = db.reasons ∧
      db'.events = setReason db.events c.eventId
        (assignColumns c.reasonCode c.note c.assignedBy c.now) := by
  unfold AssignCall.run assignReason at h
  split at h
  · split at h
    · cases h
    · cases h
      exact ⟨rfl, rfl, rfl, rfl⟩
  · cases h

theorem find?_setReason (events : EventTable) (eventId : Nat) (columns : ReasonColumns → ReasonColumns)
    (key : Nat × ℤ) : (setReason events eventId columns).find? key =
      (events.find? key).map fun r =>
        (r.1, if r.1 = eventId then r.2.withReason columns else r.2) := by
  rw [setReason, Table.find?_modify]
  simp only [decide_eq_true_eq]

/-- What a reassignment makes of a row. -/
def AssignCall.onRow (c : AssignCall) (r : Nat × DowntimeEvent) : Nat × DowntimeEvent :=
  (r.1, if r.1 = c.eventId then
    r.2.withReason (assignColumns c.reasonCode c.note c.assignedBy c.now) else r.2)

theorem onRow_manual {c : AssignCall} {r : Nat × DowntimeEvent} (h : r.1 = c.eventId ∨ r.2.isManual) :
    (c.onRow r).2.isManual := by
  by_cases hid : r.1 = c.eventId
  · simp only [AssignCall.onRow, if_pos hid]
    rfl
  · simp only [AssignCall.onRow, if_neg hid]
    exact h.resolve_left hid

theorem onRow_ne {c : AssignCall} {r : Nat × DowntimeEvent} (h : r.1 ≠ c.eventId) : c.onRow r = r := by
  simp only [AssignCall.onRow, if_neg h]

/-- Over a stored manual row a stop keeps its reason; else it is the stop's own row. -/
theorem mergeEvent_manual {excluded stored : DowntimeEvent} (h : stored.isManual) :
    (mergeEvent excluded stored).reason = stored.reason := if_pos h

theorem mergeEvent_auto {excluded stored : DowntimeEvent} (h : ¬ stored.isManual) :
    mergeEvent excluded stored = excluded := by
  have hreason : (mergeEvent excluded stored).reason = excluded.reason := if_neg h
  obtain ⟨_, _, _, _, _⟩ := excluded
  exact congrArg (DowntimeEvent.mk _ _ _ _) hreason

variable {unitId : Nat} {shiftStart : ℤ} {h : History}

/-- The row a save leaves for a stop: a person's reason under new geometry, or the stop's row. -/
theorem mergedRow_cases (events : EventTable) (stop : ClassifiedStop) :
    (∃ r, events.find? (unitId, stop.interval.start) = some r ∧ r.2.isManual ∧
        (mergedRow events unitId shiftStart stop).reason = r.2.reason) ∨
      ((∀ r, events.find? (unitId, stop.interval.start) = some r → ¬ r.2.isManual) ∧
        mergedRow events unitId shiftStart stop = eventValue shiftStart stop) := by
  unfold mergedRow
  cases hf : events.find? (unitId, stop.interval.start) with
  | none =>
      refine .inr ⟨?_, rfl⟩
      intro r hr
      cases hr
  | some r =>
      by_cases hm : r.2.isManual
      · exact .inl ⟨r, rfl, hm, mergeEvent_manual hm⟩
      · refine .inr ⟨?_, mergeEvent_auto hm⟩
        intro q hq
        rwa [← Option.some.inj hq]

theorem apply_save (c : SaveCall) : h.apply unitId shiftStart (.save c) = h ∨
    ∃ db out, Saved unitId shiftStart (c.values shiftStart) c.stops out h.db db ∧
      h.apply unitId shiftStart (.save c) = ⟨db, h.saves ++ [c], h.db⟩ := by
  cases hs : save h.db unitId (c.window shiftStart) c.metrics c.stops c.fingerprint c.computedAt with
  | none =>
      refine .inl ?_
      simp only [History.apply, hs]
  | some saved =>
      refine .inr ⟨saved.1, saved.2, (save_spec hs).1, ?_⟩
      simp only [History.apply, hs]

theorem apply_assign (c : AssignCall) : h.apply unitId shiftStart (.assign c) = h ∨
    ∃ db, c.run h.db = .queued db ∧ h.apply unitId shiftStart (.assign c) = { h with db := db } := by
  cases hc : c.run h.db with
  | unknownReason =>
      refine .inl ?_
      simp only [History.apply, hc]
  | noSuchEvent =>
      refine .inl ?_
      simp only [History.apply, hc]
  | queued db =>
      refine .inr ⟨db, rfl, ?_⟩
      simp only [History.apply, hc]

/-- A manual row outlives every operation, and only its own reassignment changes the reason. -/
theorem manual_apply (op : StoreOp) {key : Nat × ℤ} {i : Nat} {e : DowntimeEvent}
    (hrow : h.db.events.find? key = some (i, e)) (hm : e.isManual) :
    ∃ e', (h.apply unitId shiftStart op).db.events.find? key = some (i, e') ∧ e'.isManual ∧
      ((∀ c, op = .assign c → c.eventId ≠ i) → e'.reason = e.reason) := by
  cases op with
  | save c =>
      rcases @apply_save unitId shiftStart h c with hsame | ⟨db, out, hsaved, hnew⟩
      · rw [hsame]
        exact ⟨e, hrow, hm, fun _ => rfl⟩
      · rw [hnew]
        by_cases hk : ∃ stop ∈ c.stops, key = (unitId, stop.interval.start)
        · obtain ⟨stop, hstop, rfl⟩ := hk
          obtain ⟨j, hj, hid⟩ := hsaved.events.row stop hstop
          obtain rfl : i = j := hid _ hrow
          have hreason : (mergedRow h.db.events unitId shiftStart stop).reason = e.reason := by
            unfold mergedRow
            rw [hrow]
            exact mergeEvent_manual hm
          refine ⟨_, hj, ?_, fun _ => hreason⟩
          unfold DowntimeEvent.isManual
          exact (congrArg ReasonColumns.reasonSource hreason).trans hm
        · have hother := hsaved.events.other key fun stop hstop heq => hk ⟨stop, hstop, heq⟩
          refine ⟨e, ?_, hm, fun _ => rfl⟩
          have hnot : ¬ (key.1 = unitId ∧ e.shiftStart = shiftStart ∧ e.reason.reasonSource = .auto) := by
            rintro ⟨-, -, hauto⟩
            rw [show e.reason.reasonSource = .manual from hm] at hauto
            cases hauto
          rw [hother, hrow, Option.filter_some, if_pos]
          rw [Bool.not_eq_true', decide_eq_false_iff_not]
          exact hnot
  | assign c =>
      rcases @apply_assign unitId shiftStart h c with hsame | ⟨db, hassign, hnew⟩
      · rw [hsame]
        exact ⟨e, hrow, hm, fun _ => rfl⟩
      · obtain ⟨-, -, -, hevents⟩ := assignReason_spec hassign
        rw [hnew]
        change ∃ e', db.events.find? key = some (i, e') ∧ _
        rw [hevents, find?_setReason, hrow]
        refine ⟨(c.onRow (i, e)).2, rfl, onRow_manual (.inr hm), ?_⟩
        intro hne
        exact congrArg (fun r => r.2.reason) (@onRow_ne c (i, e) (hne c rfl).symm)

/-- The automatic rows after a save. -/
theorem automatic_save {events events' : EventTable} {stops : List ClassifiedStop}
    (hs : EventsSaved unitId shiftStart stops events events') (t : ℤ) (e : DowntimeEvent) :
    (∃ i, events'.find? (unitId, t) = some (i, e)) ∧ e.shiftStart = shiftStart ∧ ¬ e.isManual ↔
      ∃ stop ∈ stops, stop.interval.start = t ∧ e = eventValue shiftStart stop ∧
        ¬ ∃ r, events'.find? (unitId, t) = some r ∧ r.2.isManual := by
  constructor
  · rintro ⟨⟨i, hrow⟩, hshift, hauto⟩
    have hnone : ¬ ∃ r, events'.find? (unitId, t) = some r ∧ r.2.isManual := by
      rintro ⟨r, hr, hm⟩
      rw [hrow] at hr
      obtain rfl := Option.some.inj hr
      exact hauto hm
    by_cases ht : ∃ stop ∈ stops, stop.interval.start = t
    · obtain ⟨stop, hstop, rfl⟩ := ht
      obtain ⟨j, hj, -⟩ := hs.row stop hstop
      rw [hrow] at hj
      have he : e = mergedRow events unitId shiftStart stop := congrArg Prod.snd (Option.some.inj hj)
      refine ⟨stop, hstop, rfl, ?_, hnone⟩
      rcases mergedRow_cases events stop with ⟨r, -, hm, hreason⟩ | ⟨-, hvalue⟩
      · refine absurd ?_ hauto
        rw [he]
        exact (congrArg ReasonColumns.reasonSource hreason).trans hm
      · rw [he, hvalue]
    · -- a row of the shift that no stop starts at is deleted
      rw [hs.other _ fun stop hstop heq => ht ⟨stop, hstop, (congrArg Prod.snd heq).symm⟩,
        Option.filter_eq_some_iff] at hrow
      have hsource : e.reason.reasonSource = .auto := by
        cases hsrc : e.reason.reasonSource with
        | auto => rfl
        | manual => exact absurd hsrc hauto
      simp [hshift, hsource] at hrow
  · rintro ⟨stop, hstop, rfl, rfl, hnone⟩
    obtain ⟨j, hj, -⟩ := hs.row stop hstop
    rcases mergedRow_cases events stop with ⟨r, -, hm, hreason⟩ | ⟨-, hvalue⟩
    · exact absurd ⟨_, hj, (congrArg ReasonColumns.reasonSource hreason).trans hm⟩ hnone
    · rw [hvalue] at hj
      exact ⟨⟨j, hj⟩, rfl, fun hm => hnone ⟨_, hj, hm⟩⟩

theorem historyInvariant_save {db : Database} {c : SaveCall} {out : StoredResult}
    (hi : HistoryInvariant unitId shiftStart h)
    (hs : Saved unitId shiftStart (c.values shiftStart) c.stops out h.db db) :
    HistoryInvariant unitId shiftStart ⟨db, h.saves ++ [c], h.db⟩ := by
  have hlength : (h.saves ++ [c]).length = h.saves.length + 1 := by
    rw [List.length_append, List.length_singleton]
  have hrevision : out.revision = h.saves.length + 1 := by
    rw [hs.result.next]
    congr 1
    have hrow := congrArg (Option.map ShiftResult.revision) hi.current
    rw [Option.map_map, Option.map_map] at hrow
    rw [show (h.db.results.find? (unitId, shiftStart)).map (fun r => r.2.revision) = _ from hrow]
    cases hl : h.saves.getLast? with
    | none =>
        rw [List.getLast?_eq_none_iff] at hl
        rw [hl]
        rfl
    | some last => rfl
  refine ⟨?_, ?_, ?_⟩
  · rw [hs.result.row, List.getLast?_concat, hlength, ← hrevision]
    rfl
  · intro n
    rw [hlength]
    cases hf : h.db.results.find? (unitId, shiftStart) with
    | none =>
        -- the first save
        have hnil : h.saves = [] := by
          have hrow := hi.current
          rw [hf] at hrow
          exact List.getLast?_eq_none_iff.mp (Option.map_eq_none_iff.mp hrow.symm)
        rw [hs.result.otherRevisions _ (by rw [hf]; intro r hr; cases hr), hi.superseded n, hnil]
        rw [if_neg (by rw [List.length_nil]; omega), if_neg (by rw [List.length_nil]; omega)]
    | some r =>
        -- the row on record is the last save's, and becomes its revision
        have hrow := hi.current
        rw [hf] at hrow
        obtain ⟨last, hlast, hvalues⟩ := Option.map_eq_some_iff.mp hrow.symm
        have hne : h.saves ≠ [] := by
          intro hnil
          rw [hnil] at hlast
          cases hlast
        have hpos : 1 ≤ h.saves.length := List.length_pos_of_ne_nil hne
        have hr : r.2.revision = h.saves.length := by
          rw [← hvalues]
          rfl
        by_cases hn : n = h.saves.length
        · have hold := hs.result.superseded r hf
          rw [hn, ← hr, hold, hr, if_pos ⟨hpos, Nat.lt_succ_self _⟩,
            List.getElem?_append_left (by omega), ← List.getLast?_eq_getElem?, hlast, Option.map_some,
            hvalues]
        · have hother : ∀ q, h.db.results.find? (unitId, shiftStart) = some q →
              (unitId, shiftStart, n) ≠ (unitId, shiftStart, q.2.revision) := by
            intro q hq heq
            rw [hf] at hq
            obtain rfl := Option.some.inj hq
            exact hn ((congrArg (fun k => k.2.2) heq).trans hr)
          rw [hs.result.otherRevisions _ hother, hi.superseded n]
          by_cases hb : 1 ≤ n ∧ n < h.saves.length
          · rw [if_pos hb, if_pos ⟨hb.1, by omega⟩, List.getElem?_append_left (by omega)]
          · rw [if_neg hb, if_neg (by omega)]
  · intro t e
    rw [List.getLast?_concat]
    simp only [Option.mem_some_iff, exists_eq_left']
    exact automatic_save hs.events t e

theorem historyInvariant_assign {db : Database} {c : AssignCall}
    (hi : HistoryInvariant unitId shiftStart h) (hc : c.run h.db = .queued db) :
    HistoryInvariant unitId shiftStart { h with db := db } := by
  obtain ⟨hresults, hrevisions, -, hevents⟩ := assignReason_spec hc
  have hrows : ∀ t, db.events.find? (unitId, t) = (h.db.events.find? (unitId, t)).map c.onRow := by
    intro t
    rw [hevents, find?_setReason]
    rfl
  -- a row that is not manual afterwards was not touched
  have hkept : ∀ t i e, ¬ ManualAt db (unitId, t) →
      (db.events.find? (unitId, t) = some (i, e) ↔ h.db.events.find? (unitId, t) = some (i, e)) := by
    intro t i e hnot
    cases hf : h.db.events.find? (unitId, t) with
    | none => rw [hrows, hf, Option.map_none]
    | some r =>
        have hid : r.1 ≠ c.eventId := by
          intro hid
          refine hnot ⟨c.onRow r, ?_, onRow_manual (.inl hid)⟩
          rw [hrows, hf, Option.map_some]
        rw [hrows, hf, Option.map_some, onRow_ne hid]
  have hmanual : ∀ t, ManualAt h.db (unitId, t) → ManualAt db (unitId, t) := by
    rintro t ⟨r, hr, hm⟩
    refine ⟨c.onRow r, ?_, onRow_manual (.inr hm)⟩
    rw [hrows, hr, Option.map_some]
  refine ⟨?_, ?_, ?_⟩
  · rw [hresults]
    exact hi.current
  · rw [hrevisions]
    exact hi.superseded
  · intro t e
    constructor
    · rintro ⟨⟨i, hrow⟩, hshift, hauto⟩
      have hnot : ¬ ManualAt db (unitId, t) := by
        rintro ⟨r, hr, hm⟩
        rw [hrow] at hr
        obtain rfl := Option.some.inj hr
        exact hauto hm
      rw [hkept t i e hnot] at hrow
      obtain ⟨d, hd, stop, hstop, hstart, he, -⟩ :=
        (hi.automatic t e).mp ⟨⟨i, hrow⟩, hshift, hauto⟩
      exact ⟨d, hd, stop, hstop, hstart, he, hnot⟩
    · rintro ⟨d, hd, stop, hstop, hstart, he, hnot⟩
      obtain ⟨⟨i, hrow⟩, hshift, hauto⟩ := (hi.automatic t e).mpr
        ⟨d, hd, stop, hstop, hstart, he, fun hm => hnot (hmanual t hm)⟩
      exact ⟨⟨i, (hkept t i e hnot).mpr hrow⟩, hshift, hauto⟩

/-- The step lemma. -/
theorem historyInvariant_apply (hi : HistoryInvariant unitId shiftStart h) (op : StoreOp) :
    HistoryInvariant unitId shiftStart (h.apply unitId shiftStart op) := by
  cases op with
  | save c =>
      rcases @apply_save unitId shiftStart h c with hsame | ⟨db, out, hsaved, hnew⟩
      · rw [hsame]
        exact hi
      · rw [hnew]
        exact historyInvariant_save hi hsaved
  | assign c =>
      rcases @apply_assign unitId shiftStart h c with hsame | ⟨db, hassign, hnew⟩
      · rw [hsame]
        exact hi
      · rw [hnew]
        exact historyInvariant_assign hi hassign

/-! ## Any number of operations -/

theorem historyInvariant_run (hi : HistoryInvariant unitId shiftStart h) (ops : List StoreOp) :
    HistoryInvariant unitId shiftStart (h.run unitId shiftStart ops) := by
  induction ops generalizing h with
  | nil => exact hi
  | cons op ops ih => exact ih (historyInvariant_apply hi op)

theorem manual_run (ops : List StoreOp) {key : Nat × ℤ} {i : Nat} {e : DowntimeEvent}
    (hrow : h.db.events.find? key = some (i, e)) (hm : e.isManual) :
    ∃ e', (h.run unitId shiftStart ops).db.events.find? key = some (i, e') ∧ e'.isManual ∧
      ((∀ c, .assign c ∈ ops → c.eventId ≠ i) → e'.reason = e.reason) := by
  induction ops generalizing h e with
  | nil => exact ⟨e, hrow, hm, fun _ => rfl⟩
  | cons op ops ih =>
      obtain ⟨e₁, hrow₁, hm₁, hreason₁⟩ := @manual_apply unitId shiftStart h op _ _ _ hrow hm
      obtain ⟨e₂, hrow₂, hm₂, hreason₂⟩ := ih hrow₁ hm₁
      refine ⟨e₂, hrow₂, hm₂, ?_⟩
      intro hne
      rw [hreason₂ fun c hc => hne c (List.mem_cons_of_mem _ hc)]
      exact hreason₁ fun c hc => hne c (hc ▸ List.mem_cons_self)

theorem historyInvariant_untouched {db : Database} (hu : Untouched db unitId shiftStart) :
    HistoryInvariant unitId shiftStart (.start db) := by
  unfold History.start
  refine ⟨?_, ?_, ?_⟩
  · rw [hu.results]
    rfl
  · intro n
    rw [hu.revisions n, if_neg (by rw [List.length_nil]; omega)]
    rfl
  · intro t e
    constructor
    · rintro ⟨⟨i, hrow⟩, hshift, hauto⟩
      exact absurd (hu.events t _ hrow hshift) hauto
    · rintro ⟨c, hc, -⟩
      cases hc

/-- What the store holds of a shift after any saves of it and any reassignments. -/
structure StoreLaw (db : Database) (unitId : Nat) (shiftStart : ℤ) (ops : List StoreOp) : Prop where
  /-- The revision counts the saves. -/
  revision : ((History.run unitId shiftStart (.start db) ops).db.results.find? (unitId, shiftStart)).map
      (fun r => r.2.revision) =
    if (History.run unitId shiftStart (.start db) ops).saves = [] then none
    else some (History.run unitId shiftStart (.start db) ops).saves.length
  invariant : HistoryInvariant unitId shiftStart (History.run unitId shiftStart (.start db) ops)
  /-- A row set by a person stays, with its reason, until that person's event is reassigned. -/
  manual : ∀ before after, ops = before ++ after → ∀ key i e,
    (History.run unitId shiftStart (.start db) before).db.events.find? key = some (i, e) → e.isManual →
      ∃ e', (History.run unitId shiftStart (.start db) ops).db.events.find? key = some (i, e') ∧
        e'.isManual ∧ ((∀ c, .assign c ∈ after → c.eventId ≠ i) → e'.reason = e.reason)

theorem storeLaw {db : Database} (hu : Untouched db unitId shiftStart) (ops : List StoreOp) :
    StoreLaw db unitId shiftStart ops := by
  have hi := historyInvariant_run (historyInvariant_untouched hu) ops
  refine ⟨?_, hi, ?_⟩
  · have hrow := congrArg (Option.map ShiftResult.revision) hi.current
    rw [Option.map_map, Option.map_map] at hrow
    refine Eq.trans hrow ?_
    split
    · rename_i hnil
      rw [hnil]
      rfl
    · rename_i hne
      obtain ⟨last, hlast⟩ := Option.ne_none_iff_exists'.mp (mt List.getLast?_eq_none_iff.mp hne)
      rw [hlast]
      rfl
  · rintro before after rfl key i e hrow hm
    unfold History.run at hrow ⊢
    rw [List.foldl_append]
    exact manual_run after hrow hm

/-! ## A shift saved, corrected and saved again -/

/-- The code of a jam. -/
def jamCode : Str := lit "JAM"

/-- Empty tables and two reasons. -/
def plantDatabase : Database where
  results := .empty
  revisions := .empty
  products := .empty
  events := .empty
  requests := []
  reasons := ⟨[(unclassifiedReasonCode, ⟨lit "Unclassified", [], false⟩),
    (jamCode, ⟨lit "Jam", lit "Mechanical", false⟩)], by decide⟩
  referenced := by
    intro e he
    cases he

theorem untouched_plantDatabase (unitId : Nat) (shiftStart : ℤ) :
    Untouched plantDatabase unitId shiftStart :=
  ⟨rfl, fun _ => rfl, fun _ _ hr => by cases hr⟩

/-- A stop with no rule for its state. -/
def unclassifiedStop (start finish : ℤ) : ClassifiedStop where
  interval := ⟨start, finish⟩
  stateValue := lit "HELD"
  reasonCode := unclassifiedReasonCode
  isPlanned := false
  source := .auto
  note := none
  assignedBy := none

def saveOf (stops : List ClassifiedStop) : SaveCall := ⟨seconds 10, [], {}, stops, {}, hours 1⟩

/-- The operator's correction of the first stop. -/
def assignJam : AssignCall := ⟨0, jamCode, none, lit "op", hours 2⟩

/-- Saved, corrected, and saved again when the stop has moved. -/
def movedStop : List StoreOp :=
  [.save (saveOf [unclassifiedStop 0 (seconds 5)]), .assign assignJam,
    .save (saveOf [unclassifiedStop (seconds 2) (seconds 5)])]

theorem storeLaw_movedStop : (History.run 1 0 (.start plantDatabase) movedStop).saves.length = 2 ∧
    StoreLaw plantDatabase 1 0 movedStop :=
  ⟨rfl, storeLaw (untouched_plantDatabase 1 0) movedStop⟩

end Uns.Oee
