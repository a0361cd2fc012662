/-
# `Opcua.Connector` — no message is lost uncounted

The data changes of the servers go through a bounded queue in memory, the batches of
`drain_once` and the spool to the broker.  A full queue drops its oldest message and counts
it in `QUEUE_DROPPED`; what `trim` drops is counted in `SPOOL_DROPPED`.  A reload cancels the
tasks wherever they await and starts them again with a fresh queue; a thread that is already
at work on the spool may still finish, but nobody receives what it returns.

Each accepted message has its place after a run exactly when every step of the run was
careful (`balanced_iff`): no batch was lost to an error of the spool, and no reload came while
messages were in memory or a trim was not yet counted.
-/
import UnifiedNamespace.Opcua.Spool

namespace Uns.Opcua

open Py Lib

/-! ## The connector -/

structure ConnectorConfig where
  spool : SpoolConfig
  /-- `maxsize` of the queue; zero or less is no bound. -/
  queueMaxsize : ℤ
  batchSize : Nat
  trimInterval : ℚ

/-- Where `drain_once` awaits. -/
inductive Draining where
  | idle
  | writing (batch : List SpoolRow) (now : ℚ)
  | trimming (now : ℚ)
  /-- The trim has returned `dropped` to a task that is not yet resumed. -/
  | counting (dropped : Nat) (now : ℚ)
  /-- `_publish_gauges`. -/
  | gauging (now : ℚ)
  deriving DecidableEq

structure ConnectorState where
  spool : SpoolState
  queue : List SpoolRow
  draining : Draining
  lastTrimAt : Option ℚ
  /-- `QUEUE_DROPPED`, `SPOOL_DROPPED` and `SPOOL_WRITE_ERRORS`. -/
  queueDropped : Nat
  spoolDropped : Nat
  spoolWriteErrors : Nat

/-- What happened to the messages. -/
structure ConnectorLog where
  spool : SpoolLog
  /-- What `enqueue_drop_oldest` was called with. -/
  accepted : List SpoolRow
  queueDropped : List SpoolRow

inductive ConnectorInput where
  | dataChange (row : SpoolRow)
  /-- `drain_once` is called. -/
  | drain (now : ℚ)
  | written
  | writeFails
  | trimmed (byteSize : Nat → ℤ)
  | counted
  | gauged
  /-- A step of `forward_batch`. -/
  | forward (input : SpoolInput)
  /-- `finishes`: the thread of the spool was at work and ends its operation. -/
  | reload (finishes : Bool) (byteSize : Nat → ℤ)

/-- `queue.full()`. -/
def full (config : ConnectorConfig) (queue : List SpoolRow) : Prop :=
  0 < config.queueMaxsize ∧ config.queueMaxsize ≤ queue.length

instance (config : ConnectorConfig) (queue : List SpoolRow) : Decidable (full config queue) :=
  inferInstanceAs (Decidable (_ ∧ _))

/-- `enqueue_drop_oldest`: the queue, and what it dropped. -/
def enqueueDropOldest (config : ConnectorConfig) (queue : List SpoolRow) (row : SpoolRow) :
    List SpoolRow × List SpoolRow :=
  if full config queue then (queue.drop 1 ++ [row], queue.take 1) else (queue ++ [row], [])

/-- Is a trim due after the write at `now`? -/
def trimDue (config : ConnectorConfig) (lastTrimAt : Option ℚ) (now : ℚ) : Bool :=
  match lastTrimAt with
  | none => true
  | some last => decide (config.trimInterval ≤ now - last)

/-- The steps of the forwarder. -/
def SpoolInput.ofForwarder : SpoolInput → Bool
  | .peek _ | .publish | .publishFails | .deleteThrough | .deleteFails => true
  | _ => false

/-- The operation of the spool that `drain_once` awaits. -/
def Draining.operation (byteSize : Nat → ℤ) : Draining → Option SpoolInput
  | .writing batch now => some (.enqueue batch now)
  | .trimming now => some (.trim now byteSize)
  | _ => none

/-- The operations of the spool one after the other. -/
def spoolSteps (config : SpoolConfig) (p : SpoolState × SpoolLog) : List SpoolInput → Option (SpoolState × SpoolLog)
  | [] => some p
  | input :: inputs => (spoolStep config p.1 p.2 input).bind fun q => spoolSteps config q inputs

def connectorStep (config : ConnectorConfig) (state : ConnectorState) (log : ConnectorLog) :
    ConnectorInput → Option (ConnectorState × ConnectorLog)
  | .dataChange row =>
      let (queue, dropped) := enqueueDropOldest config state.queue row
      some ({ state with queue := queue, queueDropped := state.queueDropped + dropped.length },
        { log with accepted := log.accepted ++ [row], queueDropped := log.queueDropped ++ dropped })
  | .drain now =>
      match state.draining with
      | .idle =>
          let batch := state.queue.take config.batchSize
          if batch = [] then some (state, log)
          else some ({ state with queue := state.queue.drop config.batchSize, draining := .writing batch now }, log)
      | _ => none
  | .written =>
      match state.draining with
      | .writing batch now =>
          (spoolStep config.spool state.spool log.spool (.enqueue batch now)).map fun p =>
            ({ state with
                spool := p.1
                draining := if trimDue config state.lastTrimAt now then .trimming now else .idle },
              { log with spool := p.2 })
      | _ => none
  | .writeFails =>
      match state.draining with
      | .writing _ _ =>
          -- the rows of the batch are in no other place
          some ({ state with draining := .idle, spoolWriteErrors := state.spoolWriteErrors + 1 }, log)
      | _ => none
  | .trimmed byteSize =>
      match state.draining with
      | .trimming now =>
          (spoolStep config.spool state.spool log.spool (.trim now byteSize)).map fun p =>
            ({ state with
                spool := p.1
                draining := .counting (state.spool.table.trim config.spool now byteSize).2 now },
              { log with spool := p.2 })
      | _ => none
  | .counted =>
      match state.draining with
      | .counting dropped now =>
          some ({ state with draining := .gauging now, spoolDropped := state.spoolDropped + dropped }, log)
      | _ => none
  | .gauged =>
      match state.draining with
      | .gauging now => some ({ state with draining := .idle, lastTrimAt := some now }, log)
      | _ => none
  | .forward input =>
      if input.ofForwarder then
        (spoolStep config.spool state.spool log.spool input).map fun p =>
          ({ state with spool := p.1 }, { log with spool := p.2 })
      else none
  | .reload finishes byteSize =>
      let inFlight := if finishes then (state.draining.operation byteSize).toList else []
      (spoolSteps config.spool (state.spool, log.spool) (inFlight ++ [.restart])).map fun p =>
        ({ state with spool := p.1, queue := [], draining := .idle, lastTrimAt := none }, { log with spool := p.2 })

def connectorRun (config : ConnectorConfig) (p : ConnectorState × ConnectorLog) :
    List ConnectorInput → Option (ConnectorState × ConnectorLog)
  | [] => some p
  | input :: inputs => (connectorStep config p.1 p.2 input).bind fun q => connectorRun config q inputs

/-- The process has started with an empty spool. -/
def connectorStart : ConnectorState × ConnectorLog :=
  (⟨⟨.empty, .idle⟩, [], .idle, none, 0, 0, 0⟩, ⟨⟨[], [], [], [], [], 0⟩, [], []⟩)

/-! ## The account of the messages -/

/-- The messages that `drain_once` holds. -/
def Draining.batch : Draining → List SpoolRow
  | .writing batch _ => batch
  | _ => []

/-- The rows that `drain_once` is about to count. -/
def Draining.uncounted : Draining → Nat
  | .counting dropped _ => dropped
  | _ => 0

/-- Each accepted message is in the queue, with `drain_once`, spooled, or counted by `QUEUE_DROPPED`; each spooled
one is in the spool, forwarded, or counted by `SPOOL_DROPPED`. -/
structure Balanced (state : ConnectorState) (log : ConnectorLog) : Prop where
  accepted : log.accepted.Perm
    (state.queue ++ state.draining.batch ++ log.queueDropped ++ log.spool.enqueued.map StoredRow.row)
  spooled : ∀ r ∈ log.spool.enqueued, r ∈ state.spool.table.rows ∨ r ∈ log.spool.published ∨ r ∈ log.spool.dropped
  queueDropped : state.queueDropped = log.queueDropped.length
  spoolDropped : state.spoolDropped + state.draining.uncounted = log.spool.dropped.length

/-- A step that leaves no message without its place. -/
def Careful (config : ConnectorConfig) (state : ConnectorState) : ConnectorInput → Prop
  | .writeFails => False
  | .reload finishes byteSize =>
      state.queue = [] ∧
        match state.draining with
        | .writing _ _ => finishes = true
        | .trimming now => finishes = true → (state.spool.table.trim config.spool now byteSize).2 = 0
        | .counting dropped _ => dropped = 0
        | _ => True
  | _ => True

def CarefulRun (config : ConnectorConfig) (p : ConnectorState × ConnectorLog) : List ConnectorInput → Prop
  | [] => True
  | input :: inputs =>
      Careful config p.1 input ∧ ∀ q, connectorStep config p.1 p.2 input = some q → CarefulRun config q inputs

/-! ## What a step loses -/

/-- The messages that have no place after the step. -/
def lostBy (state : ConnectorState) : ConnectorInput → List SpoolRow
  | .writeFails => state.draining.batch
  | .reload finishes _ => state.queue ++ if finishes then [] else state.draining.batch
  | _ => []

/-- How many rows the step drops from the spool without a count. -/
def uncountedBy (config : ConnectorConfig) (state : ConnectorState) : ConnectorInput → Nat
  | .reload finishes byteSize =>
      match state.draining with
      | .trimming now => if finishes then (state.spool.table.trim config.spool now byteSize).2 else 0
      | .counting dropped _ => dropped
      | _ => 0
  | _ => 0

/-- A batch that is being written is not empty. -/
def Draining.Loaded : Draining → Prop
  | .writing batch _ => batch ≠ []
  | _ => True

/-- The account with what the steps so far have lost. -/
structure Accounts (state : ConnectorState) (log : ConnectorLog) (lost : List SpoolRow) (uncounted : Nat) : Prop where
  spool : SpoolInvariant state.spool log.spool
  loaded : state.draining.Loaded
  accepted : ∀ row, log.accepted.count row = state.queue.count row + state.draining.batch.count row +
    log.queueDropped.count row + (log.spool.enqueued.map StoredRow.row).count row + lost.count row
  queueDropped : state.queueDropped = log.queueDropped.length
  spoolDropped : state.spoolDropped + state.draining.uncounted + uncounted = log.spool.counted

variable {config : ConnectorConfig} {state : ConnectorState} {log : ConnectorLog} {lost : List SpoolRow}
  {uncounted : Nat}

theorem connectorStart_accounts : Accounts connectorStart.1 connectorStart.2 [] 0 :=
  ⟨spoolInvariant_start, trivial, fun _ => rfl, rfl, rfl⟩

/-- Balanced is to have lost nothing. -/
theorem Accounts.lost_nothing_iff (h : Accounts state log lost uncounted) :
    Balanced state log ↔ lost = [] ∧ uncounted = 0 := by
  have hdropped := h.spool.counted
  have hspoolDropped := h.spoolDropped
  constructor
  · intro hbalanced
    have hlost : ∀ row, lost.count row = 0 := by
      intro row
      have hcount := hbalanced.accepted.count_eq row
      have hall := h.accepted row
      simp only [List.count_append] at hcount
      omega
    have hcounted := hbalanced.spoolDropped
    refine ⟨List.eq_nil_iff_forall_not_mem.mpr fun row hmem => ?_, by omega⟩
    exact absurd (hlost row) (Nat.ne_of_gt (List.count_pos_iff.mpr hmem))
  · rintro ⟨rfl, rfl⟩
    refine ⟨List.perm_iff_count.mpr fun row => ?_, h.spool.accounted, h.queueDropped, by omega⟩
    simp only [List.count_append]
    exact h.accepted row

theorem careful_iff (hloaded : state.draining.Loaded) {input : ConnectorInput} {q : ConnectorState × ConnectorLog}
    (hstep : connectorStep config state log input = some q) :
    Careful config state input ↔ lostBy state input = [] ∧ uncountedBy config state input = 0 := by
  cases input with
  | writeFails =>
      rw [connectorStep] at hstep
      split at hstep
      · next batch now hdraining =>
          rw [hdraining] at hloaded
          refine iff_of_false id fun hlost => hloaded ?_
          have hbatch : state.draining.batch = [] := hlost.1
          rw [hdraining] at hbatch
          exact hbatch
      · cases hstep
  | reload finishes byteSize =>
      simp only [Careful, lostBy, uncountedBy, List.append_eq_nil_iff]
      cases hdraining : state.draining with
      | writing batch now =>
          rw [hdraining] at hloaded
          have hbatch : batch ≠ [] := hloaded
          cases finishes <;> simp [Draining.batch, hbatch]
      | trimming now => cases finishes <;> simp [Draining.batch]
      | counting dropped now => cases finishes <;> simp [Draining.batch]
      | idle => cases finishes <;> simp [Draining.batch]
      | gauging now => cases finishes <;> simp [Draining.batch]
  | dataChange | drain | written | trimmed | counted | gauged | forward => exact iff_of_true trivial ⟨rfl, rfl⟩

/-! ## The operations of the spool -/

/-- The messages that an operation of the spool adds. -/
def SpoolInput.added : SpoolInput → List SpoolRow
  | .enqueue rows _ => rows
  | _ => []

/-- How many rows an operation of the spool trims. -/
def SpoolInput.trims (config : SpoolConfig) (table : SpoolTable) : SpoolInput → Nat
  | .trim now byteSize => (table.trim config now byteSize).2
  | _ => 0

theorem map_row_stamp (now : ℚ) (rows : List SpoolRow) (sequence : Nat) :
    (stamp now sequence rows).map StoredRow.row = rows := by
  induction rows generalizing sequence with
  | nil => rfl
  | cons row rows ih => exact congrArg (row :: ·) (ih (sequence + 1))

theorem spoolStep_account {config : SpoolConfig} {state : SpoolState} {log : SpoolLog} {input : SpoolInput}
    {p : SpoolState × SpoolLog} (h : spoolStep config state log input = some p) :
    p.2.enqueued.map StoredRow.row = log.enqueued.map StoredRow.row ++ input.added ∧
      p.2.counted = log.counted + input.trims config state.table := by
  cases input with
  | enqueue rows now =>
      cases h
      rw [List.map_append, map_row_stamp]
      exact ⟨rfl, rfl⟩
  | trim now byteSize =>
      cases h
      exact ⟨(List.append_nil _).symm, rfl⟩
  | restart =>
      cases h
      exact ⟨(List.append_nil _).symm, rfl⟩
  | peek | publish | publishFails | deleteThrough | deleteFails =>
      rw [spoolStep] at h
      split at h
      · cases h
        exact ⟨(List.append_nil _).symm, rfl⟩
      · cases h

theorem added_ofForwarder {input : SpoolInput} (h : input.ofForwarder = true) (config : SpoolConfig)
    (table : SpoolTable) : input.added = [] ∧ input.trims config table = 0 := by
  cases input with
  | enqueue | trim | restart => cases h
  | peek | publish | publishFails | deleteThrough | deleteFails => exact ⟨rfl, rfl⟩

/-- An operation of the spool, with what the queue and `drain_once` then hold and what is lost. -/
theorem Accounts.operate (h : Accounts state log lost uncounted) {input : SpoolInput} {p : SpoolState × SpoolLog}
    (hp : spoolStep config.spool state.spool log.spool input = some p) {queue : List SpoolRow} {draining : Draining}
    (lastTrimAt : Option ℚ) {lost' : List SpoolRow} {uncounted' : Nat} (hloaded : draining.Loaded)
    (hheld : ∀ row, queue.count row + draining.batch.count row + lost'.count row + input.added.count row =
      state.queue.count row + state.draining.batch.count row + lost.count row)
    (hcount : draining.uncounted + uncounted' =
      state.draining.uncounted + uncounted + input.trims config.spool state.spool.table) :
    Accounts { state with spool := p.1, queue := queue, draining := draining, lastTrimAt := lastTrimAt }
      { log with spool := p.2 } lost' uncounted' := by
  obtain ⟨henqueued, hcounted⟩ := spoolStep_account hp
  refine ⟨spoolInvariant_step h.spool hp, hloaded, fun row => ?_, h.queueDropped, ?_⟩
  · have hall := h.accepted row
    have hsplit := hheld row
    rw [henqueued, List.count_append]
    dsimp only
    omega
  · have hall := h.spoolDropped
    rw [hcounted]
    dsimp only
    omega

/-! ## Steps -/

theorem Accounts.dataChange (h : Accounts state log lost uncounted) (row : SpoolRow) :
    Accounts { state with
        queue := (enqueueDropOldest config state.queue row).1
        queueDropped := state.queueDropped + (enqueueDropOldest config state.queue row).2.length }
      { log with
        accepted := log.accepted ++ [row]
        queueDropped := log.queueDropped ++ (enqueueDropOldest config state.queue row).2 } lost uncounted := by
  -- the oldest and the others are the queue
  have hkept : ∀ a, (enqueueDropOldest config state.queue row).1.count a +
      (enqueueDropOldest config state.queue row).2.count a = state.queue.count a + [row].count a := by
    intro a
    rw [enqueueDropOldest]
    split
    · have hsplit := congrArg (List.count a) (List.take_append_drop 1 state.queue)
      rw [List.count_append] at hsplit
      dsimp only
      rw [List.count_append]
      omega
    · dsimp only
      rw [List.count_append, List.count_nil, Nat.add_zero]
  refine ⟨h.spool, h.loaded, fun a => ?_, ?_, h.spoolDropped⟩
  · have hall := h.accepted a
    have hqueue := hkept a
    dsimp only
    rw [List.count_append, List.count_append]
    omega
  · dsimp only
    rw [List.length_append, h.queueDropped]

theorem Accounts.drain (h : Accounts state log lost uncounted) (hidle : state.draining = .idle) (now : ℚ)
    (hbatch : state.queue.take config.batchSize ≠ []) :
    Accounts { state with
        queue := state.queue.drop config.batchSize
        draining := .writing (state.queue.take config.batchSize) now } log lost uncounted := by
  refine ⟨h.spool, hbatch, fun row => ?_, h.queueDropped, ?_⟩
  · have hall := h.accepted row
    have hsplit := congrArg (List.count row) (List.take_append_drop config.batchSize state.queue)
    rw [List.count_append] at hsplit
    rw [hidle] at hall
    simp only [Draining.batch, List.count_nil] at hall ⊢
    omega
  · have hall := h.spoolDropped
    rw [hidle] at hall
    exact hall

/-- The tasks start again, and what the queue and `drain_once` held is gone. -/
theorem Accounts.restart (config : ConnectorConfig) (h : Accounts state log lost uncounted) :
    Accounts { state with
        spool := { state.spool with forwarding := .idle }
        queue := []
        draining := .idle
        lastTrimAt := none } log
      (lost ++ (state.queue ++ state.draining.batch)) (uncounted + state.draining.uncounted) := by
  have hoperation : spoolStep config.spool state.spool log.spool .restart = some _ := rfl
  refine h.operate hoperation none trivial (fun row => ?_) ?_
  · simp only [Draining.batch, SpoolInput.added, List.count_append, List.count_nil]
    omega
  · simp only [Draining.uncounted, SpoolInput.trims]
    omega

theorem Accounts.reload (h : Accounts state log lost uncounted) {finishes : Bool} {byteSize : Nat → ℤ}
    {q : ConnectorState × ConnectorLog} (hstep : connectorStep config state log (.reload finishes byteSize) = some q) :
    Accounts q.1 q.2 (lost ++ lostBy state (.reload finishes byteSize))
      (uncounted + uncountedBy config state (.reload finishes byteSize)) := by
  cases finishes with
  | false =>
      have huncounted : uncountedBy config state (.reload false byteSize) = state.draining.uncounted := by
        rw [uncountedBy]
        cases state.draining <;> rfl
      cases hstep
      rw [huncounted]
      exact h.restart config
  | true =>
      rw [connectorStep] at hstep
      cases hdraining : state.draining with
      | writing batch now =>
          have hheld : ∀ row, state.queue.count row + Draining.idle.batch.count row + lost.count row + batch.count row =
              state.queue.count row + state.draining.batch.count row + lost.count row := by
            intro row
            rw [hdraining]
            simp only [Draining.batch, List.count_nil]
            omega
          have hoperation : spoolStep config.spool state.spool log.spool (.enqueue batch now) = some _ := rfl
          have hcount : Draining.idle.uncounted + uncounted = state.draining.uncounted + uncounted + 0 := by
            rw [hdraining]
            rfl
          have hwritten := h.operate hoperation none (show Draining.idle.Loaded from trivial) hheld hcount
          rw [hdraining] at hstep
          cases hstep
          have hrestarted := hwritten.restart config
          rw [lostBy, uncountedBy, hdraining]
          exact hrestarted
      | trimming now =>
          have hheld : ∀ row, state.queue.count row + Draining.idle.batch.count row + lost.count row + 0 =
              state.queue.count row + state.draining.batch.count row + lost.count row := by
            intro row
            rw [hdraining]
            rfl
          have hoperation : spoolStep config.spool state.spool log.spool (.trim now byteSize) = some _ := rfl
          have hcount : Draining.idle.uncounted + (uncounted + (state.spool.table.trim config.spool now byteSize).2) =
              state.draining.uncounted + uncounted + (state.spool.table.trim config.spool now byteSize).2 := by
            rw [hdraining]
            simp only [Draining.uncounted]
            omega
          have htrimmed := h.operate hoperation none (show Draining.idle.Loaded from trivial) hheld hcount
          rw [hdraining] at hstep
          cases hstep
          have hrestarted := htrimmed.restart config
          rw [lostBy, uncountedBy, hdraining]
          exact hrestarted
      | counting | idle | gauging =>
          rw [hdraining] at hstep
          cases hstep
          have hrestarted := h.restart config
          rw [hdraining] at hrestarted
          rw [lostBy, uncountedBy, hdraining]
          exact hrestarted

/-- `drain_once` goes on without the queue and the spool. -/
theorem Accounts.turn (h : Accounts state log lost uncounted) {draining : Draining} (lastTrimAt : Option ℚ)
    {spoolDropped : Nat} (hloaded : draining.Loaded) (hbatch : draining.batch = state.draining.batch)
    (hcount : spoolDropped + draining.uncounted = state.spoolDropped + state.draining.uncounted) :
    Accounts { state with draining := draining, lastTrimAt := lastTrimAt, spoolDropped := spoolDropped } log
      lost uncounted := by
  refine ⟨h.spool, hloaded, fun row => ?_, h.queueDropped, ?_⟩
  · have hall := h.accepted row
    rw [← hbatch] at hall
    exact hall
  · have hall := h.spoolDropped
    rw [← hcount] at hall
    exact hall

theorem Accounts.step (h : Accounts state log lost uncounted) {input : ConnectorInput}
    {q : ConnectorState × ConnectorLog} (hstep : connectorStep config state log input = some q) :
    Accounts q.1 q.2 (lost ++ lostBy state input) (uncounted + uncountedBy config state input) := by
  have hkeep : Accounts q.1 q.2 lost uncounted → Accounts q.1 q.2 (lost ++ []) (uncounted + 0) := by
    rw [List.append_nil]
    exact id
  cases input with
  | dataChange row =>
      refine hkeep ?_
      cases hstep
      exact h.dataChange row
  | drain now =>
      refine hkeep ?_
      rw [connectorStep] at hstep
      split at hstep
      · next hidle =>
          dsimp only at hstep
          split at hstep
          · cases hstep
            exact h
          · next hbatch =>
              cases hstep
              exact h.drain hidle now hbatch
      · cases hstep
  | written =>
      refine hkeep ?_
      rw [connectorStep] at hstep
      split at hstep
      · next batch now hdraining =>
          cases hstep
          have hoperation : spoolStep config.spool state.spool log.spool (.enqueue batch now) = some _ := rfl
          refine h.operate hoperation state.lastTrimAt ?_ (fun row => ?_) ?_
          · split <;> exact trivial
          · rw [hdraining]
            split <;> simp only [Draining.batch, SpoolInput.added, List.count_nil] <;> omega
          · rw [hdraining]
            split <;> rfl
      · cases hstep
  | writeFails =>
      rw [connectorStep] at hstep
      split at hstep
      · next batch now hdraining =>
          cases hstep
          refine ⟨h.spool, trivial, fun row => ?_, h.queueDropped, ?_⟩
          · have hall := h.accepted row
            have hheld : Draining.idle.batch.count row = 0 := rfl
            rw [lostBy, List.count_append]
            dsimp only
            omega
          · have hall := h.spoolDropped
            rw [hdraining] at hall
            exact hall
      · cases hstep
  | trimmed byteSize =>
      refine hkeep ?_
      rw [connectorStep] at hstep
      split at hstep
      · next now hdraining =>
          cases hstep
          have hoperation : spoolStep config.spool state.spool log.spool (.trim now byteSize) = some _ := rfl
          refine h.operate hoperation state.lastTrimAt trivial (fun row => ?_) ?_
          · rw [hdraining]
            rfl
          · rw [hdraining]
            simp only [Draining.uncounted, SpoolInput.trims]
            omega
      · cases hstep
  | counted =>
      refine hkeep ?_
      rw [connectorStep] at hstep
      split at hstep
      · next dropped now hdraining =>
          cases hstep
          refine h.turn state.lastTrimAt trivial ?_ ?_
          · rw [hdraining]
            rfl
          · rw [hdraining]
            rfl
      · cases hstep
  | gauged =>
      refine hkeep ?_
      rw [connectorStep] at hstep
      split at hstep
      · next now hdraining =>
          cases hstep
          refine h.turn (some now) trivial ?_ ?_
          · rw [hdraining]
            rfl
          · rw [hdraining]
            rfl
      · cases hstep
  | forward input =>
      refine hkeep ?_
      rw [connectorStep] at hstep
      split at hstep
      · next hforwarder =>
          obtain ⟨p, hp, rfl⟩ := Option.map_eq_some_iff.mp hstep
          obtain ⟨hadded, htrims⟩ := added_ofForwarder hforwarder config.spool state.spool.table
          refine h.operate hp state.lastTrimAt h.loaded (fun row => ?_) ?_
          · rw [hadded, List.count_nil, Nat.add_zero]
          · rw [htrims]
            rfl
      · cases hstep
  | reload finishes byteSize => exact h.reload hstep

/-! ## Runs -/

theorem Accounts.run {p q : ConnectorState × ConnectorLog} {inputs : List ConnectorInput}
    (h : Accounts p.1 p.2 lost uncounted) (hrun : connectorRun config p inputs = some q) :
    ∃ lost' uncounted', Accounts q.1 q.2 (lost ++ lost') (uncounted + uncounted') ∧
      (CarefulRun config p inputs ↔ lost' = [] ∧ uncounted' = 0) := by
  induction inputs generalizing p lost uncounted with
  | nil =>
      cases hrun
      refine ⟨[], 0, ?_, iff_of_true trivial ⟨rfl, rfl⟩⟩
      rw [List.append_nil]
      exact h
  | cons input inputs ih =>
      obtain ⟨p', hstep, hrun⟩ := Option.bind_eq_some_iff.mp hrun
      obtain ⟨lost', uncounted', haccounts, hcareful⟩ := ih (h.step hstep) hrun
      refine ⟨lostBy p.1 input ++ lost', uncountedBy config p.1 input + uncounted', ?_, ?_⟩
      · rw [← List.append_assoc, ← Nat.add_assoc]
        exact haccounts
      · have hnext : CarefulRun config p (input :: inputs) ↔ Careful config p.1 input ∧ CarefulRun config p' inputs := by
          refine and_congr_right fun _ => ⟨fun hrest => hrest p' hstep, fun hrest p'' hp'' => ?_⟩
          cases hstep.symm.trans hp''
          exact hrest
        rw [hnext, careful_iff h.loaded hstep, hcareful, List.append_eq_nil_iff, Nat.add_eq_zero_iff]
        exact and_and_and_comm

/-- After a run each accepted message has its place and each dropped one is counted exactly when every step was
careful. -/
theorem balanced_iff (config : ConnectorConfig) {inputs : List ConnectorInput} {q : ConnectorState × ConnectorLog}
    (hrun : connectorRun config connectorStart inputs = some q) :
    Balanced q.1 q.2 ↔ CarefulRun config connectorStart inputs := by
  obtain ⟨lost, uncounted, haccounts, hcareful⟩ := connectorStart_accounts.run hrun
  rw [List.nil_append, Nat.zero_add] at haccounts
  exact haccounts.lost_nothing_iff.trans hcareful.symm

/-- `queue_maxsize` of two, and the defaults of `SpoolWriter`. -/
def smallQueue : ConnectorConfig := ⟨siteSpool, 2, 500, 5⟩

def reading (value : Nat) : SpoolRow := ⟨lit "e/s/a", [value], 1⟩

/-- Three readings come before the writer is called: the oldest is dropped and the others are spooled. -/
theorem balanced_iff_three : ∃ q, connectorRun smallQueue connectorStart
      [.dataChange (reading 49), .dataChange (reading 50), .dataChange (reading 51), .drain 0, .written] = some q ∧
    Balanced q.1 q.2 := by
  obtain ⟨q, hq⟩ := Option.isSome_iff_exists.mp (show Option.isSome (connectorRun smallQueue connectorStart
    [.dataChange (reading 49), .dataChange (reading 50), .dataChange (reading 51), .drain 0, .written]) = true from rfl)
  refine ⟨q, hq, (balanced_iff smallQueue hq).mpr ?_⟩
  exact ⟨trivial, fun _ _ => ⟨trivial, fun _ _ => ⟨trivial, fun _ _ => ⟨trivial, fun _ _ => ⟨trivial,
    fun _ _ => trivial⟩⟩⟩⟩⟩

/-- The write of a batch fails: its reading is nowhere, and no message is counted as dropped. -/
theorem failed_write_unbalanced : ∃ q, connectorRun smallQueue connectorStart
      [.dataChange (reading 49), .drain 0, .writeFails] = some q ∧ ¬ Balanced q.1 q.2 := by
  refine ⟨_, rfl, fun hbalanced => ?_⟩
  have hlength := hbalanced.accepted.length_eq
  exact absurd hlength (by decide)

end Uns.Opcua
