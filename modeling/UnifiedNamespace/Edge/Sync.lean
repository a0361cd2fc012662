/-
# `Edge.Sync` — `config.xml` and the catalog under concurrent mutations

A mutation flushes its rows, reads the catalog in two queries, replaces `config.xml` by what
it read, and commits or rolls back.  It sees the committed rows and its own.  So the file
shows the catalog when the mutation that wrote it last commits, and no other commits after
it began to read (`config_agrees`); it does not when two mutations overlap
(`overlap_disagrees`).
-/
import UnifiedNamespace.Edge.Config

namespace Uns.Edge

open Py Lib

/-! ## Transactions -/

inductive Write where
  | saveServer (id : Str) (server : EdgeServer)
  | deleteServer (id : Str)
  | saveTag (serverId nodeId : Str) (tag : EdgeTag)
  | updateTag (serverId nodeId : Str) (patch : EdgeTag → EdgeTag)

def Write.apply (rows : Rows) : Write → Rows
  | .saveServer id server => { rows with servers := rows.servers.update id server fun _ => server }
  | .deleteServer id =>
      { servers := rows.servers.erase id
        tags := rows.tags.filter fun key _ => decide (key.1 ≠ id) }
  | .saveTag serverId nodeId tag => { rows with tags := rows.tags.update (serverId, nodeId) tag fun _ => tag }
  | .updateTag serverId nodeId patch =>
      { rows with tags := rows.tags.mapValues fun key tag => if key = (serverId, nodeId) then patch tag else tag }

/-- How far a mutation is; between its two queries it holds the servers it has read. -/
inductive TxPhase where
  | flushed
  | selected (servers : List (Str × EdgeServer))
  | written

structure Tx where
  writes : List Write
  phase : TxPhase

structure World where
  committed : Rows
  config : Document
  /-- The mutations that have not finished. -/
  active : Dict Nat Tx

/-- What a transaction sees: the committed rows and its own. -/
def World.view (w : World) (writes : List Write) : Rows := writes.foldl Write.apply w.committed

inductive Step where
  | flush (t : Nat) (writes : List Write)
  | select (t : Nat)
  | write (t : Nat)
  | commit (t : Nat)
  | rollback (t : Nat)

def World.enter (w : World) (t : Nat) (tx : Tx) : World := { w with active := w.active.update t tx fun _ => tx }

def World.leave (w : World) (t : Nat) : World := { w with active := w.active.erase t }

/-- One step; a mutation that raises takes the step `rollback`. -/
def World.step (w : World) : Step → Option World
  | .flush t writes => if (w.active.get? t).isSome then none else some (w.enter t ⟨writes, .flushed⟩)
  | .select t =>
      match w.active.get? t with
      | some ⟨writes, .flushed⟩ => some (w.enter t ⟨writes, .selected (w.view writes).servers.entries⟩)
      | _ => none
  | .write t =>
      match w.active.get? t with
      | some ⟨writes, .selected servers⟩ =>
          (edgeAdaptersFromRows servers (w.view writes).tags).map fun adapters =>
            { w.enter t ⟨writes, .written⟩ with config := applyCatalogAdapters w.config adapters }
      | _ => none
  | .commit t =>
      match w.active.get? t with
      | some ⟨writes, .written⟩ => some { w.leave t with committed := w.view writes }
      | _ => none
  | .rollback t =>
      match w.active.get? t with
      | some _ => some (w.leave t)
      | none => none

def World.run (w : World) : List Step → Option World
  | [] => some w
  | step :: steps => (w.step step).bind fun w => w.run steps

/-- The catalog's adapters in the file are those rendered from the committed rows. -/
def World.Agrees (w : World) : Prop :=
  ∃ adapters, edgeAdaptersFromRows w.committed.servers.entries w.committed.tags = some adapters ∧
    w.config.catalogAdapters = (sortedAdapters adapters).map renderCatalogAdapter

/-! ## The last write -/

/-- The mutation that takes the step. -/
def Step.tx : Step → Nat
  | .flush t _ => t
  | .select t => t
  | .write t => t
  | .commit t => t
  | .rollback t => t

def Step.commits : Step → Bool
  | .commit _ => true
  | _ => false

def Step.writes : Step → Bool
  | .write _ => true
  | _ => false

/-- The steps from the reading for the last write on: the mutation that wrote commits, and no
other does. -/
structure KeptFrom (t : Nat) (middle after rest : List Step) : Prop where
  own : ∀ step ∈ middle ++ after, step.tx ≠ t
  commits : ∀ step ∈ middle ++ after ++ rest, step.commits = false
  last : ∀ step ∈ after ++ rest, step.writes = false

/-- Nothing is written to the file; or the mutation that wrote it last commits, and no other
after it began to read for that. -/
def LastWriteKept (steps : List Step) : Prop :=
  (∀ step ∈ steps, step.writes = false) ∨
    ∃ t before middle after rest, steps = before ++ .select t :: (middle ++ .write t :: (after ++ .commit t :: rest)) ∧
      KeptFrom t middle after rest

/-! ## One step -/

section

variable {w w' : World} {step : Step} {t : Nat} {tx : Tx}

/-- What a step can change. -/
theorem step_frame (h : w.step step = some w') :
    (∀ t, t ≠ step.tx → w'.active.get? t = w.active.get? t) ∧
      (step.commits = false → w'.committed = w.committed) ∧ (step.writes = false → w'.config = w.config) := by
  have henter : ∀ (u : Nat) (tx : Tx) t, t ≠ u → (w.enter u tx).active.get? t = w.active.get? t :=
    fun u tx t hne => Dict.get?_update_ne _ _ _ hne
  have hleave : ∀ (u : Nat) t, t ≠ u → (w.leave u).active.get? t = w.active.get? t :=
    fun u t hne => Dict.get?_erase_ne _ hne
  cases step with
  | flush u writes =>
      rw [World.step] at h
      split at h
      · cases h
      · cases h
        exact ⟨henter u _, fun _ => rfl, fun _ => rfl⟩
  | select u =>
      rw [World.step] at h
      split at h
      · cases h
        exact ⟨henter u _, fun _ => rfl, fun _ => rfl⟩
      · cases h
  | write u =>
      rw [World.step] at h
      split at h
      · obtain ⟨adapters, _, rfl⟩ := Option.map_eq_some_iff.mp h
        exact ⟨henter u _, fun _ => rfl, fun hno => (by cases hno)⟩
      · cases h
  | commit u =>
      rw [World.step] at h
      split at h
      · cases h
        exact ⟨hleave u, fun hno => (by cases hno), fun _ => rfl⟩
      · cases h
  | rollback u =>
      rw [World.step] at h
      split at h
      · cases h
        exact ⟨hleave u, fun _ => rfl, fun _ => rfl⟩
      · cases h

theorem select_spec (h : w.step (.select t) = some w') :
    ∃ writes, w'.active.get? t = some ⟨writes, .selected (w.view writes).servers.entries⟩ ∧
      w'.committed = w.committed := by
  rw [World.step] at h
  split at h
  · next writes hget =>
    cases h
    refine ⟨writes, ?_, rfl⟩
    rw [World.enter, Dict.get?_update_self]
  · cases h

theorem write_spec {writes : List Write} {servers : List (Str × EdgeServer)}
    (hget : w.active.get? t = some ⟨writes, .selected servers⟩) (h : w.step (.write t) = some w') :
    w'.active.get? t = some ⟨writes, .written⟩ ∧ w'.committed = w.committed ∧
      ∃ adapters, edgeAdaptersFromRows servers (w.view writes).tags = some adapters ∧
        w'.config = applyCatalogAdapters w.config adapters := by
  rw [World.step, hget] at h
  obtain ⟨adapters, hadapters, rfl⟩ := Option.map_eq_some_iff.mp h
  refine ⟨?_, rfl, adapters, hadapters, rfl⟩
  rw [World.enter, Dict.get?_update_self]

theorem commit_spec {writes : List Write} (hget : w.active.get? t = some ⟨writes, .written⟩)
    (h : w.step (.commit t) = some w') : w'.committed = w.view writes ∧ w'.config = w.config := by
  rw [World.step, hget] at h
  cases h
  exact ⟨rfl, rfl⟩

/-! ## Runs -/

theorem run_append {before after : List Step} (h : w.run (before ++ after) = some w') :
    ∃ mid, w.run before = some mid ∧ mid.run after = some w' := by
  induction before generalizing w with
  | nil => exact ⟨w, rfl, h⟩
  | cons step before ih =>
      rw [List.cons_append, World.run, Option.bind_eq_some_iff] at h
      obtain ⟨next, hstep, hrest⟩ := h
      obtain ⟨mid, hbefore, hafter⟩ := ih hrest
      exact ⟨mid, by rw [World.run, hstep]; exact hbefore, hafter⟩

theorem run_cons {steps : List Step} (h : w.run (step :: steps) = some w') :
    ∃ next, w.step step = some next ∧ next.run steps = some w' := Option.bind_eq_some_iff.mp h

/-- What the steps of others leave of a mutation, of the committed rows and of the file. -/
theorem run_frame {steps : List Step} (h : w.run steps = some w') :
    ((∀ step ∈ steps, step.tx ≠ t) → w'.active.get? t = w.active.get? t) ∧
      ((∀ step ∈ steps, step.commits = false) → w'.committed = w.committed) ∧
        ((∀ step ∈ steps, step.writes = false) → w'.config = w.config) := by
  induction steps generalizing w with
  | nil =>
      cases h
      exact ⟨fun _ => rfl, fun _ => rfl, fun _ => rfl⟩
  | cons step steps ih =>
      obtain ⟨next, hstep, hrest⟩ := run_cons h
      obtain ⟨htx, hcommitted, hconfig⟩ := step_frame hstep
      obtain ⟨htx', hcommitted', hconfig'⟩ := ih hrest
      simp only [List.forall_mem_cons]
      exact ⟨fun hall => (htx' hall.2).trans (htx t hall.1.symm),
        fun hall => (hcommitted' hall.2).trans (hcommitted hall.1),
        fun hall => (hconfig' hall.2).trans (hconfig hall.1)⟩

/-- A step that does not write the file leaves no mutation as one that has. -/
theorem step_unwritten (h : w.step step = some w') (hwrites : step.writes = false)
    (hnone : ∀ u tx, w.active.get? u = some tx → tx.phase ≠ .written) :
    step.commits = false ∧ ∀ u tx, w'.active.get? u = some tx → tx.phase ≠ .written := by
  have hother := (step_frame h).1
  have hkept : ∀ v, (∀ tx, w'.active.get? v = some tx → tx.phase ≠ .written) → step.tx = v →
      ∀ u tx, w'.active.get? u = some tx → tx.phase ≠ .written := by
    rintro v hv rfl u tx hget
    by_cases hu : u = step.tx
    · exact hv tx (hu ▸ hget)
    · exact hnone u tx ((hother u hu).symm.trans hget)
  cases step with
  | flush u writes =>
      refine ⟨rfl, hkept u ?_ rfl⟩
      rw [World.step] at h
      split at h
      · cases h
      · cases h
        intro tx hget
        rw [World.enter, Dict.get?_update_self] at hget
        cases hget
        exact fun hwritten => (by cases hwritten)
  | select u =>
      refine ⟨rfl, hkept u ?_ rfl⟩
      obtain ⟨writes, hget, _⟩ := select_spec h
      intro tx htx
      cases hget.symm.trans htx
      exact fun hwritten => (by cases hwritten)
  | write u => cases hwrites
  | commit u =>
      rw [World.step] at h
      split at h
      · next writes hget => exact absurd rfl (hnone u _ hget)
      · cases h
  | rollback u =>
      refine ⟨rfl, hkept u ?_ rfl⟩
      rw [World.step] at h
      split at h
      · cases h
        intro tx hget
        rw [World.leave, Dict.get?_erase_self] at hget
        cases hget
      · cases h

/-- Where no mutation has written the file, and none does, none commits. -/
theorem run_unwritten {steps : List Step} (h : w.run steps = some w')
    (hnone : ∀ u tx, w.active.get? u = some tx → tx.phase ≠ .written)
    (hwrites : ∀ step ∈ steps, step.writes = false) : ∀ step ∈ steps, step.commits = false := by
  induction steps generalizing w with
  | nil => exact fun step hstep => (nomatch hstep)
  | cons step steps ih =>
      obtain ⟨next, hstep, hrest⟩ := run_cons h
      obtain ⟨hwrite, hwrites⟩ := List.forall_mem_cons.mp hwrites
      obtain ⟨hcommits, hnext⟩ := step_unwritten hstep hwrite hnone
      exact List.forall_mem_cons.mpr ⟨hcommits, ih hrest hnext hwrites⟩

/-- The run from the reading for the last write on. -/
theorem KeptFrom.agrees {middle after rest : List Step} (hkept : KeptFrom t middle after rest)
    (hrun : w.run (.select t :: (middle ++ .write t :: (after ++ .commit t :: rest))) = some w') : w'.Agrees := by
  obtain ⟨w₁, hselect, hrun⟩ := run_cons hrun
  obtain ⟨w₂, hmiddle, hrun⟩ := run_append hrun
  obtain ⟨w₃, hwrite, hrun⟩ := run_cons hrun
  obtain ⟨w₄, hafter, hrun⟩ := run_append hrun
  obtain ⟨w₅, hcommit, hrest⟩ := run_cons hrun
  obtain ⟨hown, hcommits, hlast⟩ := hkept
  simp only [List.forall_mem_append] at hown hcommits hlast
  -- what it has read stays as it read it
  obtain ⟨writes, hget₁, hcommitted₁⟩ := select_spec hselect
  obtain ⟨htx₂, hcommitted₂, _⟩ := run_frame (t := t) hmiddle
  have hget₂ := (htx₂ hown.1).trans hget₁
  obtain ⟨hget₃, hcommitted₃, adapters, hadapters, hconfig₃⟩ := write_spec hget₂ hwrite
  obtain ⟨htx₄, hcommitted₄, hconfig₄⟩ := run_frame (t := t) hafter
  obtain ⟨hcommitted₅, hconfig₅⟩ := commit_spec ((htx₄ hown.2).trans hget₃) hcommit
  obtain ⟨_, hcommitted', hconfig'⟩ := run_frame (t := t) hrest
  have hbefore : w₂.committed = w.committed := (hcommitted₂ hcommits.1.1).trans hcommitted₁
  have hview₂ : w₂.view writes = w.view writes := by rw [World.view, hbefore, World.view]
  have hview₄ : w₄.view writes = w.view writes := by
    rw [World.view, hcommitted₄ hcommits.1.2, hcommitted₃, hbefore, World.view]
  refine ⟨adapters, ?_, ?_⟩
  · rw [hcommitted' hcommits.2, hcommitted₅, hview₄, ← hadapters, hview₂]
  · rw [hconfig' hlast.2, hconfig₅, hconfig₄ hlast.1, hconfig₃, catalogAdapters_apply]

end

/-- After a run from a state without open mutations, in which file and catalog agree, they
agree when the mutation that wrote the file last commits, and no other after it began to read. -/
theorem config_agrees {w w' : World} {steps : List Step} (hagrees : w.Agrees) (hidle : w.active.keys = [])
    (hrun : w.run steps = some w') (hkept : LastWriteKept steps) : w'.Agrees := by
  rcases hkept with hnone | ⟨t, before, middle, after, rest, rfl, hkept⟩
  · have hopen : ∀ u tx, w.active.get? u = some tx → tx.phase ≠ .written := by
      intro u tx hget
      rw [Dict.get?_eq_none.mpr (by rw [hidle]; exact List.not_mem_nil)] at hget
      cases hget
    obtain ⟨_, hcommitted, hconfig⟩ := run_frame (t := 0) hrun
    obtain ⟨adapters, hadapters, hfile⟩ := hagrees
    refine ⟨adapters, ?_, ?_⟩
    · rw [hcommitted (run_unwritten hrun hopen hnone)]
      exact hadapters
    · rw [hconfig hnone]
      exact hfile
  · obtain ⟨w₁, _, hrun⟩ := run_append hrun
    exact hkept.agrees hrun

/-! ### Two mutations that overlap -/

/-- An empty catalog, and a document without adapters. -/
def freshWorld : World := ⟨⟨.empty, .empty⟩, ⟨lit "<hivemq>", [], lit "</hivemq>"⟩, .empty⟩

def saves (t : Nat) (id : Str) : Step := .flush t [.saveServer id ⟨lit "opc_ua", lit "opc.tcp://plc:4840", none⟩]

theorem freshWorld_agrees : freshWorld.Agrees := ⟨[], rfl, rfl⟩

/-- One after the other. -/
theorem config_agrees_serial : ∃ w', freshWorld.run [saves 1 (lit "a"), .select 1, .write 1, .commit 1,
    saves 2 (lit "b"), .select 2, .write 2, .commit 2] = some w' ∧ w'.Agrees :=
  ⟨_, rfl, config_agrees freshWorld_agrees rfl rfl (.inr ⟨2, [saves 1 (lit "a"), .select 1, .write 1, .commit 1,
    saves 2 (lit "b")], [], [], [], rfl, ⟨nofun, nofun, nofun⟩⟩)⟩

/-- The second has written the file before the first commits, and does not see its server. -/
theorem overlap_disagrees : ∃ w', freshWorld.run [saves 1 (lit "a"), .select 1, .write 1, saves 2 (lit "b"),
    .select 2, .write 2, .commit 2, .commit 1] = some w' ∧ w'.active.keys = [] ∧ ¬ w'.Agrees := by
  refine ⟨_, rfl, rfl, ?_⟩
  rintro ⟨adapters, hadapters, hfile⟩
  have hlength := congrArg List.length hfile
  cases hadapters
  revert hlength
  decide +kernel

end Uns.Edge
