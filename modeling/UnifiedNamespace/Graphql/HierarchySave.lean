/-
# `Graphql.HierarchySave` — saves, retries and the job file

`save_hierarchy` and `retry_hierarchy_migrate` of `mutations/hierarchy.py` as steps, one for
each write: the job file, the tree, the branding, the reseed, and the rounds of the
migrate.  Under the lock one call runs at a time.  Before or after any write the process
may die, and any write may raise, with or without effect.

Beside the state a run keeps what is owed: each rename of a stored tree, and which of the
two stores has carried it out since.  A rename is forgotten when it is owed and the file
does not list it (`renames_not_forgotten`).
-/
import UnifiedNamespace.Graphql.Migrate
import UnifiedNamespace.Lib.Transition

namespace Uns.Graphql

open Py Lib Model

/-! ## The job file -/

/-- `STALE_RUNNING_AFTER`, in microseconds. -/
def staleRunningAfter : ℤ := 300000000

def isStaleRunning (record : JobRecord) (now : ℤ) : Bool :=
  decide (record.status = .running) && record.startedAt.all fun started => staleRunningAfter < now - started

/-- An entry of the list without a name on either side is skipped. -/
def readable (rename : PrefixRename) : Bool :=
  decide (rename.oldPrefix ≠ []) && decide (rename.newPrefix ≠ [])

/-- `_pending_from_raw`: the list, or else the current pair. -/
def pendingFromRaw (record : JobRecord) : List PrefixRename :=
  let listed := record.pending.filter readable
  if listed ≠ [] then listed
  else
    match record.oldPrefix, record.newPrefix with
    | some oldPrefix, some newPrefix => [PrefixRename.mk oldPrefix newPrefix].filter readable
    | _, _ => []

/-- `_record_from_raw`: a stale running record is a failed one. -/
def recordFromRaw (record : JobRecord) (now : ℤ) : JobRecord :=
  let pending := pendingFromRaw record
  let stale := isStaleRunning record now
  let oldPrefix := record.oldPrefix.filter (· ≠ [])
  { record with
    status := if stale then .failed else record.status
    pending := pending
    error := if stale then record.error.or (some .stalled) else record.error
    oldPrefix := oldPrefix.or (pending.head?.map (·.oldPrefix))
    newPrefix := if oldPrefix.isSome then record.newPrefix
      else (pending.head?.map (·.newPrefix)).or record.newPrefix }

/-- `_load_record`. -/
def loadRecord (job : Option JobRecord) (now : ℤ) : JobRecord :=
  match job with
  | none => idleRecord
  | some record => recordFromRaw record now

/-! ## Calls in steps -/

/-- The variables of `_run_migrate`. -/
structure Migration where
  pending : List PrefixRename
  startedAt : ℤ
  rewritten : Nat
  last : Option PrefixRename

/-- The next write of a migrate. -/
inductive Stage where
  | record
  | historian
  | graph
  | failure (error : JobError)

/-- The next write of the running call. -/
inductive Phase where
  | rest
  | recording (tree : HierarchyTree) (renames : List PrefixRename)
  | storing (tree : HierarchyTree) (renames : List PrefixRename)
  | branding (renames : List PrefixRename)
  | reseeding (renames : List PrefixRename)
  | migrating (stage : Stage) (migration : Migration)

/-- A rename of a stored tree, and where it has been carried out since. -/
structure Debt where
  rename : PrefixRename
  historian : Bool
  graph : Bool
deriving DecidableEq

/-- `backed` says that the tree of the renames in the job file is stored. -/
structure Plant where
  tree : HierarchyTree
  job : Option JobRecord
  stores : Stores
  phase : Phase
  debts : List Debt
  backed : Bool

namespace Plant

/-- What the job file lists. -/
def pending (s : Plant) : List PrefixRename := (s.job.map (·.pending)).getD []

def inHistorian (rename : PrefixRename) (debts : List Debt) : List Debt :=
  debts.map fun debt => if debt.rename = rename then { debt with historian := true } else debt

def inGraph (rename : PrefixRename) (debts : List Debt) : List Debt :=
  debts.map fun debt => if debt.rename = rename then { debt with graph := true } else debt

/-- The record of the next round, or of the end. -/
def Migration.record (m : Migration) : JobRecord :=
  if m.pending = [] then doneRecord m.last m.rewritten m.startedAt
  else runningRecord m.pending m.rewritten m.startedAt

/-- The current rename in the historian. -/
def rewriteHistorian (s : Plant) (m : Migration) : Plant :=
  match m.pending with
  | [] => s
  | current :: _ =>
      match s.stores.historian.rewriteTopicPrefix current.oldPrefix current.newPrefix with
      | .error _ => s
      | .ok (historian, _) =>
          { s with
            stores := { s.stores with historian := historian }
            debts := inHistorian current s.debts }

/-- The current rename in the graph. -/
def rewriteGraph (s : Plant) (m : Migration) : Plant :=
  match m.pending with
  | [] => s
  | current :: _ =>
      match rewriteGraphPrefix s.stores.graph current.oldPrefix current.newPrefix with
      | .error _ => s
      | .ok (graph, _) =>
          { s with
            stores := { s.stores with graph := graph }
            debts := inGraph current s.debts }

/-- The effect of the next write; `now` is the clock. -/
def perform (s : Plant) (now : ℤ) : Plant :=
  match s.phase with
  | .rest => s
  | .recording _ renames => { s with job := some (runningRecord renames 0 now), backed := false }
  | .storing tree renames =>
      { s with
        tree := tree
        debts := s.debts ++ renames.map fun rename => ⟨rename, false, false⟩
        backed := s.backed || decide (renames ≠ []) }
  | .branding _ => s
  | .reseeding _ => s
  | .migrating .record m => { s with job := some (Migration.record m) }
  | .migrating .historian m => s.rewriteHistorian m
  | .migrating .graph m => s.rewriteGraph m
  | .migrating (.failure error) m =>
      { s with job := some (failedRecord m.pending m.last m.rewritten error m.startedAt) }

/-- After a rewrite of the historian, with the rows it changed. -/
def afterHistorian (s : Plant) (m : Migration) : Phase :=
  match m.pending with
  | [] => .migrating .record m
  | current :: _ =>
      match s.stores.historian.rewriteTopicPrefix current.oldPrefix current.newPrefix with
      | .error e => .migrating (.failure (.rewrite e)) m
      | .ok (_, rows) => .migrating .graph { m with rewritten := m.rewritten + rows }

/-- After a rewrite of the graph the rename is no longer pending. -/
def afterGraph (s : Plant) (m : Migration) : Phase :=
  match m.pending with
  | [] => .migrating .record m
  | current :: pending =>
      match rewriteGraphPrefix s.stores.graph current.oldPrefix current.newPrefix with
      | .error e => .migrating (.failure (.rewrite e)) m
      | .ok (_, nodes) =>
          .migrating .record { m with pending := pending, rewritten := m.rewritten + nodes }

/-- Where the call goes on when the write returned. -/
def next (s : Plant) (now : ℤ) : Phase :=
  match s.phase with
  | .rest => .rest
  | .recording tree renames => .storing tree renames
  | .storing _ renames => .branding renames
  | .branding renames => .reseeding renames
  | .reseeding renames =>
      if renames = [] then .rest else .migrating .record ⟨renames, now, 0, none⟩
  | .migrating .record m =>
      if m.pending = [] then .rest
      else .migrating .historian { m with last := m.pending.head?.or m.last }
  | .migrating .historian m => s.afterHistorian m
  | .migrating .graph m => s.afterGraph m
  | .migrating (.failure _) _ => .rest

/-- Where the call goes on when the write raised. -/
def raised (s : Plant) (text : Str) : Phase :=
  match s.phase with
  | .migrating (.failure _) _ => .rest
  | .migrating _ m => .migrating (.failure (.store text)) m
  | _ => .rest

inductive Call where
  | saveHierarchy (tree : HierarchyTree) (renames : List PrefixRename)
  | retryHierarchyMigrate

/-- A call up to its first write; one that is refused writes nothing. -/
def begin (s : Plant) (now : ℤ) : Call → Phase
  | .saveHierarchy tree renames =>
      if renames ≠ [] ∧ (loadRecord s.job now).status = .running then .rest
      else if validateTree tree ≠ .ok () then .rest
      else if renames = [] then .storing tree renames
      else if validateRenames tree s.tree renames ≠ .ok () then .rest
      else .recording tree renames
  | .retryHierarchyMigrate =>
      let record := loadRecord s.job now
      if record.status ≠ .failed ∧ record.status ≠ .running then .rest
      else if record.pending = [] then .rest
      else .migrating .record ⟨record.pending, now, record.rewritten.getD 0, none⟩

end Plant

/-- What happens next. -/
inductive PlantEvent where
  | call (call : Plant.Call) (now : ℤ)
  | write (now : ℤ)
  | raise (took : Bool) (now : ℤ) (text : Str)
  | crash

/-- One event; a call waits for the one before. -/
def Plant.after (s : Plant) : PlantEvent → Plant
  | .call call now =>
      match s.phase with
      | .rest => { s with phase := s.begin now call }
      | _ => s
  | .write now => { s.perform now with phase := s.next now }
  | .raise took now text =>
      { if took then s.perform now else s with phase := s.raised text }
  | .crash => { s with phase := .rest }

/-- A plant with no rename under way. -/
structure Plant.Fresh (s : Plant) : Prop where
  phase : s.phase = .rest
  pending : s.pending = []
  debts : s.debts = []
  backed : s.backed = true

def plantSystem : System Plant PlantEvent where
  init := Plant.Fresh
  step s event t := t = s.after event

/-! ## What is owed -/

/-- Carried out in both stores. -/
def Debt.Settled (debt : Debt) : Prop := debt.historian = true ∧ debt.graph = true

instance (debt : Debt) : Decidable debt.Settled := inferInstanceAs (Decidable (_ ∧ _))

/-- What is not settled is listed. -/
def Owed (debts : List Debt) (listed : List PrefixRename) : Prop :=
  ∀ debt ∈ debts, debt.Settled ∨ debt.rename ∈ listed

/-- No rename of a stored tree is forgotten; between calls the file lists renames of a stored
tree only. -/
structure Plant.Kept (s : Plant) : Prop where
  owed : Owed s.debts s.pending
  stored : s.phase = .rest → s.pending ≠ [] → s.backed = true

/-- The event does not lose the list: a new list replaces settled renames only, the tree follows
its list into the store, and a retry can read all of it. -/
def Plant.Careful (s : Plant) (event : PlantEvent) : Prop :=
  match s.phase, event with
  | .rest, .call .retryHierarchyMigrate _ => ∀ rename ∈ s.pending, readable rename = true
  | .recording _ renames, .write _ =>
      ∀ debt ∈ s.debts, debt.rename ∈ s.pending → debt.Settled ∨ debt.rename ∈ renames
  | .recording _ _, .raise took _ _ => took = false
  | .storing _ renames, .raise took _ _ => renames = [] ∨ took = true
  | .storing _ renames, .crash => renames = []
  | _, _ => True

section

variable {debts : List Debt} {listed : List PrefixRename} {rename : PrefixRename}

theorem owed_inHistorian (h : Owed debts listed) : Owed (Plant.inHistorian rename debts) listed := by
  refine List.forall_mem_map.mpr fun debt hdebt => ?_
  by_cases heq : debt.rename = rename
  · rw [if_pos heq]
    exact (h debt hdebt).imp (fun hs => ⟨rfl, hs.2⟩) id
  · rw [if_neg heq]
    exact h debt hdebt

theorem historian_inHistorian :
    ∀ debt ∈ Plant.inHistorian rename debts, debt.rename = rename → debt.historian = true := by
  refine List.forall_mem_map.mpr fun debt _ => ?_
  by_cases heq : debt.rename = rename
  · rw [if_pos heq]
    exact fun _ => rfl
  · rw [if_neg heq]
    exact fun h => absurd h heq

theorem owed_inGraph (h : Owed debts listed) : Owed (Plant.inGraph rename debts) listed := by
  refine List.forall_mem_map.mpr fun debt hdebt => ?_
  by_cases heq : debt.rename = rename
  · rw [if_pos heq]
    exact (h debt hdebt).imp (fun hs => ⟨hs.1, rfl⟩) id
  · rw [if_neg heq]
    exact h debt hdebt

/-- Once both stores carried a rename out, it need not be listed. -/
theorem owed_tail (h : Owed debts (rename :: listed))
    (hhistorian : ∀ debt ∈ debts, debt.rename = rename → debt.historian = true) :
    Owed (Plant.inGraph rename debts) listed := by
  refine List.forall_mem_map.mpr fun debt hdebt => ?_
  by_cases heq : debt.rename = rename
  · rw [if_pos heq]
    exact .inl ⟨hhistorian debt hdebt heq, rfl⟩
  · rw [if_neg heq]
    exact (h debt hdebt).imp_right fun hmem => (List.mem_cons.mp hmem).resolve_left heq

end

/-! ## The invariant -/

/-- The current rename of a migrate is in the historian. -/
def InHistorian (debts : List Debt) (m : Migration) : Prop :=
  ∀ current ∈ m.pending.head?, ∀ debt ∈ debts, debt.rename = current → debt.historian = true

/-- What a phase may rely on. -/
def Plant.PhaseInv (s : Plant) : Phase → Prop
  | .rest => s.backed = true
  | .recording _ renames => s.backed = true ∧ renames ≠ []
  | .storing _ renames => s.backed = decide (renames = []) ∧ (renames ≠ [] → s.pending = renames)
  | .branding renames => s.backed = true ∧ (renames ≠ [] → s.pending = renames)
  | .reseeding renames => s.backed = true ∧ (renames ≠ [] → s.pending = renames)
  | .migrating .graph m => s.backed = true ∧ Owed s.debts m.pending ∧ InHistorian s.debts m
  | .migrating _ m => s.backed = true ∧ Owed s.debts m.pending

structure Plant.Inv (s : Plant) : Prop where
  owed : Owed s.debts s.pending
  phase : s.PhaseInv s.phase

section

variable {s : Plant}

/-- A retry reads the whole list. -/
theorem mem_loadRecord (now : ℤ) (hreadable : ∀ rename ∈ s.pending, readable rename = true)
    {rename : PrefixRename} (h : rename ∈ s.pending) : rename ∈ (loadRecord s.job now).pending := by
  cases hjob : s.job with
  | none =>
      rw [Plant.pending, hjob] at h
      cases h
  | some record =>
      have hpending : s.pending = record.pending := by
        rw [Plant.pending, hjob]
        rfl
      rw [hpending] at h hreadable
      have hlisted : pendingFromRaw record = record.pending := by
        simp only [pendingFromRaw, List.filter_eq_self.mpr hreadable, ne_eq,
          List.ne_nil_of_mem h, not_false_eq_true, if_true]
      have hload : (loadRecord (some record) now).pending = pendingFromRaw record := rfl
      rwa [hload, hlisted]

theorem record_pending (m : Migration) : (Plant.Migration.record m).pending = m.pending := by
  rw [Plant.Migration.record]
  split
  · rename_i hnone
    exact hnone.symm
  · rfl

/-- A new call. -/
theorem Plant.inv_begin (h : s.Inv) (hrest : s.phase = .rest) (now : ℤ) (call : Plant.Call)
    (hcareful : s.Careful (.call call now)) : ({ s with phase := s.begin now call } : Plant).Inv := by
  obtain ⟨tree, job, stores, phase, debts, backed⟩ := s
  obtain ⟨howed, hphase⟩ := h
  cases hrest
  refine ⟨howed, ?_⟩
  cases call with
  | saveHierarchy tree renames =>
      simp only [Plant.begin]
      split
      · exact hphase
      · split
        · exact hphase
        · split
          · rename_i hnone
            exact ⟨by rw [hnone]; exact hphase, fun hne => absurd hnone hne⟩
          · rename_i hsome
            split
            · exact hphase
            · exact ⟨hphase, hsome⟩
  | retryHierarchyMigrate =>
      simp only [Plant.begin]
      split
      · exact hphase
      · split
        · exact hphase
        · refine ⟨hphase, fun debt hdebt => (howed debt hdebt).imp_right fun hmem => ?_⟩
          exact mem_loadRecord now hcareful hmem

/-- The next write, when it returns. -/
theorem Plant.inv_write (h : s.Inv) (now : ℤ) (hcareful : s.Careful (.write now)) :
    ({ s.perform now with phase := s.next now } : Plant).Inv := by
  obtain ⟨tree, job, stores, phase, debts, backed⟩ := s
  obtain ⟨howed, hphase⟩ := h
  cases phase with
  | rest => exact ⟨howed, hphase⟩
  | recording tree renames =>
      refine ⟨fun debt hdebt => ?_, (decide_eq_false hphase.2).symm, fun _ => rfl⟩
      rcases howed debt hdebt with hsettled | hmem
      · exact .inl hsettled
      · exact hcareful debt hdebt hmem
  | storing tree renames =>
      obtain ⟨hbacked, hlisted⟩ := hphase
      refine ⟨?_, ?_, hlisted⟩
      · refine List.forall_mem_append.mpr ⟨howed, List.forall_mem_map.mpr fun rename hrename => ?_⟩
        exact .inr (hlisted (List.ne_nil_of_mem hrename) ▸ hrename)
      · by_cases hnone : renames = [] <;> simp_all [Plant.perform]
  | branding renames => exact ⟨howed, hphase⟩
  | reseeding renames =>
      obtain ⟨hbacked, hlisted⟩ := hphase
      by_cases hnone : renames = []
      · simp only [Plant.perform, Plant.next, if_pos hnone]
        exact ⟨howed, hbacked⟩
      · have hrenames : Owed debts renames := hlisted hnone ▸ howed
        simp only [Plant.perform, Plant.next, if_neg hnone]
        exact ⟨howed, hbacked, hrenames⟩
  | migrating stage m =>
      cases stage with
      | record =>
          refine ⟨?_, ?_⟩
          · have hlisted : Owed debts (Plant.Migration.record m).pending :=
              (record_pending m).symm ▸ hphase.2
            exact hlisted
          · by_cases hnone : m.pending = []
            · simp only [Plant.next, if_pos hnone]
              exact hphase.1
            · simp only [Plant.next, if_neg hnone]
              exact hphase
      | historian =>
          cases hpending : m.pending with
          | nil =>
              simp only [Plant.perform, Plant.rewriteHistorian, Plant.next, Plant.afterHistorian,
                hpending]
              exact ⟨howed, hphase⟩
          | cons current rest =>
              cases hrewrite : stores.historian.rewriteTopicPrefix current.oldPrefix
                current.newPrefix with
              | error e =>
                  simp only [Plant.perform, Plant.rewriteHistorian, Plant.next,
                    Plant.afterHistorian, hpending, hrewrite]
                  exact ⟨howed, hphase⟩
              | ok out =>
                  simp only [Plant.perform, Plant.rewriteHistorian, Plant.next,
                    Plant.afterHistorian, hpending, hrewrite]
                  have hm : Owed debts (current :: rest) := hpending ▸ hphase.2
                  refine ⟨owed_inHistorian howed, hphase.1, owed_inHistorian hm, ?_⟩
                  intro head hhead
                  cases hhead
                  exact historian_inHistorian
      | graph =>
          obtain ⟨hbacked, hm, hhistorian⟩ := hphase
          cases hpending : m.pending with
          | nil =>
              simp only [Plant.perform, Plant.rewriteGraph, Plant.next, Plant.afterGraph, hpending]
              exact ⟨howed, hbacked, hm⟩
          | cons current rest =>
              cases hrewrite : rewriteGraphPrefix stores.graph current.oldPrefix
                current.newPrefix with
              | error e =>
                  simp only [Plant.perform, Plant.rewriteGraph, Plant.next, Plant.afterGraph,
                    hpending, hrewrite]
                  exact ⟨howed, hbacked, hm⟩
              | ok out =>
                  simp only [Plant.perform, Plant.rewriteGraph, Plant.next, Plant.afterGraph,
                    hpending, hrewrite]
                  rw [hpending] at hm
                  rw [InHistorian, hpending] at hhistorian
                  exact ⟨owed_inGraph howed, hbacked, owed_tail hm (hhistorian current rfl)⟩
      | failure error => exact ⟨hphase.2, hphase.1⟩

/-- A rewrite settles debts, and leaves the file alone. -/
theorem rewriteHistorian_cases (s : Plant) (m : Migration) :
    s.rewriteHistorian m = s ∨ ∃ current historian, s.rewriteHistorian m =
      { s with
        stores := { s.stores with historian := historian }
        debts := Plant.inHistorian current s.debts } := by
  cases hpending : m.pending with
  | nil => exact .inl (by simp only [Plant.rewriteHistorian, hpending])
  | cons current rest =>
      cases hrewrite : s.stores.historian.rewriteTopicPrefix current.oldPrefix
        current.newPrefix with
      | error e => exact .inl (by simp only [Plant.rewriteHistorian, hpending, hrewrite])
      | ok out =>
          exact .inr ⟨current, out.1, by simp only [Plant.rewriteHistorian, hpending, hrewrite]⟩

theorem rewriteGraph_cases (s : Plant) (m : Migration) :
    s.rewriteGraph m = s ∨ ∃ current graph, s.rewriteGraph m =
      { s with
        stores := { s.stores with graph := graph }
        debts := Plant.inGraph current s.debts } := by
  cases hpending : m.pending with
  | nil => exact .inl (by simp only [Plant.rewriteGraph, hpending])
  | cons current rest =>
      cases hrewrite : rewriteGraphPrefix s.stores.graph current.oldPrefix current.newPrefix with
      | error e => exact .inl (by simp only [Plant.rewriteGraph, hpending, hrewrite])
      | ok out =>
          exact .inr ⟨current, out.1, by simp only [Plant.rewriteGraph, hpending, hrewrite]⟩

/-- A migrate keeps its list and the file's. -/
theorem perform_migrating {stage : Stage} {m : Migration} (hstage : s.phase = .migrating stage m)
    (howed : Owed s.debts s.pending) (hm : Owed s.debts m.pending) (now : ℤ) :
    Owed (s.perform now).debts (s.perform now).pending ∧ Owed (s.perform now).debts m.pending ∧
      (s.perform now).backed = s.backed := by
  cases stage with
  | record =>
      have hperform : s.perform now = { s with job := some (Plant.Migration.record m) } := by
        rw [Plant.perform, hstage]
      rw [hperform]
      have hlisted : Owed s.debts (Plant.Migration.record m).pending :=
        (record_pending m).symm ▸ hm
      exact ⟨hlisted, hm, rfl⟩
  | historian =>
      have hperform : s.perform now = s.rewriteHistorian m := by
        rw [Plant.perform, hstage]
      rw [hperform]
      rcases rewriteHistorian_cases s m with heq | ⟨current, historian, heq⟩ <;> rw [heq]
      · exact ⟨howed, hm, rfl⟩
      · exact ⟨owed_inHistorian howed, owed_inHistorian hm, rfl⟩
  | graph =>
      have hperform : s.perform now = s.rewriteGraph m := by
        rw [Plant.perform, hstage]
      rw [hperform]
      rcases rewriteGraph_cases s m with heq | ⟨current, graph, heq⟩ <;> rw [heq]
      · exact ⟨howed, hm, rfl⟩
      · exact ⟨owed_inGraph howed, owed_inGraph hm, rfl⟩
  | failure error =>
      have hperform : s.perform now =
          { s with job := some (failedRecord m.pending m.last m.rewritten error m.startedAt) } := by
        rw [Plant.perform, hstage]
      rw [hperform]
      exact ⟨hm, hm, rfl⟩

theorem Plant.PhaseInv.migrating {stage : Stage} {m : Migration}
    (h : s.PhaseInv (.migrating stage m)) : s.backed = true ∧ Owed s.debts m.pending := by
  cases stage with
  | graph => exact ⟨h.1, h.2.1⟩
  | _ => exact h

/-- A write that raised: its effect may have taken place. -/
theorem Plant.inv_raise (h : s.Inv) {took : Bool} (now : ℤ) (text : Str)
    (hcareful : s.Careful (.raise took now text)) :
    ({ if took then s.perform now else s with phase := s.raised text } : Plant).Inv := by
  obtain ⟨tree, job, stores, phase, debts, backed⟩ := s
  obtain ⟨howed, hphase⟩ := h
  cases phase with
  | rest => cases took <;> exact ⟨howed, hphase⟩
  | recording tree renames =>
      cases hcareful
      exact ⟨howed, hphase.1⟩
  | storing tree renames =>
      obtain ⟨hbacked, hlisted⟩ := hphase
      cases took with
      | false =>
          rcases hcareful with rfl | htook
          · exact ⟨howed, hbacked⟩
          · cases htook
      | true =>
          refine ⟨?_, ?_⟩
          · refine List.forall_mem_append.mpr ⟨howed, List.forall_mem_map.mpr fun rename hrename => ?_⟩
            exact .inr (hlisted (List.ne_nil_of_mem hrename) ▸ hrename)
          · by_cases hnone : renames = [] <;> simp_all [Plant.perform, Plant.PhaseInv, Plant.raised]
  | branding renames => cases took <;> exact ⟨howed, hphase.1⟩
  | reseeding renames => cases took <;> exact ⟨howed, hphase.1⟩
  | migrating stage m =>
      obtain ⟨hbacked, hm⟩ := hphase.migrating
      have htook := perform_migrating (s := ⟨tree, job, stores, .migrating stage m, debts, backed⟩)
        rfl howed hm now
      cases took with
      | false =>
          refine ⟨howed, ?_⟩
          cases stage with
          | failure error => exact hbacked
          | _ => exact ⟨hbacked, hm⟩
      | true =>
          refine ⟨htook.1, ?_⟩
          cases stage with
          | failure error => exact htook.2.2.trans hbacked
          | _ => exact ⟨htook.2.2.trans hbacked, htook.2.1⟩

/-- The process dies. -/
theorem Plant.inv_crash (h : s.Inv) (hcareful : s.Careful .crash) :
    ({ s with phase := .rest } : Plant).Inv := by
  obtain ⟨tree, job, stores, phase, debts, backed⟩ := s
  obtain ⟨howed, hphase⟩ := h
  cases phase with
  | rest => exact ⟨howed, hphase⟩
  | recording tree renames => exact ⟨howed, hphase.1⟩
  | storing tree renames =>
      cases hcareful
      exact ⟨howed, hphase.1⟩
  | branding renames => exact ⟨howed, hphase.1⟩
  | reseeding renames => exact ⟨howed, hphase.1⟩
  | migrating stage m => exact ⟨howed, hphase.migrating.1⟩

theorem Plant.inv_after (h : s.Inv) (event : PlantEvent) (hcareful : s.Careful event) :
    (s.after event).Inv := by
  cases event with
  | call call now =>
      by_cases hrest : s.phase = .rest
      · rw [Plant.after, hrest]
        exact inv_begin h hrest now call hcareful
      · have hbusy : s.after (.call call now) = s := by
          rw [Plant.after]
          split
          · exact absurd ‹_› hrest
          · rfl
        rw [hbusy]
        exact h
  | write now => exact inv_write h now hcareful
  | raise took now text => exact inv_raise h now text hcareful
  | crash => exact inv_crash h hcareful

theorem Plant.Inv.kept (h : s.Inv) : s.Kept := by
  refine ⟨h.owed, fun hrest _ => ?_⟩
  have hphase := h.phase
  rw [hrest] at hphase
  exact hphase

end

/-- Along careful runs every rename of a stored tree is carried out in both stores or listed, and
between calls nothing else is. -/
theorem renames_not_forgotten {s : Plant}
    (h : (plantSystem.restrict Plant.Careful).Reachable s) : s.Kept := by
  refine Plant.Inv.kept (System.invariant (I := Plant.Inv) ?_ ?_ h)
  · rintro s hfresh
    refine ⟨?_, ?_⟩
    · rw [hfresh.debts]
      exact fun _ hdebt => (nomatch hdebt)
    · rw [hfresh.phase]
      exact hfresh.backed
  · rintro s event s' - hinv ⟨hcareful, rfl⟩
    exact Plant.inv_after hinv event hcareful

/-! ## The writes of a migrate -/

/-- Writes that all return. -/
def Plant.writes (s : Plant) (now : ℤ) (n : Nat) : Plant := (fun s => s.after (.write now))^[n] s

theorem Plant.writes_succ (s : Plant) (now : ℤ) (n : Nat) :
    s.writes now (n + 1) = (s.after (.write now)).writes now n := Function.iterate_succ_apply _ _ _

/-- With both stores answering, the writes of a migrate end where `runMigrate` does. -/
theorem writes_migrating (now : ℤ) (s : Plant) (m : Migration)
    (hphase : s.phase = .migrating .record m) :
    ∃ n, (s.writes now n).phase = .rest ∧
      (s.writes now n).stores =
        (runMigrate m.startedAt s.stores m.pending m.rewritten m.last).1 ∧
      (s.writes now n).job =
        some (runMigrate m.startedAt s.stores m.pending m.rewritten m.last).2 := by
  obtain ⟨tree, job, stores, phase, debts, backed⟩ := s
  obtain ⟨pending, startedAt, rewritten, last⟩ := m
  cases hphase
  induction pending generalizing job stores debts rewritten last with
  | nil => exact ⟨1, rfl, rfl, rfl⟩
  | cons current pending ih =>
      have hfirst : (Plant.mk tree job stores (.migrating .record
          ⟨current :: pending, startedAt, rewritten, last⟩) debts backed).after (.write now) =
        Plant.mk tree (some (runningRecord (current :: pending) rewritten startedAt)) stores
          (.migrating .historian ⟨current :: pending, startedAt, rewritten, some current⟩) debts
          backed := rfl
      cases hhistorian : stores.historian.rewriteTopicPrefix current.oldPrefix
        current.newPrefix with
      | error e =>
          have hsecond : (Plant.mk tree (some (runningRecord (current :: pending) rewritten
              startedAt)) stores (.migrating .historian
                ⟨current :: pending, startedAt, rewritten, some current⟩) debts backed).after
              (.write now) =
            Plant.mk tree (some (runningRecord (current :: pending) rewritten startedAt)) stores
              (.migrating (.failure (.rewrite e))
                ⟨current :: pending, startedAt, rewritten, some current⟩) debts backed := by
            simp only [Plant.after, Plant.perform, Plant.rewriteHistorian, Plant.next,
              Plant.afterHistorian, hhistorian]
          refine ⟨3, ?_⟩
          simp only [Plant.writes_succ, hfirst, hsecond, runMigrate, rewriteStores, hhistorian]
          exact ⟨rfl, rfl, rfl⟩
      | ok out =>
          have hsecond : (Plant.mk tree (some (runningRecord (current :: pending) rewritten
              startedAt)) stores (.migrating .historian
                ⟨current :: pending, startedAt, rewritten, some current⟩) debts backed).after
              (.write now) =
            Plant.mk tree (some (runningRecord (current :: pending) rewritten startedAt))
              { stores with historian := out.1 } (.migrating .graph
                ⟨current :: pending, startedAt, rewritten + out.2, some current⟩)
              (Plant.inHistorian current debts) backed := by
            simp only [Plant.after, Plant.perform, Plant.rewriteHistorian, Plant.next,
              Plant.afterHistorian, hhistorian]
          cases hgraph : rewriteGraphPrefix stores.graph current.oldPrefix current.newPrefix with
          | error e =>
              have hthird : (Plant.mk tree (some (runningRecord (current :: pending) rewritten
                  startedAt)) { stores with historian := out.1 } (.migrating .graph
                    ⟨current :: pending, startedAt, rewritten + out.2, some current⟩)
                  (Plant.inHistorian current debts) backed).after (.write now) =
                Plant.mk tree (some (runningRecord (current :: pending) rewritten startedAt))
                  { stores with historian := out.1 } (.migrating (.failure (.rewrite e))
                    ⟨current :: pending, startedAt, rewritten + out.2, some current⟩)
                  (Plant.inHistorian current debts) backed := by
                simp only [Plant.after, Plant.perform, Plant.rewriteGraph, Plant.next,
                  Plant.afterGraph, hgraph]
              refine ⟨4, ?_⟩
              simp only [Plant.writes_succ, hfirst, hsecond, hthird, runMigrate, rewriteStores,
                hhistorian, hgraph]
              exact ⟨rfl, rfl, rfl⟩
          | ok out' =>
              have hthird : (Plant.mk tree (some (runningRecord (current :: pending) rewritten
                  startedAt)) { stores with historian := out.1 } (.migrating .graph
                    ⟨current :: pending, startedAt, rewritten + out.2, some current⟩)
                  (Plant.inHistorian current debts) backed).after (.write now) =
                Plant.mk tree (some (runningRecord (current :: pending) rewritten startedAt))
                  ⟨out.1, out'.1⟩ (.migrating .record
                    ⟨pending, startedAt, rewritten + out.2 + out'.2, some current⟩)
                  (Plant.inGraph current (Plant.inHistorian current debts)) backed := by
                simp only [Plant.after, Plant.perform, Plant.rewriteGraph, Plant.next,
                  Plant.afterGraph, hgraph]
              obtain ⟨n, hn⟩ := ih (some (runningRecord (current :: pending) rewritten startedAt))
                ⟨out.1, out'.1⟩ (Plant.inGraph current (Plant.inHistorian current debts))
                (rewritten + out.2 + out'.2) (some current)
              refine ⟨n + 3, ?_⟩
              simp only [Plant.writes_succ, hfirst, hsecond, hthird, runMigrate, rewriteStores,
                hhistorian, hgraph]
              rw [Nat.add_assoc] at hn ⊢
              exact hn

/-! ## A list that is replaced -/

/-- The events in order. -/
def Plant.run (s : Plant) (events : List PlantEvent) : Plant := events.foldl Plant.after s

theorem reachable_run {s : Plant} (h : plantSystem.Reachable s) (events : List PlantEvent) :
    plantSystem.Reachable (s.run events) := by
  induction events generalizing s with
  | nil => exact h
  | cons event events ih => exact ih (h.step rfl)

def plantOf (site : Str) : Plant where
  tree := samplePlant site
  job := none
  stores := sampleStores site
  phase := .rest
  debts := []
  backed := true

/-- The site is renamed while the historian is down. -/
def northRenamed : List PlantEvent :=
  [.call (.saveHierarchy (samplePlant (lit "South")) [⟨lit "Acme/North", lit "Acme/South"⟩]) 0,
    .write 0, .write 0, .write 0, .write 0, .write 0, .raise false 0 (lit "refused"), .write 0]

/-- Each event is careful where it happens. -/
def Plant.CarefulRun (s : Plant) : List PlantEvent → Prop
  | [] => True
  | event :: events => s.Careful event ∧ (s.after event).CarefulRun events

theorem reachable_carefulRun {s : Plant} (h : (plantSystem.restrict Plant.Careful).Reachable s)
    {events : List PlantEvent} (hcareful : s.CarefulRun events) :
    (plantSystem.restrict Plant.Careful).Reachable (s.run events) := by
  induction events generalizing s with
  | nil => exact h
  | cons event events ih => exact ih (h.step ⟨hcareful.1, rfl⟩) hcareful.2

/-- The rename that failed is listed. -/
theorem north_renamed_kept : ((plantOf (lit "North")).run northRenamed).Kept :=
  renames_not_forgotten (reachable_carefulRun (.init ⟨rfl, rfl, rfl, rfl⟩)
    ⟨trivial, fun _ h => (nomatch h), trivial, trivial, trivial, trivial, trivial, trivial, trivial⟩)

/-- It is renamed again before the retry. -/
def southRenamed : List PlantEvent :=
  [.call (.saveHierarchy (samplePlant (lit "East")) [⟨lit "Acme/South", lit "Acme/East"⟩]) 0,
    .write 0, .write 0, .write 0, .write 0, .write 0, .write 0, .write 0, .write 0]

theorem reachable_plantOf (site : Str) : plantSystem.Reachable (plantOf site) :=
  .init ⟨rfl, rfl, rfl, rfl⟩

/-- The first rename is owed, and the file says that nothing is pending. -/
theorem first_rename_forgotten :
    ∃ s, plantSystem.Reachable s ∧ s.phase = .rest ∧ s.job.map (·.status) = some .done ∧ ¬ s.Kept := by
  refine ⟨((plantOf (lit "North")).run northRenamed).run southRenamed,
    reachable_run (reachable_run (reachable_plantOf _) _) _, by rfl, by rfl, fun h => ?_⟩
  have howed := h.owed ⟨⟨lit "Acme/North", lit "Acme/South"⟩, false, false⟩ (by decide)
  revert howed
  decide

end Uns.Graphql
