/-
# `Graphql.Migrate` — renamed prefixes in the historian and the graph

`_run_migrate` of `mutations/hierarchy.py` with the two rewrites it calls.  The historian
keeps topics as strings; a node of the graph is the chain of names from its root, so that
renaming it renames all chains through it.  An accepted batch is carried out exactly when
it is `Carriable`: a no-op, a move to another parent, a name that is taken and two targets
for one prefix all pass `validate_renames` (`migrate_carried_out_iff`).
-/
import UnifiedNamespace.Model.Hierarchy

namespace Uns.Graphql

open Py Lib Model

/-! ## The two rewrites -/

/-- The topics of the raw table, and of `uns_metrics` when that table exists. -/
structure Historian where
  raw : List Str
  metrics : Option (List Str)
deriving DecidableEq

/-- The `ValueError`s of the two rewrites. -/
inductive RewriteError where
  | same
  | otherParent
  | sibling (name : Str)
deriving DecidableEq

/-- The assignment and the condition of the `UPDATE`. -/
def rewriteTopic (oldPrefix newPrefix topic : Str) : Str :=
  if covers topic oldPrefix then newPrefix ++ topic.drop oldPrefix.length else topic

/-- The rows changed on the raw table are returned. -/
def Historian.rewriteTopicPrefix (historian : Historian) (oldPrefix newPrefix : Str) :
    Except RewriteError (Historian × Nat) :=
  if oldPrefix = newPrefix then .error .same
  else
    .ok (⟨historian.raw.map (rewriteTopic oldPrefix newPrefix),
        historian.metrics.map (List.map (rewriteTopic oldPrefix newPrefix))⟩,
      historian.raw.countP (covers · oldPrefix))

/-- The deepest path `PARENT_OF*0..10` matches. -/
def graphDepth : Nat := 11

/-- The node at the last segment is renamed under the same parent; 0 when it is absent. -/
def rewriteGraphPrefix (graph : List (List Str)) (oldPrefix newPrefix : Str) :
    Except RewriteError (List (List Str) × Nat) :=
  let oldSegments := splitSlash oldPrefix
  let newSegments := splitSlash newPrefix
  let renamed := oldSegments.dropLast ++ [newSegments.getLastD []]
  if oldPrefix = newPrefix then .error .same
  else if oldSegments.dropLast ≠ newSegments.dropLast then .error .otherParent
  else if oldSegments ∉ graph ∨ graphDepth < oldSegments.length then .ok (graph, 0)
  else if renamed ∈ graph then .error (.sibling (newSegments.getLastD []))
  else .ok (graph.map (rebase oldSegments renamed), 1)

/-! ## The job -/

inductive JobStatus where
  | running
  | done
  | failed
  | idle
deriving DecidableEq

inductive JobError where
  | rewrite (error : RewriteError)
  | store (text : Str)
  | stalled
deriving DecidableEq

structure JobRecord where
  status : JobStatus
  pending : List PrefixRename
  oldPrefix : Option Str
  newPrefix : Option Str
  rewritten : Option Nat
  error : Option JobError
  startedAt : Option ℤ
deriving DecidableEq

def idleRecord : JobRecord := ⟨.idle, [], none, none, none, none, none⟩

def runningRecord (pending : List PrefixRename) (rewritten : Nat) (startedAt : ℤ) : JobRecord where
  status := .running
  pending := pending
  oldPrefix := pending.head?.map (·.oldPrefix)
  newPrefix := pending.head?.map (·.newPrefix)
  rewritten := some rewritten
  error := none
  startedAt := some startedAt

/-- The record of a finished migrate, with the last rename. -/
def doneRecord (last : Option PrefixRename) (rewritten : Nat) (startedAt : ℤ) : JobRecord where
  status := .done
  pending := []
  oldPrefix := last.map (·.oldPrefix)
  newPrefix := last.map (·.newPrefix)
  rewritten := some rewritten
  error := none
  startedAt := some startedAt

/-- The record of the `except` branch. -/
def failedRecord (pending : List PrefixRename) (last : Option PrefixRename) (rewritten : Nat)
    (error : JobError) (startedAt : ℤ) : JobRecord where
  status := .failed
  pending := pending
  oldPrefix := (pending.head?.or last).map (·.oldPrefix)
  newPrefix := (pending.head?.or last).map (·.newPrefix)
  rewritten := some rewritten
  error := some error
  startedAt := some startedAt

structure Stores where
  historian : Historian
  graph : List (List Str)
deriving DecidableEq

/-- One round of the loop: the historian is committed before the graph may refuse. -/
def rewriteStores (stores : Stores) (rename : PrefixRename) : Stores × Nat × Option RewriteError :=
  match stores.historian.rewriteTopicPrefix rename.oldPrefix rename.newPrefix with
  | .error e => (stores, 0, some e)
  | .ok (historian, rows) =>
      match rewriteGraphPrefix stores.graph rename.oldPrefix rename.newPrefix with
      | .error e => ({ stores with historian := historian }, rows, some e)
      | .ok (graph, nodes) => (⟨historian, graph⟩, rows + nodes, none)

/-- `_run_migrate` with both stores answering: what they hold then, and the last record. -/
def runMigrate (startedAt : ℤ) :
    Stores → List PrefixRename → Nat → Option PrefixRename → Stores × JobRecord
  | stores, [], rewritten, last => (stores, doneRecord last rewritten startedAt)
  | stores, current :: pending, rewritten, _ =>
      match rewriteStores stores current with
      | (after, count, none) => runMigrate startedAt after pending (rewritten + count) (some current)
      | (after, count, some e) =>
          (after, failedRecord (current :: pending) (some current) (rewritten + count) (.rewrite e)
            startedAt)

/-! ## One round -/

theorem rewriteTopic_split (oldPrefix newPrefix topic : Str) :
    splitSlash (rewriteTopic oldPrefix newPrefix topic) =
      rebase (splitSlash oldPrefix) (splitSlash newPrefix) (splitSlash topic) := by
  rw [rewriteTopic]
  by_cases h : covers topic oldPrefix = true
  · rw [if_pos h, splitSlash_moved h, rebase, if_pos (covers_iff.mp h)]
  · rw [if_neg h, rebase_apart (fun hpre => h (covers_iff.mpr hpre))]

/-- The same parent and the last name make the new path. -/
theorem renamed_eq {a b : List Str} (hb : b ≠ []) (h : a.dropLast = b.dropLast) :
    a.dropLast ++ [b.getLastD []] = b := by
  rw [h, List.getLastD_eq_getLast?, List.getLast?_eq_getLast_of_ne_nil hb, Option.getD_some,
    List.dropLast_append_getLast hb]

/-- What both stores hold when the rename goes through. -/
def Stores.renamed (stores : Stores) (rename : PrefixRename) : Stores where
  historian :=
    { raw := stores.historian.raw.map (rewriteTopic rename.oldPrefix rename.newPrefix)
      metrics :=
        stores.historian.metrics.map (List.map (rewriteTopic rename.oldPrefix rename.newPrefix)) }
  graph :=
    stores.graph.map (rebase (splitSlash rename.oldPrefix) (splitSlash rename.newPrefix))

/-- When neither store refuses the rename. -/
structure Admits (graph : List (List Str)) (rename : PrefixRename) : Prop where
  differ : rename.oldPrefix ≠ rename.newPrefix
  parent : (splitSlash rename.oldPrefix).dropLast = (splitSlash rename.newPrefix).dropLast
  free : splitSlash rename.oldPrefix ∈ graph → splitSlash rename.newPrefix ∉ graph

theorem rewriteStores_of_admits (stores : Stores) {rename : PrefixRename}
    (h : Admits stores.graph rename)
    (hdepth : (splitSlash rename.oldPrefix).length ≤ graphDepth)
    (hgone : splitSlash rename.oldPrefix ∉ stores.graph →
      ∀ p ∈ stores.graph, ¬ splitSlash rename.oldPrefix <+: p) :
    ∃ count, rewriteStores stores rename = (stores.renamed rename, count, none) := by
  have hparent := renamed_eq (splitSlash_ne_nil rename.newPrefix) h.parent
  by_cases hmem : splitSlash rename.oldPrefix ∈ stores.graph
  · refine ⟨stores.historian.raw.countP (covers · rename.oldPrefix) + 1, ?_⟩
    simp only [rewriteStores, Historian.rewriteTopicPrefix, rewriteGraphPrefix, if_neg h.differ,
      h.parent, ne_eq, not_true_eq_false, if_false, hmem, false_or, Nat.not_lt.mpr hdepth]
    rw [h.parent] at hparent
    rw [hparent, if_neg (h.free hmem)]
    rfl
  · refine ⟨stores.historian.raw.countP (covers · rename.oldPrefix) + 0, ?_⟩
    simp only [rewriteStores, Historian.rewriteTopicPrefix, rewriteGraphPrefix, if_neg h.differ,
      h.parent, ne_eq, not_true_eq_false, if_false, hmem, not_false_eq_true, true_or, if_true]
    have hsame : stores.graph.map
        (rebase (splitSlash rename.oldPrefix) (splitSlash rename.newPrefix)) = stores.graph :=
      (List.map_congr_left fun p hp => rebase_apart (hgone hmem p hp) _).trans (List.map_id' _)
    rw [Stores.renamed, hsame]

theorem admits_of_rewriteStores {stores after : Stores} {rename : PrefixRename} {count : Nat}
    (h : rewriteStores stores rename = (after, count, none))
    (hdepth : (splitSlash rename.oldPrefix).dropLast = (splitSlash rename.newPrefix).dropLast →
      (splitSlash rename.oldPrefix).length ≤ graphDepth) : Admits stores.graph rename := by
  by_cases hsame : rename.oldPrefix = rename.newPrefix
  · simp only [rewriteStores, Historian.rewriteTopicPrefix, if_pos hsame] at h
    cases congrArg (fun out => out.2.2) h
  · by_cases hparent :
      (splitSlash rename.oldPrefix).dropLast = (splitSlash rename.newPrefix).dropLast
    · refine ⟨hsame, hparent, fun hmem hnew => ?_⟩
      have hrenamed := renamed_eq (splitSlash_ne_nil rename.newPrefix) hparent
      rw [← hrenamed] at hnew
      simp only [rewriteStores, Historian.rewriteTopicPrefix, rewriteGraphPrefix, if_neg hsame,
        hparent, ne_eq, not_true_eq_false, if_false, hmem, false_or,
        Nat.not_lt.mpr (hdepth hparent)] at h
      rw [hparent] at hnew
      rw [if_pos hnew] at h
      cases congrArg (fun out => out.2.2) h
    · simp only [rewriteStores, Historian.rewriteTopicPrefix, rewriteGraphPrefix, if_neg hsame,
        ne_eq, hparent, not_false_eq_true, if_true] at h
      cases congrArg (fun out => out.2.2) h

/-! ## A batch -/

/-- The moves of the graph's paths. -/
def moves (renames : List PrefixRename) : List (List Str × List Str) :=
  renames.map fun rename => (splitSlash rename.oldPrefix, splitSlash rename.newPrefix)

/-- Both stores after the renames went through. -/
def Stores.renamedAll (stores : Stores) (renames : List PrefixRename) : Stores :=
  renames.foldl Stores.renamed stores

theorem Stores.renamedAll_graph (stores : Stores) (renames : List PrefixRename) :
    (stores.renamedAll renames).graph = stores.graph.map (rebaseAll (moves renames)) := by
  induction renames generalizing stores with
  | nil => exact (List.map_id' _).symm
  | cons rename renames ih =>
      have hhead : stores.renamedAll (rename :: renames) =
          (stores.renamed rename).renamedAll renames := rfl
      rw [hhead, ih, Stores.renamed, List.map_map]
      rfl

/-- A topic after the renames went through. -/
def rewriteTopics (renames : List PrefixRename) (topic : Str) : Str :=
  renames.foldl (fun topic rename => rewriteTopic rename.oldPrefix rename.newPrefix topic) topic

theorem rewriteTopics_split (renames : List PrefixRename) (topic : Str) :
    splitSlash (rewriteTopics renames topic) = rebaseAll (moves renames) (splitSlash topic) := by
  induction renames generalizing topic with
  | nil => rfl
  | cons rename renames ih =>
      have hhead : rewriteTopics (rename :: renames) topic =
          rewriteTopics renames (rewriteTopic rename.oldPrefix rename.newPrefix topic) := rfl
      rw [hhead, ih, rewriteTopic_split]
      rfl

theorem Stores.renamedAll_historian (stores : Stores) (renames : List PrefixRename) :
    (stores.renamedAll renames).historian =
      ⟨stores.historian.raw.map (rewriteTopics renames),
        stores.historian.metrics.map (List.map (rewriteTopics renames))⟩ := by
  induction renames generalizing stores with
  | nil =>
      have hid : rewriteTopics [] = id := rfl
      rw [hid, List.map_id, List.map_id_fun, Option.map_id]
      rfl
  | cons rename renames ih =>
      have hhead : stores.renamedAll (rename :: renames) =
          (stores.renamed rename).renamedAll renames := rfl
      rw [hhead, ih, Stores.renamed, List.map_map, Option.map_map, List.map_comp_map]
      rfl

/-! ## Accepted batches -/

/-- Both stores hold the nodes of the tree, and topics that the graph has. -/
structure Mirrors (tree : HierarchyTree) (stores : Stores) : Prop where
  nodes : ∀ p ∈ allPrefixes tree, splitSlash p ∈ stores.graph
  closed : PrefixClosed stores.graph
  named : [] ∉ stores.graph
  raw : ∀ topic ∈ stores.historian.raw, splitSlash topic ∈ stores.graph
  metrics : ∀ topics ∈ stores.historian.metrics, ∀ topic ∈ topics, splitSlash topic ∈ stores.graph

/-- Each rename changes the last name only, to one that is free, and none shares its source or
its target with another. -/
structure Carriable (graph : List (List Str)) (renames : List PrefixRename) : Prop where
  differ : ∀ r ∈ renames, r.oldPrefix ≠ r.newPrefix
  parent : ∀ r ∈ renames, (splitSlash r.oldPrefix).dropLast = (splitSlash r.newPrefix).dropLast
  free : ∀ r ∈ renames, splitSlash r.newPrefix ∉ graph
  single : ∀ r ∈ renames, ∀ r' ∈ renames, r.newPrefix = r'.newPrefix ↔ r.oldPrefix = r'.oldPrefix

section

variable {tree previous : HierarchyTree} {renames : List PrefixRename} {stores : Stores}

theorem Carriable.clean (haccepted : validateRenames tree previous renames = .ok ())
    (hmirror : Mirrors previous stores) {batch : List PrefixRename}
    (hbatch : ∀ r ∈ batch, r ∈ renames) (h : Carriable stores.graph batch) :
    Clean stores.graph (moves batch) where
  source := List.forall_mem_map.mpr fun r hr =>
    hmirror.nodes _ (validateRenames_each haccepted (hbatch r hr)).1
  free := List.forall_mem_map.mpr h.free
  named := List.forall_mem_map.mpr fun r _ => splitSlash_ne_nil r.newPrefix
  parent := List.forall_mem_map.mpr h.parent
  apart := List.forall_mem_map.mpr fun r hr => List.forall_mem_map.mpr fun r' hr' hpre =>
    congrArg splitSlash
      (validateRenames_apart haccepted (hbatch r hr) (hbatch r' hr') (covers_iff.mpr hpre))
  single := List.forall_mem_map.mpr fun r hr => List.forall_mem_map.mpr fun r' hr' => by
    rw [splitSlash_injective.eq_iff, splitSlash_injective.eq_iff]
    exact h.single r hr r' hr'

/-- A prefix next to one of the new tree is within the depth of the graph's query. -/
theorem old_depth (htree : validateTree tree = .ok ())
    (haccepted : validateRenames tree previous renames = .ok ()) {r : PrefixRename}
    (hr : r ∈ renames)
    (hparent : (splitSlash r.oldPrefix).dropLast = (splitSlash r.newPrefix).dropLast) :
    (splitSlash r.oldPrefix).length ≤ graphDepth := by
  have hnew := paths_length ((mem_allPrefixes htree).mp (validateRenames_each haccepted hr).2.1)
  have hlen := congrArg List.length hparent
  rw [List.length_dropLast, List.length_dropLast] at hlen
  have hpos := List.length_pos_iff.mpr (splitSlash_ne_nil r.newPrefix)
  rw [graphDepth]
  omega

/-- One round on stores that an earlier part of the batch went through. -/
theorem rewriteStores_renamedAll (htree : validateTree tree = .ok ())
    (haccepted : validateRenames tree previous renames = .ok ())
    (hmirror : Mirrors previous stores) {before : List PrefixRename} {current : PrefixRename}
    (hbatch : ∀ r ∈ before ++ [current], r ∈ renames)
    (h : Carriable stores.graph (before ++ [current])) :
    ∃ count, rewriteStores (stores.renamedAll before) current =
      (stores.renamedAll (before ++ [current]), count, none) := by
  have hmem : current ∈ before ++ [current] := List.mem_append_right _ List.mem_cons_self
  have hclean := h.clean haccepted hmirror hbatch
  rw [moves, List.map_append, List.map_singleton] at hclean
  obtain ⟨count, hcount⟩ := rewriteStores_of_admits (stores.renamedAll before)
    ⟨h.differ current hmem, h.parent current hmem, fun htaken => by
      rw [Stores.renamedAll_graph] at htaken ⊢
      exact hclean.free_after hmirror.closed hmirror.named htaken⟩
    (old_depth htree haccepted (hbatch current hmem) (h.parent current hmem))
    (fun hgone => by
      rw [Stores.renamedAll_graph] at hgone ⊢
      exact hclean.apart_after hmirror.closed hmirror.named hgone)
  refine ⟨count, ?_⟩
  rw [hcount, Stores.renamedAll, Stores.renamedAll, List.foldl_append]
  rfl

theorem Carriable.of_subset {batch : List PrefixRename} {graph : List (List Str)}
    (h : Carriable graph renames) (hbatch : ∀ r ∈ batch, r ∈ renames) : Carriable graph batch where
  differ r hr := h.differ r (hbatch r hr)
  parent r hr := h.parent r (hbatch r hr)
  free r hr := h.free r (hbatch r hr)
  single r hr r' hr' := h.single r (hbatch r hr) r' (hbatch r' hr')

/-- A carriable batch goes through. -/
theorem runMigrate_of_carriable (htree : validateTree tree = .ok ())
    (haccepted : validateRenames tree previous renames = .ok ())
    (hmirror : Mirrors previous stores) (startedAt : ℤ) (before later : List PrefixRename)
    (hbatch : ∀ r ∈ before ++ later, r ∈ renames) (h : Carriable stores.graph (before ++ later))
    (rewritten : Nat) (last : Option PrefixRename) :
    ∃ last' count, runMigrate startedAt (stores.renamedAll before) later rewritten last =
      (stores.renamedAll (before ++ later), doneRecord last' count startedAt) := by
  induction later generalizing before rewritten last with
  | nil =>
      rw [List.append_nil]
      exact ⟨last, rewritten, rfl⟩
  | cons current later ih =>
      have hassoc : before ++ current :: later = before ++ [current] ++ later := by
        rw [List.append_assoc, List.singleton_append]
      rw [hassoc] at hbatch h ⊢
      obtain ⟨count, hcount⟩ := rewriteStores_renamedAll htree haccepted hmirror
        (fun r hr => hbatch r (List.mem_append_left _ hr))
        (h.of_subset fun r hr => List.mem_append_left _ hr)
      rw [runMigrate, hcount]
      exact ih (before ++ [current]) hbatch h _ _

/-- A round that went through leaves the batch so far carriable. -/
theorem Carriable.snoc (htree : validateTree tree = .ok ())
    (haccepted : validateRenames tree previous renames = .ok ())
    (hmirror : Mirrors previous stores) {before : List PrefixRename} {current : PrefixRename}
    (hbatch : ∀ r ∈ before ++ [current], r ∈ renames) (h : Carriable stores.graph before)
    (hsame : ∀ r ∈ before, r.oldPrefix = current.oldPrefix → r.newPrefix = current.newPrefix)
    (hadmits : Admits (stores.renamedAll before).graph current) :
    Carriable stores.graph (before ++ [current]) := by
  have hbefore : ∀ r ∈ before, r ∈ renames := fun r hr => hbatch r (List.mem_append_left _ hr)
  have hcurrent : current ∈ renames :=
    hbatch current (List.mem_append_right _ List.mem_cons_self)
  have hclean := h.clean haccepted hmirror hbefore
  have hfree := hadmits.free
  rw [Stores.renamedAll_graph] at hfree
  -- the old prefix is where it was, unless an earlier rename has the same source
  have htaken : splitSlash current.oldPrefix ∈ stores.graph.map (rebaseAll (moves before)) ∨
      ∃ r ∈ before, r.oldPrefix = current.oldPrefix := by
    have hold := hmirror.nodes _ (validateRenames_each haccepted hcurrent).1
    rcases rebaseAll_cases hclean hmirror.closed hmirror.named (splitSlash current.oldPrefix)
      with ⟨hstay, _⟩ | ⟨m, hm, rest, heq, _⟩
    · exact .inl (List.mem_map.mpr ⟨_, hold, hstay⟩)
    · obtain ⟨r, hr, rfl⟩ := List.mem_map.mp hm
      refine .inr ⟨r, hr, validateRenames_apart haccepted (hbefore r hr) hcurrent ?_⟩
      exact covers_iff.mpr ⟨rest, heq.symm⟩
  have hnew : splitSlash current.newPrefix ∉ stores.graph := by
    intro hmem
    have hstay : rebaseAll (moves before) (splitSlash current.newPrefix) =
        splitSlash current.newPrefix := by
      refine rebaseAll_apart (List.forall_mem_map.mpr fun r hr hpre => ?_)
      exact (validateRenames_each haccepted (hbefore r hr)).2.2 (h.differ r hr)
        (allPrefixes_covers htree (validateRenames_each haccepted hcurrent).2.1
          (covers_iff.mpr hpre))
    rcases htaken with htaken | ⟨r, hr, heq⟩
    · exact hfree htaken (List.mem_map.mpr ⟨_, hmem, hstay⟩)
    · exact h.free r hr (hsame r hr heq ▸ hmem)
  have hsingle : ∀ r ∈ before, r.newPrefix = current.newPrefix →
      r.oldPrefix = current.oldPrefix := by
    intro r hr heq
    rcases htaken with htaken | ⟨r', hr', heq'⟩
    · refine absurd (List.mem_map.mpr ⟨splitSlash r.oldPrefix, ?_, ?_⟩) (hfree htaken)
      · exact hmirror.nodes _ (validateRenames_each haccepted (hbefore r hr)).1
      · have hmoved := rebaseAll_below hclean hmirror.closed hmirror.named
          (List.mem_map_of_mem hr) []
        rw [List.append_nil, List.append_nil, heq] at hmoved
        exact hmoved
    · exact ((h.single r hr r' hr').mp (heq.trans (hsame r' hr' heq').symm)).trans heq'
  refine ⟨?_, ?_, ?_, ?_⟩ <;> simp only [List.forall_mem_append, List.forall_mem_singleton]
  · exact ⟨h.differ, hadmits.differ⟩
  · exact ⟨h.parent, hadmits.parent⟩
  · exact ⟨h.free, hnew⟩
  · refine ⟨fun r hr => ⟨h.single r hr, hsingle r hr, hsame r hr⟩, fun r hr => ?_, by trivial⟩
    exact ⟨fun heq => (hsingle r hr heq.symm).symm, fun heq => (hsame r hr heq.symm).symm⟩

/-- A batch that went through was carriable. -/
theorem carriable_of_done (htree : validateTree tree = .ok ())
    (haccepted : validateRenames tree previous renames = .ok ())
    (hmirror : Mirrors previous stores) {startedAt : ℤ} (before later : List PrefixRename)
    (hbatch : ∀ r ∈ before ++ later, r ∈ renames) (h : Carriable stores.graph before)
    (hsame : ∀ r ∈ before ++ later, ∀ r' ∈ before ++ later,
      r.oldPrefix = r'.oldPrefix → r.newPrefix = r'.newPrefix)
    {rewritten : Nat} {last : Option PrefixRename}
    (hdone : (runMigrate startedAt (stores.renamedAll before) later rewritten last).2.status =
      .done) :
    Carriable stores.graph (before ++ later) := by
  induction later generalizing before rewritten last with
  | nil =>
      rw [List.append_nil]
      exact h
  | cons current later ih =>
      have hassoc : before ++ current :: later = before ++ [current] ++ later := by
        rw [List.append_assoc, List.singleton_append]
      rw [hassoc] at hbatch hsame ⊢
      have hmem : current ∈ before ++ [current] ++ later :=
        List.mem_append_left _ (List.mem_append_right _ List.mem_cons_self)
      have hpart : ∀ r ∈ before ++ [current], r ∈ renames := fun r hr =>
        hbatch r (List.mem_append_left _ hr)
      rw [runMigrate] at hdone
      rcases hround : rewriteStores (stores.renamedAll before) current with ⟨after, count, error⟩
      rw [hround] at hdone
      cases error with
      | some e => cases hdone
      | none =>
          have hadmits := admits_of_rewriteStores hround fun hparent =>
            old_depth htree haccepted (hbatch current hmem) hparent
          have hsnoc := h.snoc htree haccepted hmirror hpart
            (fun r hr => hsame r (List.mem_append_left _ (List.mem_append_left _ hr)) current hmem)
            hadmits
          obtain ⟨count', hcount⟩ := rewriteStores_renamedAll htree haccepted hmirror hpart hsnoc
          rw [hround] at hcount
          cases hcount
          exact ih (before ++ [current]) hbatch hsnoc hsame hdone

/-! ## When an accepted batch is carried out -/

def Historian.topics (historian : Historian) : List Str :=
  historian.raw ++ historian.metrics.getD []

/-- A path ends where the batch says: as far below the new prefix, or where it was. -/
structure Follows (renames : List PrefixRename) (f : List Str → List Str) (p : List Str) :
    Prop where
  moved : ∀ r ∈ renames, ∀ rest, p = splitSlash r.oldPrefix ++ rest →
    f p = splitSlash r.newPrefix ++ rest
  kept : (∀ r ∈ renames, ¬ splitSlash r.oldPrefix <+: p) → f p = p

/-- The topic whose segments `f` moves. -/
def moveTopic (f : List Str → List Str) (topic : Str) : Str := joinSlash (f (splitSlash topic))

/-- The job is done, and topics and nodes are moved alike. -/
structure CarriedOut (renames : List PrefixRename) (before : Stores) (out : Stores × JobRecord) :
    Prop where
  done : out.2.status = .done
  pending : out.2.pending = []
  followed : ∃ f : List Str → List Str,
    (∀ p ∈ before.graph, Follows renames f p) ∧ out.1.graph = before.graph.map f ∧
      out.1.historian.raw = before.historian.raw.map (moveTopic f) ∧
      out.1.historian.metrics = before.historian.metrics.map (List.map (moveTopic f)) ∧
      Set.InjOn (moveTopic f) {topic | topic ∈ before.historian.topics}

theorem Mirrors.topics (hmirror : Mirrors previous stores) :
    ∀ topic ∈ stores.historian.topics, splitSlash topic ∈ stores.graph := by
  rw [Historian.topics, List.forall_mem_append]
  refine ⟨hmirror.raw, fun topic htopic => ?_⟩
  cases hmetrics : stores.historian.metrics with
  | none =>
      rw [hmetrics] at htopic
      cases htopic
  | some topics =>
      rw [hmetrics] at htopic
      exact hmirror.metrics topics hmetrics topic htopic

theorem moveTopic_rebaseAll (batch : List PrefixRename) :
    moveTopic (rebaseAll (moves batch)) = rewriteTopics batch := by
  funext topic
  rw [moveTopic, ← rewriteTopics_split, joinSlash_splitSlash]

theorem carriedOut_of_carriable (htree : validateTree tree = .ok ())
    (haccepted : validateRenames tree previous renames = .ok ())
    (hmirror : Mirrors previous stores) (startedAt : ℤ) (rewritten : Nat)
    (last : Option PrefixRename) (h : Carriable stores.graph renames) :
    CarriedOut renames stores (runMigrate startedAt stores renames rewritten last) := by
  have hclean := h.clean haccepted hmirror fun _ hr => hr
  obtain ⟨last', count, hrun⟩ := runMigrate_of_carriable htree haccepted hmirror startedAt
    [] renames (fun _ hr => hr) h rewritten last
  have hstart : stores.renamedAll [] = stores := rfl
  rw [hstart, List.nil_append] at hrun
  rw [hrun]
  refine ⟨rfl, rfl, rebaseAll (moves renames), ?_, Stores.renamedAll_graph _ _, ?_, ?_, ?_⟩
  · intro p _
    refine ⟨fun r hr rest hp => ?_, fun hapart => rebaseAll_apart (List.forall_mem_map.mpr hapart)⟩
    rw [hp]
    exact rebaseAll_below hclean hmirror.closed hmirror.named (List.mem_map_of_mem hr) rest
  · rw [moveTopic_rebaseAll]
    exact congrArg Historian.raw (Stores.renamedAll_historian stores renames)
  · rw [moveTopic_rebaseAll]
    exact congrArg Historian.metrics (Stores.renamedAll_historian stores renames)
  · intro topic htopic topic' htopic' heq
    rw [moveTopic_rebaseAll] at heq
    have hsplit := congrArg splitSlash heq
    rw [rewriteTopics_split, rewriteTopics_split] at hsplit
    exact splitSlash_injective (rebaseAll_injOn hclean hmirror.closed hmirror.named
      (hmirror.topics topic htopic) (hmirror.topics topic' htopic') hsplit)

/-- An accepted batch is carried out on mirroring stores exactly when it is carriable. -/
theorem migrate_carried_out_iff (htree : validateTree tree = .ok ())
    (haccepted : validateRenames tree previous renames = .ok ())
    (hmirror : Mirrors previous stores) (startedAt : ℤ) :
    CarriedOut renames stores (runMigrate startedAt stores renames 0 none) ↔
      Carriable stores.graph renames := by
  constructor
  · intro h
    obtain ⟨f, hfollows, _⟩ := h.followed
    have hsame : ∀ r ∈ renames, ∀ r' ∈ renames,
        r.oldPrefix = r'.oldPrefix → r.newPrefix = r'.newPrefix := by
      intro r hr r' hr' heq
      have hold := hmirror.nodes _ (validateRenames_each haccepted hr).1
      have hnew := (hfollows _ hold).moved r hr [] (List.append_nil _).symm
      have hnew' := (hfollows _ hold).moved r' hr' []
        (by rw [List.append_nil, heq])
      rw [List.append_nil] at hnew hnew'
      exact splitSlash_injective (hnew.symm.trans hnew')
    have hnil : Carriable stores.graph [] :=
      ⟨fun _ h => (nomatch h), fun _ h => (nomatch h), fun _ h => (nomatch h),
        fun _ h => (nomatch h)⟩
    exact carriable_of_done htree haccepted hmirror [] renames (fun _ hr => hr) hnil hsame h.done
  · exact carriedOut_of_carriable htree haccepted hmirror startedAt 0 none

end

/-- A plant of one site. -/
def samplePlant (site : Str) : HierarchyTree := ⟨lit "Acme", [⟨site, []⟩]⟩

def sampleStores (site : Str) : Stores where
  historian := ⟨[lit "Acme/" ++ site], none⟩
  graph := (samplePlant site).paths

theorem sampleStores_mirrors : Mirrors (samplePlant (lit "North")) (sampleStores (lit "North")) where
  nodes := by decide
  closed := HierarchyTree.paths_prefixClosed _
  named h := paths_ne_nil h rfl
  raw := by decide
  metrics _ h := nomatch h

/-- A site with a free new name. -/
theorem migrate_carried_out_site :
    CarriedOut [⟨lit "Acme/North", lit "Acme/South"⟩] (sampleStores (lit "North"))
      (runMigrate 0 (sampleStores (lit "North")) [⟨lit "Acme/North", lit "Acme/South"⟩] 0 none) :=
  have htree : validateTree (samplePlant (lit "South")) = .ok () := rfl
  (migrate_carried_out_iff htree rfl sampleStores_mirrors 0).mpr
    ⟨by decide, by decide, by decide, by decide⟩

/-- A rename that leaves the prefix in place is accepted, and refused by the historian. -/
theorem noop_rename_fails :
    validateTree (samplePlant (lit "North")) = .ok () ∧
      validateRenames (samplePlant (lit "North")) (samplePlant (lit "North"))
        [⟨lit "Acme/North", lit "Acme/North"⟩] = .ok () ∧
      Mirrors (samplePlant (lit "North")) (sampleStores (lit "North")) ∧
      ¬ CarriedOut [⟨lit "Acme/North", lit "Acme/North"⟩] (sampleStores (lit "North"))
        (runMigrate 0 (sampleStores (lit "North")) [⟨lit "Acme/North", lit "Acme/North"⟩] 0
          none) :=
  ⟨rfl, rfl, sampleStores_mirrors, fun h => (nomatch h.done)⟩

end Uns.Graphql
