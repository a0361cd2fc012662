/-
# `Datalake.Checkpoint` — the consumed prefix of a partition

`checkpoint.py`: the ledger of observed and resolved offsets of one partition
assignment.  Offsets are observed in increasing order, resolved in any order, and
the commit offset is one past the longest resolved prefix.  `ConsumedPrefix`
carries what the source keeps between its sets: the observations increase, and
only an observed offset is resolved.

The commit offset is the watermark of the ledger plus one
(`nextOffset_eq_watermark`), so everything below it is resolved
(`resolved_of_lt_nextOffset`).
-/
import UnifiedNamespace.Lib.Watermark

namespace Uns

/-- Ordered consumed-record ledger for one partition assignment generation. -/
structure ConsumedPrefix where
  observed : List Nat
  resolved : Finset Nat
  sorted : observed.Pairwise (· < ·)
  known : ∀ o ∈ resolved, o ∈ observed

/-- The `ValueError`s of the ledger. -/
inductive PrefixError where
  | outOfOrder
  | unknownOffset
  | nonPositive
  deriving DecidableEq

namespace ConsumedPrefix

def empty : ConsumedPrefix := ⟨[], ∅, List.Pairwise.nil, by simp⟩

/-- The last element bounds an increasing list. -/
theorem lt_of_last {os : List Nat} {o : Nat} (hs : os.Pairwise (· < ·))
    (h : ∀ x ∈ os.getLast?, x < o) {x : Nat} (hx : x ∈ os) : x < o := by
  obtain ⟨init, last, rfl⟩ := List.eq_nil_or_concat' os |>.resolve_left (List.ne_nil_of_mem hx)
  have hlast : last < o := h last (by simp)
  rcases List.mem_append.mp hx with hx | hx
  · exact lt_trans ((List.pairwise_append.mp hs).2.2 x hx last (by simp)) hlast
  · rw [List.mem_singleton.mp hx]
    exact hlast

def observe (p : ConsumedPrefix) (offset : Nat) : Except PrefixError ConsumedPrefix :=
  if h : ∀ x ∈ p.observed.getLast?, x < offset then
    .ok {
      observed := p.observed ++ [offset]
      resolved := p.resolved
      sorted := List.pairwise_append.mpr ⟨p.sorted, List.pairwise_singleton _ _, fun _ hx _ hy =>
        List.mem_singleton.mp hy ▸ lt_of_last p.sorted h hx⟩
      known := fun o ho => List.mem_append_left _ (p.known o ho) }
  else .error .outOfOrder

def resolve (p : ConsumedPrefix) (offset : Nat) : Except PrefixError ConsumedPrefix :=
  if h : offset ∈ p.observed then
    .ok {
      observed := p.observed
      resolved := insert offset p.resolved
      sorted := p.sorted
      known := fun o ho => (Finset.mem_insert.mp ho).elim (fun he => he ▸ h) (p.known o) }
  else .error .unknownOffset

/-- The loop of `next_offset`, with `last_resolved`. -/
def nextOffsetFrom (resolved : Finset Nat) : Option Nat → List Nat → Option Nat
  | last, [] => last.map (· + 1)
  | last, offset :: observed =>
      if offset ∉ resolved then last.map (· + 1)
      else nextOffsetFrom resolved (some offset) observed

def nextOffset (p : ConsumedPrefix) : Option Nat := nextOffsetFrom p.resolved none p.observed

def hasUnresolvedBeforeIn (resolved : Finset Nat) (offset : Nat) : List Nat → Bool
  | [] => false
  | o :: observed =>
      if offset ≤ o then false
      else if o ∉ resolved then true
      else hasUnresolvedBeforeIn resolved offset observed

def hasUnresolvedBefore (p : ConsumedPrefix) (offset : Nat) : Bool :=
  hasUnresolvedBeforeIn p.resolved offset p.observed

def discardCommitted (p : ConsumedPrefix) (nextOffset : Nat) : Except PrefixError ConsumedPrefix :=
  if nextOffset = 0 then .error .nonPositive
  else
    .ok {
      observed := p.observed.filter (nextOffset ≤ ·)
      resolved := p.resolved.filter (nextOffset ≤ ·)
      sorted := p.sorted.filter _
      known := fun o ho =>
        have h := Finset.mem_filter.mp ho
        List.mem_filter.mpr ⟨p.known o h.1, decide_eq_true h.2⟩ }

/-! ## The operations on their sets -/

variable {p q : ConsumedPrefix} {o n : Nat}

theorem observe_ok (h : p.observe o = .ok q) :
    q.observed = p.observed ++ [o] ∧ q.resolved = p.resolved := by
  unfold observe at h
  split at h
  · cases h
    exact ⟨rfl, rfl⟩
  · cases h

/-- An offset above all observed ones is accepted. -/
theorem observe_of_lt (h : ∀ x ∈ p.observed, x < o) : ∃ q, p.observe o = .ok q := by
  have hlast : ∀ x ∈ p.observed.getLast?, x < o := fun x hx => h x (List.mem_of_getLast? hx)
  rw [observe, dif_pos hlast]
  exact ⟨_, rfl⟩

theorem resolve_ok (h : p.resolve o = .ok q) :
    o ∈ p.observed ∧ q.observed = p.observed ∧ q.resolved = insert o p.resolved := by
  unfold resolve at h
  split at h
  · cases h
    exact ⟨‹_›, rfl, rfl⟩
  · cases h

theorem resolve_of_mem (h : o ∈ p.observed) : ∃ q, p.resolve o = .ok q := by
  rw [resolve, dif_pos h]
  exact ⟨_, rfl⟩

theorem discardCommitted_ok (h : p.discardCommitted n = .ok q) :
    (∀ x, x ∈ q.observed ↔ x ∈ p.observed ∧ n ≤ x) ∧
      ∀ x, x ∈ q.resolved ↔ x ∈ p.resolved ∧ n ≤ x := by
  unfold discardCommitted at h
  split at h
  · cases h
  · cases h
    exact ⟨fun x => by simp, fun x => by simp⟩

theorem discardCommitted_of_pos (h : 0 < n) : ∃ q, p.discardCommitted n = .ok q := by
  rw [discardCommitted, if_neg (by omega)]
  exact ⟨_, rfl⟩

/-! ## The commit offset -/

theorem nextOffsetFrom_eq (resolved : Finset Nat) (last : Option Nat) (observed : List Nat) :
    nextOffsetFrom resolved last observed =
      ((Lib.watermark (· ∈ resolved) observed).or last).map (· + 1) := by
  induction observed generalizing last with
  | nil => rfl
  | cons x observed ih =>
      by_cases h : x ∈ resolved
      · rw [nextOffsetFrom, if_neg (not_not.mpr h), ih, Lib.watermark_cons_of_pos h]
        cases Lib.watermark (· ∈ resolved) observed <;> rfl
      · rw [nextOffsetFrom, if_pos h, Lib.watermark_cons_of_neg h]
        rfl

theorem nextOffset_eq_watermark (p : ConsumedPrefix) :
    p.nextOffset = (Lib.watermark (· ∈ p.resolved) p.observed).map (· + 1) := by
  rw [nextOffset, nextOffsetFrom_eq, Option.or_none]

theorem nextOffset_pos (h : p.nextOffset = some n) : 0 < n := by
  rw [nextOffset_eq_watermark, Option.map_eq_some_iff] at h
  obtain ⟨w, -, rfl⟩ := h
  omega

/-- The commit offset is one past an observed offset. -/
theorem le_of_nextOffset (h : p.nextOffset = some n) : ∃ w ∈ p.observed, n ≤ w + 1 := by
  rw [nextOffset_eq_watermark, Option.map_eq_some_iff] at h
  obtain ⟨w, hw, rfl⟩ := h
  exact ⟨w, (Lib.mem_of_watermark hw).1, le_refl _⟩

/-- Every observed offset below the commit offset is resolved. -/
theorem resolved_of_lt_nextOffset (h : p.nextOffset = some n) (ho : o ∈ p.observed) (hn : o < n) :
    o ∈ p.resolved := by
  rw [nextOffset_eq_watermark, Option.map_eq_some_iff] at h
  obtain ⟨w, hw, rfl⟩ := h
  exact Lib.of_le_watermark p.sorted hw ho (by omega)

/-- There is a commit offset exactly when the first observed offset is resolved. -/
theorem nextOffset_isSome : p.nextOffset.isSome = true ↔
    ∃ x, p.observed.head? = some x ∧ x ∈ p.resolved := by
  rw [nextOffset_eq_watermark, Option.isSome_map]
  exact Lib.watermark_isSome

theorem hasUnresolvedBefore_eq_true :
    p.hasUnresolvedBefore o = true ↔ ∃ x ∈ p.observed, x < o ∧ x ∉ p.resolved := by
  have h : ∀ os : List Nat, os.Pairwise (· < ·) →
      (hasUnresolvedBeforeIn p.resolved o os = true ↔ ∃ x ∈ os, x < o ∧ x ∉ p.resolved) := by
    intro os hs
    induction os with
    | nil => simp [hasUnresolvedBeforeIn]
    | cons y os ih =>
        rw [List.pairwise_cons] at hs
        unfold hasUnresolvedBeforeIn
        split
        · rename_i hy
          refine ⟨fun h => absurd h Bool.false_ne_true, ?_⟩
          rintro ⟨x, hx, hxo, -⟩
          rcases List.mem_cons.mp hx with rfl | hx
          · omega
          · have := hs.1 x hx
            omega
        · rename_i hy
          split
          · rename_i hr
            exact ⟨fun _ => ⟨y, List.mem_cons_self, by omega, hr⟩, fun _ => rfl⟩
          · rename_i hr
            rw [ih hs.2]
            refine ⟨fun ⟨x, hx, h⟩ => ⟨x, List.mem_cons_of_mem _ hx, h⟩, ?_⟩
            rintro ⟨x, hx, h⟩
            rcases List.mem_cons.mp hx with rfl | hx
            · exact absurd h.2 hr
            · exact ⟨x, hx, h⟩
  exact h p.observed p.sorted

end ConsumedPrefix

/-- `may_commit_kafka`. -/
def mayCommitKafka (ownershipActive revoked : Bool) : Bool := ownershipActive && !revoked

/-- What `consumer.commit` does: the error of each partition, if it has one, or an exception. -/
inductive CommitAnswer where
  | returned (result : Option (List (Nat × Option Int)))
  | raised
  deriving DecidableEq

/-- `(partition, error_code)` pairs for failed commits. -/
def inspectCommitResult : Option (List (Nat × Option Int)) → List (Nat × Int)
  | none => []
  | some result => result.filterMap fun p => p.2.map fun code => (p.1, code)

/-- The commit reached the broker and no partition failed. -/
def CommitAnswer.succeeded : CommitAnswer → Bool
  | .returned result => (inspectCommitResult result).isEmpty
  | .raised => false

end Uns
