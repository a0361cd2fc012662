/-
# `Datalake.LedgerRuns` — the ledger of a partition over whole runs

Any order of `observe`, `resolve`, `next_offset` and `discard_committed(next_offset())`.  The
ledger is an account of what was observed and not discarded: the commit offset is one past its
leading resolved part, and a commit drops that part (`refines_run`).  The committed values
increase as long as no offset below them is observed while the ledger is empty
(`ledgerKept_iff`): `observe` compares with the last observed offset, which a commit of
everything has discarded, and not with `_committed_floor`.
-/
import UnifiedNamespace.Datalake.Checkpoint
import UnifiedNamespace.Lib.Transition

namespace Uns

open Lib

/-! ## The operations -/

inductive LedgerOp where
  | observe (offset : Nat)
  | resolve (offset : Nat)
  | nextOffset
  /-- `discard_committed(next_offset())`. -/
  | discard

/-- The ledger, and the values that were committed, in order. -/
structure LedgerRun where
  ledger : ConsumedPrefix
  committed : List Nat

namespace LedgerRun

def start : LedgerRun := ⟨.empty, []⟩

/-- One operation; one that raises leaves the ledger as it is. -/
def step (r : LedgerRun) : LedgerOp → LedgerRun
  | .observe offset =>
      match r.ledger.observe offset with
      | .ok p => { r with ledger := p }
      | .error _ => r
  | .resolve offset =>
      match r.ledger.resolve offset with
      | .ok p => { r with ledger := p }
      | .error _ => r
  | .nextOffset => r
  | .discard =>
      match r.ledger.nextOffset with
      | none => r
      | some n =>
          match r.ledger.discardCommitted n with
          | .ok p => ⟨p, r.committed ++ [n]⟩
          | .error _ => r

def run (r : LedgerRun) (ops : List LedgerOp) : LedgerRun := ops.foldl step r

variable {r : LedgerRun} {o n : Nat}

/-- What a commit does, when there is something to commit. -/
theorem step_discard (h : r.ledger.nextOffset = some n) :
    (∀ x, x ∈ (r.step .discard).ledger.observed ↔ x ∈ r.ledger.observed ∧ n ≤ x) ∧
      (r.step .discard).ledger.observed = r.ledger.observed.filter (n ≤ ·) ∧
      (∀ x, x ∈ (r.step .discard).ledger.resolved ↔ x ∈ r.ledger.resolved ∧ n ≤ x) ∧
      (r.step .discard).committed = r.committed ++ [n] := by
  have hpos := ConsumedPrefix.nextOffset_pos h
  obtain ⟨p, hp⟩ := ConsumedPrefix.discardCommitted_of_pos (p := r.ledger) hpos
  have hstep : r.step .discard = ⟨p, r.committed ++ [n]⟩ := by
    simp only [step, h, hp]
  rw [hstep]
  obtain ⟨hobserved, hresolved⟩ := ConsumedPrefix.discardCommitted_ok hp
  refine ⟨hobserved, ?_, hresolved, rfl⟩
  rw [ConsumedPrefix.discardCommitted, if_neg (by omega)] at hp
  cases hp
  rfl

theorem step_discard_none (h : r.ledger.nextOffset = none) : r.step .discard = r := by
  simp only [step, h]

/-- No unresolved offset is discarded. -/
theorem resolved_of_discarded (op : LedgerOp) (ho : o ∈ r.ledger.observed)
    (hgone : o ∉ (r.step op).ledger.observed) : o ∈ r.ledger.resolved := by
  cases op with
  | observe offset =>
      refine absurd ?_ hgone
      rw [step]
      split
      · next p hp =>
        rw [(ConsumedPrefix.observe_ok hp).1]
        exact List.mem_append_left _ ho
      · exact ho
  | resolve offset =>
      refine absurd ?_ hgone
      rw [step]
      split
      · next p hp =>
        rw [(ConsumedPrefix.resolve_ok hp).2.1]
        exact ho
      · exact ho
  | nextOffset => exact absurd ho hgone
  | discard =>
      cases hnext : r.ledger.nextOffset with
      | none =>
          rw [step_discard_none hnext] at hgone
          exact absurd ho hgone
      | some n =>
          rw [(step_discard hnext).1] at hgone
          exact ConsumedPrefix.resolved_of_lt_nextOffset hnext ho (not_le.mp fun hle => hgone ⟨ho, hle⟩)

end LedgerRun

/-! ## The account -/

/-- What was observed and not discarded, in order, and whether it is resolved. -/
abbrev Account := List (Nat × Bool)

namespace Account

/-- One past the longest resolved part at the front. -/
def next (a : Account) : Option Nat := (a.takeWhile (·.2)).getLast?.map (·.1 + 1)

def step (a : Account) : LedgerOp → Account
  | .observe offset => if ∀ e ∈ a.getLast?, e.1 < offset then a ++ [(offset, false)] else a
  | .resolve offset => a.map fun e => if e.1 = offset then (offset, true) else e
  | .nextOffset => a
  | .discard => a.dropWhile (·.2)

def run (ops : List LedgerOp) : Account := ops.foldl step []

end Account

/-- The ledger has the offsets of the account. -/
structure Refines (p : ConsumedPrefix) (a : Account) : Prop where
  observed : p.observed = a.map Prod.fst
  resolved : ∀ e ∈ a, e.2 = true ↔ e.1 ∈ p.resolved

section Refinement

variable {p : ConsumedPrefix} {a : Account} {r : LedgerRun} {n : Nat}

theorem takeWhile_of_refines (h : Refines p a) :
    p.observed.takeWhile (fun o => decide (o ∈ p.resolved)) = (a.takeWhile (·.2)).map Prod.fst := by
  rw [h.observed, List.takeWhile_map]
  refine congrArg (List.map Prod.fst) ?_
  have hsame := h.resolved
  clear h
  induction a with
  | nil => rfl
  | cons e a ih =>
      have hflag : decide (e.1 ∈ p.resolved) = e.2 := by
        rw [Bool.eq_iff_iff, decide_eq_true_iff]
        exact (hsame e List.mem_cons_self).symm
      rw [List.takeWhile_cons, List.takeWhile_cons, ih fun f hf => hsame f (List.mem_cons_of_mem _ hf),
        Function.comp_apply, hflag]

theorem nextOffset_of_refines (h : Refines p a) : p.nextOffset = a.next := by
  rw [ConsumedPrefix.nextOffset_eq_watermark, Lib.watermark, takeWhile_of_refines h, Account.next, List.getLast?_map,
    Option.map_map]
  rfl

/-- On increasing offsets a commit drops the resolved part at the front. -/
theorem filter_eq_dropWhile (hs : (a.map Prod.fst).Pairwise (· < ·)) (h : a.next = some n) :
    a.filter (fun e => decide (n ≤ e.1)) = a.dropWhile (·.2) := by
  rw [Account.next, Option.map_eq_some_iff] at h
  obtain ⟨w, hw, rfl⟩ := h
  obtain ⟨before, hsplit⟩ := List.getLast?_eq_some_iff.mp hw
  have hall := (List.takeWhile_append_dropWhile (p := fun e : Nat × Bool => e.2) (l := a)).symm
  rw [List.pairwise_map] at hs
  rw [hall] at hs
  obtain ⟨hfront, -, hcross⟩ := List.pairwise_append.mp hs
  have hdropped : (a.takeWhile (·.2)).filter (fun e => decide (w.1 + 1 ≤ e.1)) = [] := by
    rw [hsplit] at hfront ⊢
    refine List.filter_eq_nil_iff.mpr fun e he hle => ?_
    rw [decide_eq_true_iff] at hle
    rcases List.mem_append.mp he with he | he
    · have := (List.pairwise_append.mp hfront).2.2 e he w List.mem_cons_self
      omega
    · rw [List.mem_singleton.mp he] at hle
      omega
  have hkept : (a.dropWhile (·.2)).filter (fun e => decide (w.1 + 1 ≤ e.1)) = a.dropWhile (·.2) := by
    refine List.filter_eq_self.mpr fun e he => decide_eq_true ?_
    exact hcross w (List.mem_of_getLast? hw) e he
  conv_lhs => rw [hall]
  rw [List.filter_append, hdropped, hkept, List.nil_append]

theorem refines_step (h : Refines r.ledger a) (op : LedgerOp) : Refines (r.step op).ledger (a.step op) := by
  cases op with
  | observe offset =>
      have hlast : (∀ x ∈ r.ledger.observed.getLast?, x < offset) ↔ ∀ e ∈ a.getLast?, e.1 < offset := by
        rw [h.observed, List.getLast?_map]
        exact Option.forall_mem_map
      rw [LedgerRun.step, Account.step]
      by_cases hnew : ∀ e ∈ a.getLast?, e.1 < offset
      · obtain ⟨q, hq⟩ : ∃ q, r.ledger.observe offset = .ok q := by
          rw [ConsumedPrefix.observe, dif_pos (hlast.mpr hnew)]
          exact ⟨_, rfl⟩
        obtain ⟨hobserved, hresolved⟩ := ConsumedPrefix.observe_ok hq
        rw [hq, if_pos hnew]
        refine ⟨?_, fun e he => ?_⟩
        · rw [List.map_append, ← h.observed]
          exact hobserved
        · change e.2 = true ↔ e.1 ∈ q.resolved
          rw [hresolved]
          rcases List.mem_append.mp he with he | he
          · exact h.resolved e he
          · rw [List.mem_singleton.mp he]
            refine iff_of_false Bool.false_ne_true fun hin => ?_
            exact lt_irrefl offset (ConsumedPrefix.lt_of_last r.ledger.sorted (hlast.mpr hnew) (r.ledger.known _ hin))
      · have hrefused : r.ledger.observe offset = .error .outOfOrder := by
          rw [ConsumedPrefix.observe, dif_neg fun hall => hnew (hlast.mp hall)]
        rw [hrefused, if_neg hnew]
        exact h
  | resolve offset =>
      rw [LedgerRun.step, Account.step]
      by_cases hin : offset ∈ r.ledger.observed
      · obtain ⟨q, hq⟩ := ConsumedPrefix.resolve_of_mem hin
        obtain ⟨-, hobserved, hresolved⟩ := ConsumedPrefix.resolve_ok hq
        rw [hq]
        refine ⟨?_, fun e he => ?_⟩
        · change q.observed = _
          rw [hobserved, h.observed, List.map_map]
          refine List.map_congr_left fun e _ => ?_
          rw [Function.comp_apply]
          split
          · next heq => exact heq
          · rfl
        · change e.2 = true ↔ e.1 ∈ q.resolved
          obtain ⟨f, hf, rfl⟩ := List.mem_map.mp he
          rw [hresolved, Finset.mem_insert]
          split
          · exact iff_of_true rfl (.inl rfl)
          · next hne => exact (h.resolved f hf).trans (or_iff_right hne).symm
      · have hrefused : r.ledger.resolve offset = .error .unknownOffset := by
          rw [ConsumedPrefix.resolve, dif_neg hin]
        have hsame : a.map (fun e => if e.1 = offset then (offset, true) else e) = a := by
          refine (List.map_congr_left fun e he => if_neg fun heq => hin ?_).trans (List.map_id _)
          rw [h.observed, ← heq]
          exact List.mem_map_of_mem he
        rw [hrefused, hsame]
        exact h
  | nextOffset => exact h
  | discard =>
      rw [Account.step]
      cases hnext : r.ledger.nextOffset with
      | none =>
          -- nothing is resolved at the front
          rw [LedgerRun.step_discard_none hnext]
          have hnone := hnext
          rw [nextOffset_of_refines h, Account.next, Option.map_eq_none_iff, List.getLast?_eq_none_iff] at hnone
          have hall := List.takeWhile_append_dropWhile (p := fun e : Nat × Bool => e.2) (l := a)
          rw [hnone, List.nil_append] at hall
          rw [hall]
          exact h
      | some n =>
          obtain ⟨-, hobserved, hresolved, -⟩ := LedgerRun.step_discard hnext
          rw [nextOffset_of_refines h] at hnext
          rw [← filter_eq_dropWhile (h.observed ▸ r.ledger.sorted) hnext]
          refine ⟨?_, fun e he => ?_⟩
          · rw [hobserved, h.observed, List.filter_map]
            rfl
          · obtain ⟨hmem, hle⟩ := List.mem_filter.mp he
            rw [hresolved, h.resolved e hmem]
            exact (and_iff_left (of_decide_eq_true hle)).symm

/-- Over every run the ledger is its account. -/
theorem refines_run (ops : List LedgerOp) : Refines (LedgerRun.start.run ops).ledger (Account.run ops) := by
  have hgen : ∀ (ops : List LedgerOp) (r : LedgerRun) (a : Account), Refines r.ledger a →
      Refines (r.run ops).ledger (ops.foldl Account.step a) := by
    intro ops
    induction ops with
    | nil => exact fun _ _ h => h
    | cons op ops ih => exact fun r a h => ih _ _ (refines_step h op)
  exact hgen ops .start [] ⟨rfl, fun _ he => absurd he List.not_mem_nil⟩

end Refinement

/-! ## The committed values -/

/-- What the ledger has to keep after the operations. -/
structure LedgerKept (ops : List LedgerOp) : Prop where
  next : (LedgerRun.start.run ops).ledger.nextOffset = (Account.run ops).next
  resolved : ∀ op, ∀ o ∈ (LedgerRun.start.run ops).ledger.observed,
    o ∉ ((LedgerRun.start.run ops).step op).ledger.observed → o ∈ (LedgerRun.start.run ops).ledger.resolved
  increasing : (LedgerRun.start.run ops).committed.Pairwise (· < ·)

namespace LedgerRun

/-- An offset that is observed while the ledger is empty is not below a committed value. -/
def AboveFloor (r : LedgerRun) : LedgerOp → Prop
  | .observe offset => r.ledger.observed = [] → ∀ n ∈ r.committed, n ≤ offset
  | _ => True

def StaysAbove (r : LedgerRun) (ops : List LedgerOp) : Prop := StepsMeet step AboveFloor r ops

/-- The committed values increase, up to what is in the ledger. -/
structure Increasing (r : LedgerRun) : Prop where
  committed : r.committed.Pairwise (· < ·)
  below : ∀ n ∈ r.committed, ∀ o ∈ r.ledger.observed, n ≤ o

variable {r : LedgerRun} {op : LedgerOp} {ops : List LedgerOp} {o n : Nat}

theorem Increasing.step (h : r.Increasing) (habove : r.AboveFloor op) : (r.step op).Increasing := by
  cases op with
  | observe offset =>
      rw [LedgerRun.step]
      split
      · next p hp =>
        have hoffset : ∀ n ∈ r.committed, n ≤ offset := by
          intro n hn
          by_cases hempty : r.ledger.observed = []
          · exact habove hempty n hn
          · obtain ⟨o, ho⟩ := List.exists_mem_of_ne_nil _ hempty
            have hsorted := p.sorted
            rw [(ConsumedPrefix.observe_ok hp).1] at hsorted
            have hlt := (List.pairwise_append.mp hsorted).2.2 o ho offset List.mem_cons_self
            exact (h.below n hn o ho).trans hlt.le
        refine ⟨h.committed, fun n hn o ho => ?_⟩
        change o ∈ p.observed at ho
        rw [(ConsumedPrefix.observe_ok hp).1] at ho
        rcases List.mem_append.mp ho with ho | ho
        · exact h.below n hn o ho
        · rw [List.mem_singleton.mp ho]
          exact hoffset n hn
      · exact h
  | resolve offset =>
      rw [LedgerRun.step]
      split
      · next p hp =>
        refine ⟨h.committed, fun n hn o ho => h.below n hn o ?_⟩
        rw [← (ConsumedPrefix.resolve_ok hp).2.1]
        exact ho
      · exact h
  | nextOffset => exact h
  | discard =>
      cases hnext : r.ledger.nextOffset with
      | none =>
          rw [step_discard_none hnext]
          exact h
      | some n =>
          obtain ⟨hobserved, -, -, hcommitted⟩ := step_discard hnext
          have hnew : ∀ m ∈ r.committed, m < n := by
            intro m hm
            rw [ConsumedPrefix.nextOffset_eq_watermark, Option.map_eq_some_iff] at hnext
            obtain ⟨w, hw, rfl⟩ := hnext
            exact Nat.lt_succ_of_le (h.below m hm w (Lib.mem_of_watermark hw).1)
          refine ⟨?_, fun m hm o ho => ?_⟩
          · rw [hcommitted]
            refine List.pairwise_append.mpr ⟨h.committed, List.pairwise_singleton _ _, fun m hm k hk => ?_⟩
            rw [List.mem_singleton.mp hk]
            exact hnew m hm
          · obtain ⟨ho, hle⟩ := (hobserved o).mp ho
            rw [hcommitted] at hm
            rcases List.mem_append.mp hm with hm | hm
            · exact h.below m hm o ho
            · rw [List.mem_singleton.mp hm]
              exact hle

theorem Increasing.run (h : r.Increasing) (habove : r.StaysAbove ops) : (r.run ops).Increasing :=
  StepsMeet.invariant (fun _ _ => Increasing.step) h habove

theorem increasing_start : start.Increasing := ⟨List.Pairwise.nil, fun _ hn => absurd hn List.not_mem_nil⟩

theorem run_append (before after : List LedgerOp) : r.run (before ++ after) = (r.run before).run after :=
  List.foldl_append

/-- Resolving and committing observes nothing. -/
theorem aboveFloor_of_ne (h : ∀ o, op ≠ .observe o) (r : LedgerRun) : r.AboveFloor op := by
  cases op with
  | observe o => exact absurd rfl (h o)
  | resolve o => exact trivial
  | nextOffset => exact trivial
  | discard => exact trivial

/-- An offset below a committed value in an empty ledger becomes a smaller committed value. -/
theorem committed_of_below (hempty : r.ledger.observed = []) :
    (r.run [.observe o, .resolve o, .discard]).committed = r.committed ++ [o + 1] := by
  obtain ⟨p, hp⟩ : ∃ p, r.ledger.observe o = .ok p :=
    ConsumedPrefix.observe_of_lt fun x hx => by
      rw [hempty] at hx
      cases hx
  obtain ⟨hobserved, -⟩ := ConsumedPrefix.observe_ok hp
  rw [hempty, List.nil_append] at hobserved
  obtain ⟨q, hq⟩ : ∃ q, p.resolve o = .ok q :=
    ConsumedPrefix.resolve_of_mem (by rw [hobserved]; exact List.mem_cons_self)
  obtain ⟨-, hsame, hresolved⟩ := ConsumedPrefix.resolve_ok hq
  have hrun : (r.run [.observe o, .resolve o, .discard]) = (⟨q, r.committed⟩ : LedgerRun).step .discard := by
    simp only [run, List.foldl_cons, List.foldl_nil]
    congr 1
    simp only [LedgerRun.step, hp, hq]
  have hnext : (⟨q, r.committed⟩ : LedgerRun).ledger.nextOffset = some (o + 1) := by
    have hin : o ∈ q.resolved := by
      rw [hresolved]
      exact Finset.mem_insert_self _ _
    change ConsumedPrefix.nextOffsetFrom q.resolved none q.observed = some (o + 1)
    rw [hsame, hobserved, ConsumedPrefix.nextOffsetFrom, if_neg (not_not.mpr hin)]
    rfl
  rw [hrun, (step_discard hnext).2.2.2]

end LedgerRun

theorem ledgerKept_of_increasing {ops : List LedgerOp} (h : (LedgerRun.start.run ops).Increasing) : LedgerKept ops :=
  ⟨nextOffset_of_refines (refines_run ops), fun op _ ho hgone => LedgerRun.resolved_of_discarded op ho hgone,
    h.committed⟩

/-- A run stays above its committed values exactly when each part of it, however it is resolved
and committed, keeps the ledger. -/
theorem ledgerKept_iff (ops : List LedgerOp) : LedgerRun.start.StaysAbove ops ↔
    ∀ before after more, ops = before ++ after → (∀ op ∈ more, ∀ o, op ≠ LedgerOp.observe o) →
      LedgerKept (before ++ more) := by
  constructor
  · rintro habove before after more rfl hmore
    have hbefore := (stepsMeet_append.mp habove).1
    refine ledgerKept_of_increasing (LedgerRun.increasing_start.run (stepsMeet_append.mpr ⟨hbefore, ?_⟩))
    exact stepsMeet_of_forall fun op hop => LedgerRun.aboveFloor_of_ne (hmore op hop)
  · intro hkept
    refine stepsMeet_iff_last.mpr fun before op after hops => ?_
    cases op with
    | observe o =>
        intro (hempty : (LedgerRun.start.run before).ledger.observed = []) n hn
        -- the offset, resolved and committed, comes after the value `n`
        have hincreasing := (hkept (before ++ [.observe o]) after [.resolve o, .discard]
          (hops.trans (List.append_assoc _ [LedgerOp.observe o] _).symm) fun op hop o' => by
            rcases List.mem_cons.mp hop with rfl | hop
            · exact LedgerOp.noConfusion
            · rw [List.mem_singleton.mp hop]
              exact LedgerOp.noConfusion).increasing
        rw [List.append_assoc, LedgerRun.run_append] at hincreasing
        change (((LedgerRun.start.run before).run [.observe o, .resolve o, .discard]).committed).Pairwise _
          at hincreasing
        rw [LedgerRun.committed_of_below hempty] at hincreasing
        exact Nat.le_of_lt_succ ((List.pairwise_append.mp hincreasing).2.2 n hn (o + 1) List.mem_cons_self)
    | resolve o => exact trivial
    | nextOffset => exact trivial
    | discard => exact trivial

/-! ## Two offsets -/

/-- Offsets in order, resolved in any order. -/
def inOrder : List LedgerOp := [.observe 10, .observe 12, .resolve 12, .resolve 10, .discard, .observe 13]

theorem inOrder_kept : LedgerKept (inOrder ++ [.resolve 13, .discard]) :=
  (ledgerKept_iff inOrder).mp
    ⟨fun _ _ hn => absurd hn List.not_mem_nil, fun _ _ hn => absurd hn List.not_mem_nil, trivial, trivial, trivial,
      fun _ n hn => by
        rw [List.mem_singleton.mp (show n ∈ [13] from hn)], trivial⟩
    inOrder [] [.resolve 13, .discard] (List.append_nil _).symm fun op hop o => by
      rcases List.mem_cons.mp hop with rfl | hop
      · exact LedgerOp.noConfusion
      · rw [List.mem_singleton.mp hop]
        exact LedgerOp.noConfusion

/-- After the commit of 6 the offset 3 is observed, and 4 is committed. -/
theorem lower_committed : ¬ ∀ ops : List LedgerOp, LedgerKept ops := by
  intro h
  have hincreasing := (h [.observe 5, .resolve 5, .discard, .observe 3, .resolve 3, .discard]).increasing
  revert hincreasing
  decide

end Uns
