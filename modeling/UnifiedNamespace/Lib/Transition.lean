/-
# `Lib.Transition` — labelled transition systems and their invariants

A system is a set of initial states and a step relation labelled by inputs.  The
induction over runs is done here once: `System.invariant` is the rule every
safety result uses, and `System.Reachable.mono` passes to a system with more steps.  Where the
step is a function, `StepsMeet` says of a list of inputs that each meets a condition on the
state it is taken in; it is about the last inputs of the parts of the list.
-/
import Mathlib

namespace Lib

structure System (σ ι : Type) where
  init : σ → Prop
  step : σ → ι → σ → Prop

namespace System

variable {σ ι : Type}

inductive Reachable (S : System σ ι) : σ → Prop
  | init {s : σ} : S.init s → Reachable S s
  | step {s t : σ} {i : ι} : Reachable S s → S.step s i t → Reachable S t

/-- The steps whose input meets a condition on the state it is taken in. -/
def restrict (S : System σ ι) (ok : σ → ι → Prop) : System σ ι where
  init := S.init
  step s i t := ok s i ∧ S.step s i t

/-- What holds initially and is preserved by every step from a reachable state holds of every
reachable state. -/
theorem invariant {S : System σ ι} {I : σ → Prop} (hinit : ∀ s, S.init s → I s)
    (hstep : ∀ s i t, S.Reachable s → I s → S.step s i t → I t) {s : σ} (h : S.Reachable s) :
    I s := by
  induction h with
  | init hs => exact hinit _ hs
  | step hr ht ih => exact hstep _ _ _ hr ih ht

theorem Reachable.mono {S T : System σ ι} (hinit : ∀ s, S.init s → T.init s)
    (hstep : ∀ s i t, S.step s i t → T.step s i t) {s : σ} (h : S.Reachable s) : T.Reachable s := by
  induction h with
  | init hs => exact .init (hinit _ hs)
  | step _ ht ih => exact .step ih (hstep _ _ _ ht)

theorem Reachable.of_restrict {S : System σ ι} {ok : σ → ι → Prop} {s : σ}
    (h : (S.restrict ok).Reachable s) : S.Reachable s := by
  induction h with
  | init hs => exact .init hs
  | step _ ht ih => exact .step ih ht.2

end System

/-! ## Runs whose steps meet a condition -/

section StepsMeet

variable {σ ι : Type} {step : σ → ι → σ} {ok : σ → ι → Prop} {s : σ} {before after inputs : List ι}

/-- Each input meets the condition in the state it is taken in. -/
def StepsMeet (step : σ → ι → σ) (ok : σ → ι → Prop) (s : σ) : List ι → Prop
  | [] => True
  | i :: inputs => ok s i ∧ StepsMeet step ok (step s i) inputs

theorem StepsMeet.invariant {I : σ → Prop} (hstep : ∀ s i, I s → ok s i → I (step s i)) (hs : I s)
    (h : StepsMeet step ok s inputs) : I (inputs.foldl step s) := by
  induction inputs generalizing s with
  | nil => exact hs
  | cons i inputs ih => exact ih (hstep s i hs h.1) h.2

theorem stepsMeet_append : StepsMeet step ok s (before ++ after) ↔
    StepsMeet step ok s before ∧ StepsMeet step ok (before.foldl step s) after := by
  induction before generalizing s with
  | nil => exact (iff_of_eq (true_and _)).symm
  | cons i before ih => exact (and_congr_right fun _ => ih).trans and_assoc.symm

theorem stepsMeet_of_forall (h : ∀ i ∈ inputs, ∀ s, ok s i) : StepsMeet step ok s inputs := by
  induction inputs generalizing s with
  | nil => exact trivial
  | cons i inputs ih => exact ⟨h i List.mem_cons_self s, ih fun j hj => h j (List.mem_cons_of_mem _ hj)⟩

/-- The last input of each part of the run. -/
theorem stepsMeet_iff_last : StepsMeet step ok s inputs ↔
    ∀ before i after, inputs = before ++ i :: after → ok (before.foldl step s) i := by
  constructor
  · rintro h before i after rfl
    exact (stepsMeet_append.mp h).2.1
  · intro h
    induction inputs generalizing s with
    | nil => exact trivial
    | cons i inputs ih =>
        refine ⟨h [] i inputs rfl, ih fun before j after hinputs => ?_⟩
        exact h (i :: before) j after (congrArg (i :: ·) hinputs)

end StepsMeet

end Lib
