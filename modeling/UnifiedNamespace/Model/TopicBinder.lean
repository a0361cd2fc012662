/-
# `Model.TopicBinder` — topics that are bound once, and `forget`

`topic_binder.py`.  Between two `await`s nothing else runs, so a run is an order of the parts of
`observe`, of the completions of its `bind_topic` calls, and of `forget`.  `forget` clears what
is remembered but not what is in flight: a bind that began before it is still waited for, and
remembered when it completes.  Every observation relies on a bind that began after the last
`forget` as long as no `forget` finds a bind in flight that it covers (`bindings_fresh_iff`).
-/
import UnifiedNamespace.Lib.Dict
import UnifiedNamespace.Lib.Transition
import UnifiedNamespace.Python.Str

namespace Uns.Model

open Py Lib

/-! ## The binder -/

/-- An observation: when its topic was last forgotten, and when the bind that it relies on began. -/
structure Observation where
  topic : Str
  forgotten : Nat
  started : Nat

/-- The topics that are bound and the binds in flight, each with the time its bind began. -/
structure TopicBinder where
  capacity : Nat
  bound : Dict Str Nat
  inFlight : Dict Str Nat
  clock : Nat
  /-- When a topic was last forgotten; 0 if it never was. -/
  forgotten : Str → Nat
  observed : List Observation

inductive BinderStep where
  | observe (topic : Str)
  /-- `bind_topic` returns, or raises. -/
  | finish (topic : Str) (returned : Bool)
  | forget (topic : Option Str)

namespace TopicBinder

def new (capacity : Nat) : TopicBinder := ⟨capacity, .empty, .empty, 1, fun _ => 0, []⟩

/-- `move_to_end`, of a topic that may be new. -/
def toEnd (bound : Dict Str Nat) (topic : Str) (started : Nat) : Dict Str Nat :=
  (bound.erase topic).update topic started fun _ => started

/-- `popitem(last=False)` down to the capacity. -/
def trim (capacity : Nat) (bound : Dict Str Nat) : Dict Str Nat :=
  ⟨bound.entries.drop (bound.entries.length - capacity), bound.nodup.sublist ((List.drop_sublist _ _).map _)⟩

/-- `_remember`. -/
def remember (b : TopicBinder) (topic : Str) (started : Nat) : TopicBinder :=
  { b with bound := trim b.capacity (toEnd b.bound topic started) }

def log (b : TopicBinder) (topic : Str) (started : Nat) : TopicBinder :=
  { b with observed := ⟨topic, b.forgotten topic, started⟩ :: b.observed, clock := b.clock + 1 }

def step (b : TopicBinder) : BinderStep → TopicBinder
  | .observe topic =>
      match b.bound.get? topic with
      | some started => { b with bound := toEnd b.bound topic started }.log topic started
      | none =>
          match b.inFlight.get? topic with
          | some started => b.log topic started
          | none => { b with inFlight := b.inFlight.update topic b.clock fun _ => b.clock }.log topic b.clock
  | .finish topic returned =>
      match b.inFlight.get? topic with
      | none => b
      | some started =>
          let done := if returned then b.remember topic started else b
          { done with inFlight := b.inFlight.erase topic }
  | .forget none => { b with bound := .empty, forgotten := fun _ => b.clock, clock := b.clock + 1 }
  | .forget (some topic) =>
      { b with
        bound := b.bound.erase topic
        forgotten := Function.update b.forgotten topic b.clock
        clock := b.clock + 1 }

def run (b : TopicBinder) (steps : List BinderStep) : TopicBinder := steps.foldl step b

/-! ## Fresh bindings -/

/-- What is observed relies on a bind that began after the last `forget`, and no older one is
remembered. -/
structure Kept (b : TopicBinder) : Prop where
  observed : ∀ o ∈ b.observed, o.forgotten < o.started
  bound : ∀ e ∈ b.bound.entries, b.forgotten e.1 < e.2

/-- A `forget` that finds no bind in flight of a topic that it forgets. -/
def Calm (b : TopicBinder) : BinderStep → Prop
  | .forget none => b.inFlight.entries = []
  | .forget (some topic) => b.inFlight.get? topic = none
  | _ => True

def StaysCalm (b : TopicBinder) (steps : List BinderStep) : Prop := StepsMeet step Calm b steps

/-- Also what is in flight began after the last `forget`. -/
structure Fresh (b : TopicBinder) : Prop where
  kept : b.Kept
  inFlight : ∀ e ∈ b.inFlight.entries, b.forgotten e.1 < e.2
  clock : ∀ topic, b.forgotten topic < b.clock

variable {b : TopicBinder} {topic : Str} {started : Nat} {steps : List BinderStep}

theorem mem_toEnd {bound : Dict Str Nat} {e : Str × Nat} (h : e ∈ (toEnd bound topic started).entries) :
    e ∈ bound.entries ∨ e = (topic, started) := by
  rcases Dict.mem_entries_update h with h | rfl
  · exact .inl (Dict.mem_entries_erase h)
  · exact .inr rfl

theorem Fresh.log (h : b.Fresh) (hstarted : b.forgotten topic < started) : (b.log topic started).Fresh := by
  refine ⟨⟨fun o ho => ?_, h.kept.bound⟩, h.inFlight, fun other => Nat.lt_succ_of_lt (h.clock other)⟩
  rcases List.mem_cons.mp ho with rfl | ho
  · exact hstarted
  · exact h.kept.observed o ho

theorem Fresh.setBound (h : b.Fresh) {bound : Dict Str Nat} (hbound : ∀ e ∈ bound.entries, b.forgotten e.1 < e.2) :
    ({ b with bound := bound } : TopicBinder).Fresh :=
  ⟨⟨h.kept.observed, hbound⟩, h.inFlight, h.clock⟩

theorem Fresh.setInFlight (h : b.Fresh) {inFlight : Dict Str Nat}
    (hflight : ∀ e ∈ inFlight.entries, b.forgotten e.1 < e.2) : ({ b with inFlight := inFlight } : TopicBinder).Fresh :=
  ⟨⟨h.kept.observed, h.kept.bound⟩, hflight, h.clock⟩

theorem Fresh.observe (h : b.Fresh) (topic : Str) : (b.step (.observe topic)).Fresh := by
  simp only [TopicBinder.step]
  cases hbound : b.bound.get? topic with
  | some started =>
      have hstarted : b.forgotten topic < started := h.kept.bound _ (Dict.mem_of_get? hbound)
      refine Fresh.log (h.setBound fun e he => ?_) hstarted
      rcases mem_toEnd he with he | rfl
      · exact h.kept.bound e he
      · exact hstarted
  | none =>
      cases hflight : b.inFlight.get? topic with
      | some started => exact h.log (h.inFlight _ (Dict.mem_of_get? hflight))
      | none =>
          refine Fresh.log (h.setInFlight fun e he => ?_) (h.clock topic)
          rcases Dict.mem_entries_update he with he | rfl
          · exact h.inFlight e he
          · exact h.clock topic

theorem Fresh.finish (h : b.Fresh) (topic : Str) (returned : Bool) : (b.step (.finish topic returned)).Fresh := by
  simp only [TopicBinder.step]
  cases hflight : b.inFlight.get? topic with
  | none => exact h
  | some started =>
      have hstarted : b.forgotten topic < started := h.inFlight _ (Dict.mem_of_get? hflight)
      have hrest : ∀ e ∈ (b.inFlight.erase topic).entries, b.forgotten e.1 < e.2 := fun e he =>
        h.inFlight e (Dict.mem_entries_erase he)
      cases returned with
      | false => exact h.setInFlight hrest
      | true =>
          have hremembered : (b.remember topic started).Fresh := by
            refine h.setBound fun e he => ?_
            rcases mem_toEnd ((List.drop_sublist _ _).subset he) with he | rfl
            · exact h.kept.bound e he
            · exact hstarted
          exact hremembered.setInFlight hrest

/-- A `forget` keeps the bindings fresh when nothing that it covers is in flight. -/
theorem Fresh.forget (h : b.Fresh) {topic : Option Str} (hcalm : b.Calm (.forget topic)) :
    (b.step (.forget topic)).Fresh := by
  cases topic with
  | none =>
      refine ⟨⟨h.kept.observed, fun e he => absurd he List.not_mem_nil⟩, fun e he => ?_, fun _ => Nat.lt_succ_self _⟩
      change e ∈ b.inFlight.entries at he
      have hempty : b.inFlight.entries = [] := hcalm
      rw [hempty] at he
      exact absurd he List.not_mem_nil
  | some topic =>
      have hother : ∀ {d : Dict Str Nat} {e : Str × Nat}, e ∈ d.entries → d.get? topic = none → e.1 ≠ topic := by
        rintro d e he hnone rfl
        rw [Dict.get?_of_mem he] at hnone
        cases hnone
      refine ⟨⟨h.kept.observed, fun e he => ?_⟩, fun e he => ?_, fun other => ?_⟩
      · have hne := hother he (Dict.get?_erase_self _ _)
        change Function.update b.forgotten topic b.clock e.1 < e.2
        rw [Function.update_of_ne hne]
        exact h.kept.bound e (Dict.mem_entries_erase he)
      · have hne := hother he hcalm
        change Function.update b.forgotten topic b.clock e.1 < e.2
        rw [Function.update_of_ne hne]
        exact h.inFlight e he
      · change Function.update b.forgotten topic b.clock other < b.clock + 1
        by_cases hsame : other = topic
        · rw [hsame, Function.update_self]
          exact Nat.lt_succ_self _
        · rw [Function.update_of_ne hsame]
          exact Nat.lt_succ_of_lt (h.clock other)

theorem Fresh.step (h : b.Fresh) {s : BinderStep} (hcalm : b.Calm s) : (b.step s).Fresh := by
  cases s with
  | observe topic => exact h.observe topic
  | finish topic returned => exact h.finish topic returned
  | forget topic => exact h.forget hcalm

theorem Fresh.run (h : b.Fresh) (hcalm : b.StaysCalm steps) : (b.run steps).Fresh :=
  StepsMeet.invariant (fun _ _ hb hs => hb.step hs) h hcalm

theorem fresh_new (capacity : Nat) : (new capacity).Fresh :=
  ⟨⟨fun _ ho => absurd ho List.not_mem_nil, fun _ he => absurd he List.not_mem_nil⟩,
    fun _ he => absurd he List.not_mem_nil, fun _ => Nat.one_pos⟩

/-! ## When a bind is in flight -/

theorem calm_of_ne {s : BinderStep} (h : ∀ topic, s ≠ .forget topic) (b : TopicBinder) : b.Calm s := by
  cases s with
  | observe topic => exact trivial
  | finish topic returned => exact trivial
  | forget topic => exact absurd rfl (h topic)

theorem step_observe_inFlight (hbound : b.bound.get? topic = none) (hflight : b.inFlight.get? topic = some started) :
    b.step (.observe topic) = b.log topic started := by
  simp only [step, hbound, hflight]

/-- The next observation of a forgotten topic waits for the bind that is in flight. -/
theorem observed_of_inFlight {covers : Option Str} (hcovers : covers = none ∨ covers = some topic)
    (hclock : ∀ e ∈ b.inFlight.entries, e.2 ≤ b.clock) (hflight : b.inFlight.get? topic = some started) :
    ¬ (b.run [.forget covers, .observe topic]).Kept := by
  have hforgotten : ((b.step (.forget covers)).bound.get? topic = none) ∧
      (b.step (.forget covers)).inFlight = b.inFlight ∧ (b.step (.forget covers)).forgotten topic = b.clock := by
    rcases hcovers with rfl | rfl
    · exact ⟨rfl, rfl, rfl⟩
    · exact ⟨Dict.get?_erase_self _ _, rfl, Function.update_self _ _ _⟩
  obtain ⟨hbound, hsame, hlast⟩ := hforgotten
  have hrun : b.run [.forget covers, .observe topic] = (b.step (.forget covers)).log topic started :=
    step_observe_inFlight hbound (hsame ▸ hflight)
  intro hkept
  rw [hrun] at hkept
  have hlater := hkept.observed _ List.mem_cons_self
  change (b.step (.forget covers)).forgotten topic < started at hlater
  rw [hlast] at hlater
  exact absurd hlater (not_lt.mpr (hclock _ (Dict.mem_of_get? hflight)))

/-- What is in flight began before now. -/
theorem inFlight_started (capacity : Nat) (steps : List BinderStep) :
    ∀ e ∈ ((new capacity).run steps).inFlight.entries, e.2 ≤ ((new capacity).run steps).clock := by
  have hstep : ∀ (b : TopicBinder) (s : BinderStep), (∀ e ∈ b.inFlight.entries, e.2 ≤ b.clock) →
      ∀ e ∈ (b.step s).inFlight.entries, e.2 ≤ (b.step s).clock := by
    intro b s h
    cases s with
    | observe topic =>
        simp only [step]
        cases b.bound.get? topic with
        | some started => exact fun e he => (h e he).trans (Nat.le_succ _)
        | none =>
            cases b.inFlight.get? topic with
            | some started => exact fun e he => (h e he).trans (Nat.le_succ _)
            | none =>
                intro e he
                rcases Dict.mem_entries_update he with he | rfl
                · exact (h e he).trans (Nat.le_succ _)
                · exact Nat.le_succ _
    | finish topic returned =>
        simp only [step]
        cases b.inFlight.get? topic with
        | none => exact h
        | some started => cases returned <;> exact fun e he => h e (Dict.mem_entries_erase he)
    | forget topic => cases topic <;> exact fun e he => (h e he).trans (Nat.le_succ _)
  have hrun : ∀ (steps : List BinderStep) (b : TopicBinder), (∀ e ∈ b.inFlight.entries, e.2 ≤ b.clock) →
      ∀ e ∈ (b.run steps).inFlight.entries, e.2 ≤ (b.run steps).clock := by
    intro steps
    induction steps with
    | nil => exact fun _ h => h
    | cons s steps ih => exact fun b h => ih _ (hstep b s h)
  exact hrun steps (new capacity) fun _ he => absurd he List.not_mem_nil

/-- No `forget` of a run finds a bind in flight that it covers exactly when each part of the run,
however it goes on without a `forget`, has fresh bindings. -/
theorem bindings_fresh_iff (capacity : Nat) (steps : List BinderStep) : (new capacity).StaysCalm steps ↔
    ∀ before after more, steps = before ++ after → (∀ s ∈ more, ∀ topic, s ≠ BinderStep.forget topic) →
      ((new capacity).run (before ++ more)).Kept := by
  constructor
  · rintro hcalm before after more rfl hmore
    have hbefore := (stepsMeet_append.mp hcalm).1
    refine ((fresh_new capacity).run (stepsMeet_append.mpr ⟨hbefore, ?_⟩)).kept
    exact stepsMeet_of_forall fun s hs => calm_of_ne (hmore s hs)
  · intro hkept
    refine stepsMeet_iff_last.mpr fun before s after hsteps => ?_
    have hobserve : ∀ topic, s = .forget none ∨ s = .forget (some topic) →
        ((new capacity).run before).inFlight.get? topic = none := by
      intro topic hs
      by_contra hflight
      obtain ⟨started, hstarted⟩ := Option.ne_none_iff_exists'.mp hflight
      have hstale := hkept (before ++ [s]) after [.observe topic]
        (hsteps.trans (List.append_assoc _ [s] _).symm) fun s hs topic => by
          rw [List.mem_singleton.mp hs]
          exact BinderStep.noConfusion
      have hrun : (new capacity).run (before ++ [s] ++ [.observe topic]) =
          ((new capacity).run before).run [s, .observe topic] := by
        rw [List.append_assoc]
        exact List.foldl_append
      rw [hrun] at hstale
      rcases hs with rfl | rfl
      · exact observed_of_inFlight (.inl rfl) (inFlight_started capacity before) hstarted hstale
      · exact observed_of_inFlight (.inr rfl) (inFlight_started capacity before) hstarted hstale
    cases s with
    | observe topic => exact trivial
    | finish topic returned => exact trivial
    | forget topic =>
        cases topic with
        | some topic => exact hobserve topic (.inr rfl)
        | none =>
            change ((new capacity).run before).inFlight.entries = []
            refine List.eq_nil_iff_forall_not_mem.mpr fun e he => ?_
            have hnone := hobserve e.1 (.inl rfl)
            rw [Dict.get?_of_mem he] at hnone
            cases hnone

/-! ## One topic -/

def speed : Str := lit "acme/press/speed"

/-- The bind is over before the `forget`. -/
theorem over_before_forget :
    ((new 50000).run
      ([.observe speed, .finish speed true, .forget none] ++ [.observe speed, .finish speed true])).Kept :=
  (bindings_fresh_iff 50000 [.observe speed, .finish speed true, .forget none]).mp
    ⟨trivial, trivial, rfl, trivial⟩ _ [] [.observe speed, .finish speed true] (List.append_nil _).symm
    fun s hs topic => by
      rcases List.mem_cons.mp hs with rfl | hs
      · exact BinderStep.noConfusion
      · rw [List.mem_singleton.mp hs]
        exact BinderStep.noConfusion

/-- The bind that began before the `forget` is remembered. -/
theorem stale_remembered : ¬ ∀ (capacity : Nat) (steps : List BinderStep), 1 ≤ capacity →
    ((new capacity).run steps).Kept := by
  intro h
  have hbound := (h 1 [.observe speed, .forget none, .finish speed true] le_rfl).bound
  revert hbound
  decide +kernel

end TopicBinder

end Uns.Model
