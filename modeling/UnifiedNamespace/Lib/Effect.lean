/-
# `Lib.Effect` — stateful computations that may raise, and their triples

`Eff σ ε α` runs on a state and ends in a result or a raised `ε`; what it did to
the state before the raise is kept, as in a language with mutable objects and
exceptions.  `Spec P x Q E` is a triple with one postcondition for a return and
one for a raise.  `Keeps I x` is the special case of an invariant, and its rules
follow the shape of the program.
-/
import Mathlib

namespace Lib

/-- A computation over a state `σ` that may raise an `ε`. -/
def Eff (σ ε α : Type) : Type := σ → Except ε α × σ

namespace Eff

variable {σ ε α β : Type}

instance : Monad (Eff σ ε) where
  pure a := fun s => (.ok a, s)
  bind x f := fun s =>
    match x s with
    | (.ok a, t) => f a t
    | (.error e, t) => (.error e, t)

/-- The state. -/
def state : Eff σ ε σ := fun s => (.ok s, s)

def change (f : σ → σ) : Eff σ ε Unit := fun s => (.ok (), f s)

def raise (e : ε) : Eff σ ε α := fun s => (.error e, s)

theorem pure_apply (a : α) (s : σ) : (pure a : Eff σ ε α) s = (.ok a, s) := rfl

theorem bind_apply (x : Eff σ ε α) (f : α → Eff σ ε β) (s : σ) :
    (x >>= f) s =
      match x s with
      | (.ok a, t) => f a t
      | (.error e, t) => (.error e, t) := rfl

/-- The bind after a computation that returns. -/
theorem bind_of_ok {x : Eff σ ε α} {s t : σ} {a : α} (h : x s = (.ok a, t)) (f : α → Eff σ ε β) :
    (x >>= f) s = f a t := by
  rw [bind_apply, h]

theorem bind_of_error {x : Eff σ ε α} {s t : σ} {e : ε} (h : x s = (.error e, t))
    (f : α → Eff σ ε β) : (x >>= f) s = (.error e, t) := by
  rw [bind_apply, h]

theorem state_bind (f : σ → Eff σ ε β) (s : σ) : (state >>= f) s = f s s := rfl

theorem change_bind (g : σ → σ) (f : Unit → Eff σ ε β) (s : σ) :
    (change g >>= f) s = f () (g s) := rfl

/-! ## Triples -/

/-- From `P`, a return meets `Q` and a raise meets `E`. -/
def Spec (P : σ → Prop) (x : Eff σ ε α) (Q : α → σ → Prop) (E : ε → σ → Prop) : Prop :=
  ∀ s, P s →
    match x s with
    | (.ok a, t) => Q a t
    | (.error e, t) => E e t

section Rules

variable {P P' : σ → Prop} {Q Q' : α → σ → Prop} {E E' : ε → σ → Prop}

theorem Spec.ok {x : Eff σ ε α} (h : Spec P x Q E) {s t : σ} {a : α} (hs : P s)
    (hx : x s = (.ok a, t)) : Q a t := by
  have := h s hs
  rw [hx] at this
  exact this

theorem Spec.error {x : Eff σ ε α} (h : Spec P x Q E) {s t : σ} {e : ε} (hs : P s)
    (hx : x s = (.error e, t)) : E e t := by
  have := h s hs
  rw [hx] at this
  exact this

theorem Spec.pure {a : α} (h : ∀ s, P s → Q a s) : Spec P (pure a) Q E := fun s hs => h s hs

theorem Spec.raise {e : ε} (h : ∀ s, P s → E e s) : Spec P (raise e : Eff σ ε α) Q E :=
  fun s hs => h s hs

theorem Spec.change {f : σ → σ} {Q : Unit → σ → Prop} (h : ∀ s, P s → Q () (f s)) :
    Spec P (change f) Q E := fun s hs => h s hs

theorem Spec.bind {x : Eff σ ε α} {f : α → Eff σ ε β} {R : β → σ → Prop} (hx : Spec P x Q E)
    (hf : ∀ a, Spec (Q a) (f a) R E) : Spec P (x >>= f) R E := by
  intro s hs
  have h := hx s hs
  rw [bind_apply]
  rcases hxs : x s with ⟨_ | a, t⟩
  · rw [hxs] at h
    exact h
  · rw [hxs] at h
    exact hf a t h

/-- A first step whose end is known. -/
theorem Spec.of_ok {x : Eff σ ε α} {f : α → Eff σ ε β} {R : β → σ → Prop} {s t : σ} {a : α}
    (hx : x s = (.ok a, t)) (hf : Spec (fun u => u = t) (f a) R E) :
    Spec (fun u => u = s) (x >>= f) R E := by
  intro u hu
  rw [hu, bind_of_ok hx]
  exact hf t rfl

theorem Spec.change_bind {f : σ → σ} {g : Unit → Eff σ ε β} {S : σ → Prop} {R : β → σ → Prop}
    (h : ∀ s, P s → S (f s)) (hg : Spec S (g ()) R E) : Spec P (Eff.change f >>= g) R E :=
  fun s hs => hg (f s) (h s hs)

/-- Reading the state makes it known. -/
theorem Spec.state_bind {f : σ → Eff σ ε β} {R : β → σ → Prop}
    (h : ∀ s₀, P s₀ → Spec (fun s => s = s₀) (f s₀) R E) : Spec P (state >>= f) R E :=
  fun s hs => h s hs s rfl

theorem Spec.conseq {x : Eff σ ε α} (h : Spec P x Q E) (hP : ∀ s, P' s → P s)
    (hQ : ∀ a s, Q a s → Q' a s) (hE : ∀ e s, E e s → E' e s) : Spec P' x Q' E' := by
  intro s hs
  have := h s (hP s hs)
  rcases hxs : x s with ⟨e | a, t⟩
  · rw [hxs] at this
    exact hE e t this
  · rw [hxs] at this
    exact hQ a t this

theorem Spec.ite {c : Prop} [Decidable c] {x y : Eff σ ε α} (hx : c → Spec P x Q E)
    (hy : ¬ c → Spec P y Q E) : Spec P (if c then x else y) Q E := by
  split
  · exact hx ‹_›
  · exact hy ‹_›

/-- Two triples of one computation. -/
theorem Spec.and {x : Eff σ ε α} (h : Spec P x Q E) (h' : Spec P' x Q' E') :
    Spec (fun s => P s ∧ P' s) x (fun a s => Q a s ∧ Q' a s) (fun e s => E e s ∧ E' e s) := by
  intro s hs
  have h₁ := h s hs.1
  have h₂ := h' s hs.2
  rcases hx : x s with ⟨e | a, t⟩
  · rw [hx] at h₁ h₂
    exact ⟨h₁, h₂⟩
  · rw [hx] at h₁ h₂
    exact ⟨h₁, h₂⟩

/-- A triple from one state at a time. -/
theorem Spec.of_point {x : Eff σ ε α} (h : ∀ s, P s → Spec (fun t => t = s) x Q E) :
    Spec P x Q E := fun s hs => h s hs s rfl

end Rules

/-! ## Frames -/

/-- The computation leaves `f` of the state as it was. -/
def Frames {τ : Type} (f : σ → τ) (x : Eff σ ε α) : Prop := ∀ s, f (x s).2 = f s

section FrameRules

variable {τ : Type} {f : σ → τ}

theorem Frames.pure (a : α) : Frames f (pure a : Eff σ ε α) := fun _ => rfl

theorem Frames.raise (e : ε) : Frames f (raise e : Eff σ ε α) := fun _ => rfl

theorem Frames.bind {x : Eff σ ε α} {g : α → Eff σ ε β} (hx : Frames f x)
    (hg : ∀ a, Frames f (g a)) : Frames f (x >>= g) := by
  intro s
  have h := hx s
  rw [bind_apply]
  rcases hxs : x s with ⟨_ | a, t⟩
  · rw [hxs] at h
    exact h
  · rw [hxs] at h
    exact (hg a t).trans h

theorem Frames.state_bind {g : σ → Eff σ ε β} (h : ∀ s, Frames f (g s)) :
    Frames f (state >>= g) := fun s => h s s

theorem Frames.ite {c : Prop} [Decidable c] {x y : Eff σ ε α} (hx : Frames f x)
    (hy : Frames f y) : Frames f (if c then x else y) := by
  split
  · exact hx
  · exact hy

theorem Frames.comp {υ : Type} {x : Eff σ ε α} (h : Frames f x) (g : τ → υ) :
    Frames (fun s => g (f s)) x := fun s => congrArg g (h s)

/-- A framed value keeps what is known of it through a triple. -/
theorem Spec.frame {P : σ → Prop} {x : Eff σ ε α} {Q : α → σ → Prop} {E : ε → σ → Prop}
    (h : Spec P x Q E) (hf : Frames f x) (v : τ) :
    Spec (fun s => P s ∧ f s = v) x (fun a s => Q a s ∧ f s = v) (fun e s => E e s ∧ f s = v) := by
  refine h.and fun s hs => ?_
  have := (hf s).trans hs
  rcases hx : x s with ⟨e | a, t⟩
  · rwa [hx] at this
  · rwa [hx] at this

end FrameRules

/-! ## Invariants of a computation -/

/-- Whether it returns or raises, the computation leaves the invariant. -/
def Keeps (I : σ → Prop) (x : Eff σ ε α) : Prop := ∀ s, I s → I (x s).2

section Invariants

variable {I : σ → Prop}

theorem Keeps.pure (a : α) : Keeps I (pure a : Eff σ ε α) := fun _ h => h

theorem Keeps.raise (e : ε) : Keeps I (raise e : Eff σ ε α) := fun _ h => h

theorem Keeps.change {f : σ → σ} (h : ∀ s, I s → I (f s)) :
    Keeps I (change f : Eff σ ε Unit) := h

theorem Keeps.bind {x : Eff σ ε α} {f : α → Eff σ ε β} (hx : Keeps I x)
    (hf : ∀ a, Keeps I (f a)) : Keeps I (x >>= f) := by
  intro s hs
  have h := hx s hs
  rw [bind_apply]
  rcases hxs : x s with ⟨_ | a, t⟩
  · rw [hxs] at h
    exact h
  · rw [hxs] at h
    exact hf a t h

/-- An invariant as a triple. -/
theorem Keeps.spec {x : Eff σ ε α} (h : Keeps I x) : Spec I x (fun _ => I) (fun _ => I) := by
  intro s hs
  have := h s hs
  rcases hx : x s with ⟨e | a, t⟩
  · rwa [hx] at this
  · rwa [hx] at this

theorem Spec.keeps {x : Eff σ ε α} (h : Spec I x (fun _ => I) (fun _ => I)) : Keeps I x := by
  intro s hs
  have := h s hs
  rcases hx : x s with ⟨e | a, t⟩
  · rwa [hx] at this
  · rwa [hx] at this

theorem Keeps.state_bind {f : σ → Eff σ ε β} (h : ∀ s, I s → I (f s s).2) :
    Keeps I (state >>= f) := h

theorem Keeps.ite {c : Prop} [Decidable c] {x y : Eff σ ε α} (hx : c → Keeps I x)
    (hy : ¬ c → Keeps I y) : Keeps I (if c then x else y) := by
  split
  · exact hx ‹_›
  · exact hy ‹_›

end Invariants

end Eff

/-! ## A list of computations that may raise -/

/-- All of them return. -/
theorem mapM_eq_ok {α β ε : Type} {f : α → Except ε β} {as : List α} {bs : List β} :
    as.mapM f = .ok bs ↔ List.Forall₂ (fun a b => f a = .ok b) as bs := by
  induction as generalizing bs with
  | nil =>
      rw [List.mapM_nil, List.forall₂_nil_left_iff]
      exact ⟨fun h => (Except.ok.inj h).symm, fun h => by rw [h]; rfl⟩
  | cons a as ih =>
      rw [List.mapM_cons]
      cases ha : f a with
      | error e =>
          refine ⟨fun h => (by cases h), ?_⟩
          intro h
          cases h with
          | cons hb _ => rw [ha] at hb; cases hb
      | ok b =>
          cases has : as.mapM f with
          | error e =>
              refine ⟨fun h => ?_, ?_⟩
              · cases h
              · intro h
                cases h with
                | cons _ hbs => rw [ih.mpr hbs] at has; cases has
          | ok bs' =>
              constructor
              · intro h
                cases h
                exact .cons ha (ih.mp has)
              · intro h
                cases h with
                | cons hb hbs =>
                    rw [ha] at hb
                    cases hb
                    rw [ih.mpr hbs] at has
                    cases has
                    rfl

end Lib
