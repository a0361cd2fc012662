/-
# `Lib.Raise` — checks that may raise

A check is an `Except ε Unit`.  It passes when every part of it passes, and the lemmas
say so for two checks in a row, for one condition and for a list.  An `Option` that is never
`none` on a list is a `map` (`mapM_map_some`).
-/
import Mathlib

namespace Lib

variable {α β ε : Type}

/-- Raise when the condition holds. -/
def refuse (c : Prop) [Decidable c] (e : ε) : Except ε Unit := if c then .error e else .ok ()

theorem refuse_ok {c : Prop} [Decidable c] {e : ε} : refuse c e = .ok () ↔ ¬ c := by
  by_cases hc : c
  · rw [refuse, if_pos hc]
    exact ⟨fun h => (nomatch h), fun h => absurd hc h⟩
  · rw [refuse, if_neg hc]
    exact ⟨fun _ => hc, fun _ => rfl⟩

theorem bind_ok {x : Except ε α} {f : α → Except ε β} {b : β} :
    x >>= f = .ok b ↔ ∃ a, x = .ok a ∧ f a = .ok b := by
  cases x with
  | error e =>
      refine ⟨fun h => (nomatch h), ?_⟩
      rintro ⟨a, ha, _⟩
      cases ha
  | ok a => exact ⟨fun h => ⟨a, rfl, h⟩, fun ⟨_, ha, h⟩ => by cases ha; exact h⟩

/-- One check after another. -/
theorem check_ok {x y : Except ε Unit} : (do x; y) = .ok () ↔ x = .ok () ∧ y = .ok () := by
  rw [bind_ok]
  exact ⟨fun ⟨_, hx, hy⟩ => ⟨hx, hy⟩, fun ⟨hx, hy⟩ => ⟨(), hx, hy⟩⟩

/-- A check of every member of a list. -/
theorem forM_ok {f : α → Except ε Unit} {as : List α} :
    as.forM f = .ok () ↔ ∀ a ∈ as, f a = .ok () := by
  induction as with
  | nil => exact ⟨fun _ a ha => (by cases ha), fun _ => rfl⟩
  | cons a as ih =>
      have hcons : (a :: as).forM f = (do f a; as.forM f) := rfl
      rw [hcons, check_ok, ih, List.forall_mem_cons]

/-- Each member returns, so the list does. -/
theorem mapM_map_some {γ : Type} {g : α → β} {f : β → Option γ} {as : List α} (r : α → γ)
    (h : ∀ a ∈ as, f (g a) = some (r a)) : (as.map g).mapM f = some (as.map r) := by
  induction as with
  | nil => rfl
  | cons a as ih =>
      rw [List.map_cons, List.mapM_cons, h a List.mem_cons_self, ih fun b hb => h b (List.mem_cons_of_mem _ hb)]
      rfl

end Lib
