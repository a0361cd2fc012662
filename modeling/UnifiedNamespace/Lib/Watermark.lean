/-
# `Lib.Watermark` — the last element of the leading run

Over an ordered log and a predicate that marks what is done, the watermark is the
last element of the longest prefix that is done throughout.  Everything at or
below it is done (`of_le_watermark`), so a reader may forget that part; it exists
exactly when the first element is done (`watermark_isSome`).
-/
import Mathlib

namespace Lib

variable {α : Type} {p : α → Prop} [DecidablePred p]

/-- The last element of the leading run of elements with `p`. -/
def watermark (p : α → Prop) [DecidablePred p] (log : List α) : Option α :=
  (log.takeWhile fun x => decide (p x)).getLast?

theorem watermark_cons_of_pos {x : α} {log : List α} (h : p x) :
    watermark p (x :: log) = some ((watermark p log).getD x) := by
  simp only [watermark, List.takeWhile_cons, h, decide_true, if_true, List.getLast?_cons]

theorem watermark_cons_of_neg {x : α} {log : List α} (h : ¬ p x) : watermark p (x :: log) = none := by
  simp [watermark, h]

theorem mem_of_watermark {log : List α} {w : α} (h : watermark p log = some w) :
    w ∈ log ∧ p w := by
  have hw := List.mem_of_getLast? h
  have hp := List.mem_takeWhile_imp (p := fun x => decide (p x)) hw
  exact ⟨(List.takeWhile_sublist _).subset hw, of_decide_eq_true hp⟩

/-- There is a watermark exactly when the log starts with a done element. -/
theorem watermark_isSome {log : List α} :
    (watermark p log).isSome = true ↔ ∃ x, log.head? = some x ∧ p x := by
  cases log with
  | nil => simp [watermark]
  | cons x log =>
      by_cases h : p x
      · simp [watermark_cons_of_pos h, h]
      · simp [watermark_cons_of_neg h, h]

section Order

variable [LinearOrder α]

/-- Everything in the log at or below the watermark is done. -/
theorem of_le_watermark {log : List α} (hs : log.Pairwise (· < ·)) {w : α}
    (h : watermark p log = some w) {x : α} (hx : x ∈ log) (hxw : x ≤ w) : p x := by
  induction log with
  | nil => cases hx
  | cons y log ih =>
      rw [List.pairwise_cons] at hs
      by_cases hy : p y
      · rcases List.mem_cons.mp hx with rfl | hx
        · exact hy
        · rw [watermark_cons_of_pos hy, Option.some.injEq] at h
          cases hl : watermark p log with
          | none =>
              rw [hl, Option.getD_none] at h
              subst h
              exact absurd hxw (not_le.mpr (hs.1 x hx))
          | some w' =>
              rw [hl, Option.getD_some] at h
              subst h
              exact ih hs.2 hl hx
      · rw [watermark_cons_of_neg hy] at h
        cases h

end Order

end Lib
