/-
# `Python.Equality` — `==` on JSON values

Numbers compare by value across `bool`, `int` and `float`, dicts by their keys
whatever the order, and `nan` equals nothing.  `pyEq_self` says which values equal
a copy of themselves: those without a `nan`.
-/
import UnifiedNamespace.Python.JsonRoundTrip

namespace Py

/-- The number a value compares as; `nan` compares as none. -/
inductive PyNum where
  | fin (q : ℚ)
  | inf (neg : Bool)
  deriving DecidableEq

def numeric : Json → Option PyNum
  | .bool b => some (.fin (if b then 1 else 0))
  | .int n => some (.fin n)
  | .float (.fin neg d) => some (.fin (if neg then -d.mag else d.mag))
  | .float (.inf neg) => some (.inf neg)
  | _ => none

def sameNumber (v w : Json) : Bool :=
  match numeric v, numeric w with
  | some x, some y => decide (x = y)
  | _, _ => false

mutual

/-- `v == w`. -/
def Json.pyEq : Json → Json → Bool
  | .null, .null => true
  | .str s, .str t => decide (s = t)
  | .arr xs, .arr ys => elemsEq xs ys
  | .obj ms, .obj ns => decide (ms.length = ns.length) && membersEq ms ns
  | v, w => sameNumber v w

def elemsEq : List Json → List Json → Bool
  | [], [] => true
  | x :: xs, y :: ys => x.pyEq y && elemsEq xs ys
  | _, _ => false

/-- Every member has an equal one under its key. -/
def membersEq : List (Str × Json) → List (Str × Json) → Bool
  | [], _ => true
  | (k, v) :: ms, ns =>
      (match getKey ns k with
        | some w => v.pyEq w
        | none => false) && membersEq ms ns

end

mutual

def Json.nanFree : Json → Bool
  | .float .nan => false
  | .arr xs => elemsNanFree xs
  | .obj ms => membersNanFree ms
  | _ => true

def elemsNanFree : List Json → Bool
  | [] => true
  | x :: xs => x.nanFree && elemsNanFree xs

def membersNanFree : List (Str × Json) → Bool
  | [] => true
  | (_, v) :: ms => v.nanFree && membersNanFree ms

end

theorem getKey_of_mem {ms : List (Str × Json)} (hn : (keys ms).Nodup) {p : Str × Json}
    (hp : p ∈ ms) : getKey ms p.1 = some p.2 := by
  induction ms with
  | nil => cases hp
  | cons q ms ih =>
      simp only [keys, List.map_cons, List.nodup_cons] at hn
      rcases List.mem_cons.mp hp with rfl | hp
      · simp [getKey]
      · have hne : q.1 ≠ p.1 := fun h => hn.1 (h ▸ List.mem_map_of_mem hp)
        have := ih hn.2 hp
        simp only [getKey, List.find?_cons, decide_eq_false hne] at this ⊢
        exact this

mutual

/-- A value equals a copy of itself exactly when it holds no `nan`. -/
theorem pyEq_self : ∀ v : Json, v.Wf → v.pyEq v = v.nanFree
  | .null, _ => rfl
  | .bool b, _ => by simp [Json.pyEq, sameNumber, numeric, Json.nanFree]
  | .int n, _ => by simp [Json.pyEq, sameNumber, numeric, Json.nanFree]
  | .float .nan, _ => rfl
  | .float (.inf neg), _ => by simp [Json.pyEq, sameNumber, numeric, Json.nanFree]
  | .float (.fin neg d), _ => by simp [Json.pyEq, sameNumber, numeric, Json.nanFree]
  | .str s, _ => by simp [Json.pyEq, Json.nanFree]
  | .arr xs, h => by
      simp only [Json.Wf] at h
      simp only [Json.pyEq, Json.nanFree, elemsEq_self xs h]
  | .obj ms, h => by
      simp only [Json.Wf] at h
      simp only [Json.pyEq, Json.nanFree, decide_true, Bool.true_and]
      exact membersEq_self ms ms h.2 fun p hp => getKey_of_mem h.1 hp

theorem elemsEq_self : ∀ xs : List Json, elemsWf xs → elemsEq xs xs = elemsNanFree xs
  | [], _ => rfl
  | x :: xs, h => by
      simp only [elemsWf] at h
      simp only [elemsEq, elemsNanFree, pyEq_self x h.1, elemsEq_self xs h.2]

theorem membersEq_self : ∀ ms ns : List (Str × Json), membersWf ms →
    (∀ p ∈ ms, getKey ns p.1 = some p.2) → membersEq ms ns = membersNanFree ms
  | [], _, _, _ => rfl
  | (k, v) :: ms, ns, h, hget => by
      simp only [membersWf] at h
      have hk : getKey ns k = some v := hget (k, v) (by simp)
      simp only [membersEq, membersNanFree, hk, pyEq_self v h.1]
      rw [membersEq_self ms ns h.2 fun p hp => hget p (by simp [hp])]

end

/-- Equal dicts agree under each key. -/
theorem membersEq_getKey {ms ns : List (Str × Json)} (h : membersEq ms ns = true) {k : Str}
    {v : Json} (hk : getKey ms k = some v) : ∃ w, getKey ns k = some w ∧ v.pyEq w = true := by
  induction ms with
  | nil => cases hk
  | cons p ms ih =>
      simp only [membersEq, Bool.and_eq_true] at h
      by_cases hp : p.1 = k
      · have hv : p.2 = v := by
          simpa [getKey, hp] using hk
        rw [hp, hv] at h
        cases hw : getKey ns k with
        | none => simp [hw] at h
        | some w =>
            rw [hw] at h
            exact ⟨w, rfl, h.1⟩
      · refine ih h.2 ?_
        simpa [getKey, hp] using hk

theorem setKey_getKey {ms : List (Str × Json)} {k : Str} {v : Json}
    (h : getKey ms k = some v) : setKey ms k v = ms := by
  induction ms with
  | nil => cases h
  | cons p ms ih =>
      by_cases hp : p.1 = k
      · have hv : p.2 = v := by
          simpa [getKey, hp] using h
        simp [setKey, ← hp, ← hv]
      · simp only [setKey, if_neg hp]
        rw [ih (by simpa [getKey, hp] using h)]

theorem getKey_setKey (ms : List (Str × Json)) (k : Str) (v : Json) :
    getKey (setKey ms k v) k = some v := by
  induction ms with
  | nil => simp [setKey, getKey]
  | cons p ms ih =>
      by_cases hp : p.1 = k
      · simp [setKey, hp, getKey]
      · simp only [setKey, if_neg hp]
        simpa [getKey, hp] using ih

end Py
