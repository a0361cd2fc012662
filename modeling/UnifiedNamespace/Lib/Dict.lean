/-
# `Lib.Dict` — insertion-ordered dictionaries

A dictionary that iterates in the order its keys were first inserted: a list of
entries with distinct keys, the distinctness a field.  `update` changes the value
of a key in place, or appends the key; `erase` removes it.

`weight` adds up a measure of the entries (how many bytes they hold, how often
something occurs in them), and changes by what the touched entry changes
(`weight_update`, `weight_erase`).
-/
import Mathlib

namespace Lib

variable {κ β : Type} [DecidableEq κ]

/-- The value of a key. -/
def lookup (k : κ) : List (κ × β) → Option β
  | [] => none
  | (j, v) :: es => if j = k then some v else lookup k es

/-- The value of the key changed by `f`, in place; a new key starts from `b`, at the end. -/
def updateEntries (k : κ) (b : β) (f : β → β) : List (κ × β) → List (κ × β)
  | [] => [(k, f b)]
  | (j, v) :: es => if j = k then (j, f v) :: es else (j, v) :: updateEntries k b f es

def eraseEntries (k : κ) : List (κ × β) → List (κ × β)
  | [] => []
  | (j, v) :: es => if j = k then es else (j, v) :: eraseEntries k es

theorem lookup_nil (k : κ) : lookup k ([] : List (κ × β)) = none := rfl

theorem lookup_cons (k : κ) (e : κ × β) (es : List (κ × β)) :
    lookup k (e :: es) = if e.1 = k then some e.2 else lookup k es := rfl

theorem updateEntries_nil (k : κ) (b : β) (f : β → β) : updateEntries k b f [] = [(k, f b)] := rfl

theorem updateEntries_cons (k : κ) (b : β) (f : β → β) (e : κ × β) (es : List (κ × β)) :
    updateEntries k b f (e :: es) = if e.1 = k then (e.1, f e.2) :: es else e :: updateEntries k b f es := rfl

theorem eraseEntries_nil (k : κ) : eraseEntries k ([] : List (κ × β)) = [] := rfl

theorem eraseEntries_cons (k : κ) (e : κ × β) (es : List (κ × β)) :
    eraseEntries k (e :: es) = if e.1 = k then es else e :: eraseEntries k es := rfl

theorem mem_keys_update {k : κ} {b : β} {f : β → β} {es : List (κ × β)} {j : κ} :
    j ∈ (updateEntries k b f es).map Prod.fst ↔ j = k ∨ j ∈ es.map Prod.fst := by
  induction es with
  | nil => simp [updateEntries_nil]
  | cons e es ih =>
      obtain ⟨i, v⟩ := e
      by_cases h : i = k
      · subst h
        simp [updateEntries_cons]
      · simp only [updateEntries_cons, if_neg h, List.map_cons, List.mem_cons, ih]
        tauto

theorem nodup_update {k : κ} {b : β} {f : β → β} {es : List (κ × β)}
    (h : (es.map Prod.fst).Nodup) : ((updateEntries k b f es).map Prod.fst).Nodup := by
  induction es with
  | nil => simp [updateEntries_nil]
  | cons e es ih =>
      obtain ⟨i, v⟩ := e
      rw [List.map_cons, List.nodup_cons] at h
      by_cases hi : i = k
      · simpa only [updateEntries, if_pos hi, List.map_cons, List.nodup_cons] using h
      · simp only [updateEntries_cons, if_neg hi, List.map_cons, List.nodup_cons]
        refine ⟨?_, ih h.2⟩
        rw [mem_keys_update]
        rintro (rfl | hmem)
        · exact hi rfl
        · exact h.1 hmem

theorem eraseEntries_sublist (k : κ) (es : List (κ × β)) : (eraseEntries k es).Sublist es := by
  induction es with
  | nil => exact List.Sublist.refl _
  | cons e es ih =>
      obtain ⟨i, v⟩ := e
      rw [eraseEntries_cons]
      split
      · exact List.sublist_cons_self _ _
      · exact ih.cons_cons _

/-- A dictionary in insertion order. -/
structure Dict (κ β : Type) where
  entries : List (κ × β)
  nodup : (entries.map Prod.fst).Nodup

namespace Dict

def empty : Dict κ β := ⟨[], List.nodup_nil⟩

def get? (d : Dict κ β) (k : κ) : Option β := lookup k d.entries

def update (d : Dict κ β) (k : κ) (b : β) (f : β → β) : Dict κ β :=
  ⟨updateEntries k b f d.entries, nodup_update d.nodup⟩

def erase (d : Dict κ β) (k : κ) : Dict κ β :=
  ⟨eraseEntries k d.entries, d.nodup.sublist ((eraseEntries_sublist k _).map _)⟩

def keys (d : Dict κ β) : List κ := d.entries.map Prod.fst

theorem mem_of_get? {d : Dict κ β} {k : κ} {v : β} (h : d.get? k = some v) : (k, v) ∈ d.entries := by
  obtain ⟨es, hn⟩ := d
  change lookup k es = some v at h
  change (k, v) ∈ es
  clear hn
  induction es with
  | nil => cases h
  | cons e es ih =>
      obtain ⟨i, w⟩ := e
      by_cases hi : i = k
      · simp only [lookup_cons, if_pos hi, Option.some.injEq] at h
        rw [hi, h]
        exact List.mem_cons_self
      · simp only [lookup_cons, if_neg hi] at h
        exact List.mem_cons_of_mem _ (ih h)

theorem get?_eq_none {d : Dict κ β} {k : κ} : d.get? k = none ↔ k ∉ d.keys := by
  obtain ⟨es, hn⟩ := d
  simp only [get?, keys]
  clear hn
  induction es with
  | nil => simp [lookup_nil]
  | cons e es ih =>
      obtain ⟨i, w⟩ := e
      by_cases hi : i = k
      · simp [lookup_cons, hi]
      · have hk : ¬ k = i := fun h => hi h.symm
        simp only [lookup_cons, if_neg hi, ih, List.map_cons, List.mem_cons, hk, false_or]

theorem get?_of_mem {d : Dict κ β} {k : κ} {v : β} (h : (k, v) ∈ d.entries) : d.get? k = some v := by
  obtain ⟨es, hn⟩ := d
  simp only [get?]
  simp only at h
  induction es with
  | nil => cases h
  | cons e es ih =>
      obtain ⟨i, w⟩ := e
      rw [List.map_cons, List.nodup_cons] at hn
      by_cases hi : i = k
      · subst hi
        rcases List.mem_cons.mp h with he | he
        · cases he
          simp [lookup_cons]
        · exact absurd (List.mem_map.mpr ⟨_, he, rfl⟩) hn.1
      · rcases List.mem_cons.mp h with he | he
        · cases he
          exact absurd rfl hi
        · simp only [lookup_cons, if_neg hi]
          exact ih hn.2 he

theorem get?_update_self (d : Dict κ β) (k : κ) (b : β) (f : β → β) :
    (d.update k b f).get? k = some (f ((d.get? k).getD b)) := by
  obtain ⟨es, hn⟩ := d
  simp only [get?, update]
  clear hn
  induction es with
  | nil => simp [lookup_nil, updateEntries_nil, lookup_cons]
  | cons e es ih =>
      obtain ⟨i, w⟩ := e
      by_cases hi : i = k
      · simp [lookup_cons, updateEntries_cons, hi]
      · simp only [updateEntries_cons, if_neg hi, lookup_cons, ih]

theorem get?_update_ne (d : Dict κ β) {k j : κ} (b : β) (f : β → β) (h : j ≠ k) :
    (d.update k b f).get? j = d.get? j := by
  obtain ⟨es, hn⟩ := d
  simp only [get?, update]
  clear hn
  induction es with
  | nil => simp [lookup_nil, updateEntries_nil, lookup_cons, h.symm]
  | cons e es ih =>
      obtain ⟨i, w⟩ := e
      by_cases hi : i = k
      · subst hi
        simp [lookup_cons, updateEntries_cons, h.symm]
      · simp only [updateEntries_cons, if_neg hi, lookup_cons, ih]

theorem get?_erase_self (d : Dict κ β) (k : κ) : (d.erase k).get? k = none := by
  obtain ⟨es, hn⟩ := d
  rw [get?_eq_none]
  change k ∉ (eraseEntries k es).map Prod.fst
  induction es with
  | nil => exact List.not_mem_nil
  | cons e es ih =>
      obtain ⟨i, w⟩ := e
      rw [List.map_cons, List.nodup_cons] at hn
      by_cases hi : i = k
      · simp only [eraseEntries_cons, if_pos hi]
        rw [← hi]
        exact hn.1
      · simp only [eraseEntries_cons, if_neg hi, List.map_cons, List.mem_cons, not_or]
        exact ⟨fun h => hi h.symm, ih hn.2⟩

theorem get?_erase_ne (d : Dict κ β) {k j : κ} (h : j ≠ k) : (d.erase k).get? j = d.get? j := by
  obtain ⟨es, hn⟩ := d
  simp only [get?, erase]
  clear hn
  induction es with
  | nil => rfl
  | cons e es ih =>
      obtain ⟨i, w⟩ := e
      by_cases hi : i = k
      · subst hi
        simp [lookup_cons, eraseEntries_cons, h.symm]
      · simp only [eraseEntries_cons, if_neg hi, lookup_cons, ih]

/-- An entry after an update is an old one or the updated one. -/
theorem mem_entries_update {d : Dict κ β} {k : κ} {b : β} {f : β → β} {e : κ × β}
    (h : e ∈ (d.update k b f).entries) :
    e ∈ d.entries ∨ e = (k, f ((d.get? k).getD b)) := by
  obtain ⟨j, v⟩ := e
  have hv := get?_of_mem h
  by_cases hj : j = k
  · subst hj
    rw [get?_update_self, Option.some.injEq] at hv
    exact .inr (by rw [hv])
  · rw [get?_update_ne _ _ _ hj] at hv
    exact .inl (mem_of_get? hv)

theorem mem_entries_erase {d : Dict κ β} {k : κ} {e : κ × β} (h : e ∈ (d.erase k).entries) :
    e ∈ d.entries := (eraseEntries_sublist k _).subset h

def mapValues {γ : Type} (d : Dict κ β) (f : κ → β → γ) : Dict κ γ where
  entries := d.entries.map fun e => (e.1, f e.1 e.2)
  nodup := by
    rw [List.map_map]
    exact d.nodup

def filter (d : Dict κ β) (p : κ → β → Bool) : Dict κ β where
  entries := d.entries.filter fun e => p e.1 e.2
  nodup := d.nodup.sublist (List.filter_sublist.map _)

theorem get?_eq_some {d : Dict κ β} {k : κ} {v : β} : d.get? k = some v ↔ (k, v) ∈ d.entries :=
  ⟨mem_of_get?, get?_of_mem⟩

theorem get?_mapValues {γ : Type} (d : Dict κ β) (f : κ → β → γ) (k : κ) :
    (d.mapValues f).get? k = (d.get? k).map (f k) := by
  ext v
  rw [get?_eq_some, Option.map_eq_some_iff]
  constructor
  · intro h
    obtain ⟨e, he, heq⟩ := List.mem_map.mp h
    cases heq
    exact ⟨e.2, get?_of_mem he, rfl⟩
  · rintro ⟨w, hw, rfl⟩
    exact List.mem_map.mpr ⟨(k, w), mem_of_get? hw, rfl⟩

theorem get?_filter (d : Dict κ β) (p : κ → β → Bool) (k : κ) :
    (d.filter p).get? k = (d.get? k).filter (p k) := by
  ext v
  rw [get?_eq_some, Option.filter_eq_some_iff, get?_eq_some]
  exact List.mem_filter

/-- Updating a new key appends it. -/
theorem entries_update_of_none {d : Dict κ β} {k : κ} (b : β) (f : β → β) (h : d.get? k = none) :
    (d.update k b f).entries = d.entries ++ [(k, f b)] := by
  obtain ⟨es, hn⟩ := d
  change lookup k es = none at h
  change updateEntries k b f es = es ++ [(k, f b)]
  clear hn
  induction es with
  | nil => rfl
  | cons e es ih =>
      obtain ⟨i, w⟩ := e
      by_cases hi : i = k
      · rw [lookup_cons, if_pos hi] at h
        cases h
      · rw [lookup_cons, if_neg hi] at h
        rw [updateEntries_cons, if_neg hi, ih h, List.cons_append]

/-- Summing over the entries with certain keys is summing over these keys. -/
theorem sum_filter_keys {M : Type} [AddCommMonoid M] (d : Dict κ β) (w : κ → β → M) {ks : List κ}
    {p : κ → Bool} (hp : ∀ k, p k = true ↔ k ∈ ks) (hks : ks.Nodup) (hmem : ∀ k ∈ ks, k ∈ d.keys) :
    ((d.entries.filter fun e => p e.1).map fun e => w e.1 e.2).sum =
      (ks.map fun k => ((d.get? k).map (w k)).getD 0).sum := by
  have hperm : ((d.entries.filter fun e => p e.1).map Prod.fst).Perm ks := by
    refine (List.perm_ext_iff_of_nodup (d.nodup.sublist (List.filter_sublist.map _)) hks).mpr ?_
    intro k
    simp only [List.mem_map, List.mem_filter]
    constructor
    · rintro ⟨e, ⟨-, he⟩, rfl⟩
      exact (hp e.1).mp he
    · intro hk
      obtain ⟨e, he, hek⟩ := List.mem_map.mp (hmem k hk)
      exact ⟨e, ⟨he, (hp e.1).mpr (hek ▸ hk)⟩, hek⟩
  rw [← (hperm.map fun k => ((d.get? k).map (w k)).getD 0).sum_eq, List.map_map]
  congr 1
  refine List.map_congr_left ?_
  intro e he
  have hget := get?_of_mem (List.mem_filter.mp he).1
  simp only [Function.comp_apply, hget, Option.map_some, Option.getD_some]

/-! ## Weights -/

/-- The sum of a measure over the entries. -/
def weight (w : κ → β → Nat) (d : Dict κ β) : Nat := (d.entries.map fun e => w e.1 e.2).sum

section Weight

variable {w : κ → β → Nat}

/-- The weight changes by what the updated entry changes; a new entry starts from nothing. -/
theorem weight_update (d : Dict κ β) (k : κ) {b : β} (f : β → β) (hb : w k b = 0) :
    (d.update k b f).weight w + w k ((d.get? k).getD b) =
      d.weight w + w k (f ((d.get? k).getD b)) := by
  obtain ⟨es, hn⟩ := d
  simp only [get?, update, weight]
  clear hn
  induction es with
  | nil => simp [lookup_nil, updateEntries_nil, hb]
  | cons e es ih =>
      obtain ⟨i, v⟩ := e
      by_cases hi : i = k
      · subst hi
        simp only [lookup_cons, updateEntries_cons, if_true, List.map_cons, List.sum_cons, Option.getD_some]
        omega
      · simp only [lookup_cons, updateEntries_cons, if_neg hi, List.map_cons, List.sum_cons]
        omega

theorem weight_erase (d : Dict κ β) (k : κ) {b : β} (hb : w k b = 0) :
    (d.erase k).weight w + w k ((d.get? k).getD b) = d.weight w := by
  obtain ⟨es, hn⟩ := d
  simp only [get?, erase, weight]
  clear hn
  induction es with
  | nil => simp [lookup_nil, eraseEntries_nil, hb]
  | cons e es ih =>
      obtain ⟨i, v⟩ := e
      by_cases hi : i = k
      · subst hi
        simp only [lookup_cons, eraseEntries_cons, if_true, List.map_cons, List.sum_cons, Option.getD_some]
        omega
      · simp only [lookup_cons, eraseEntries_cons, if_neg hi, List.map_cons, List.sum_cons]
        omega

theorem weight_erase_of_get? (d : Dict κ β) {k : κ} {v : β} (h : d.get? k = some v) :
    (d.erase k).weight w + w k v = d.weight w := by
  obtain ⟨es, hn⟩ := d
  simp only [get?, erase, weight] at h ⊢
  clear hn
  induction es with
  | nil => cases h
  | cons e es ih =>
      obtain ⟨i, u⟩ := e
      rw [lookup_cons] at h
      rw [eraseEntries_cons]
      split at h
      · next hi =>
          cases h
          cases hi
          rw [if_pos rfl, List.map_cons, List.sum_cons, Nat.add_comm]
      · next hi =>
          rw [if_neg hi, List.map_cons, List.sum_cons, List.map_cons, List.sum_cons]
          have hrest := ih h
          omega

omit [DecidableEq κ] in
theorem weight_one (d : Dict κ β) : d.weight (fun _ _ => 1) = d.entries.length := by
  rw [weight, List.map_const', List.sum_replicate, smul_eq_mul, mul_one]

omit [DecidableEq κ] in
theorem weight_empty : (empty : Dict κ β).weight w = 0 := rfl

omit [DecidableEq κ] in
theorem weight_eq_zero {d : Dict κ β} : d.weight w = 0 ↔ ∀ e ∈ d.entries, w e.1 e.2 = 0 := by
  simp only [weight, List.sum_eq_zero_iff, List.mem_map]
  exact ⟨fun h e he => h _ ⟨e, he, rfl⟩, fun h x ⟨e, he, hx⟩ => hx ▸ h e he⟩

omit [DecidableEq κ] in
theorem le_weight {d : Dict κ β} {e : κ × β} (h : e ∈ d.entries) : w e.1 e.2 ≤ d.weight w :=
  List.le_sum_of_mem (List.mem_map_of_mem h)

end Weight

end Dict

end Lib
