/-
# `Lib.Table` — rows with an identity column, a unique key and a check

A table of a relational store as the statements of a program see it: each row has
a key that no other row has, an identity that is handed out once, and satisfies
the check of its table.  The three are fields, so a statement that would break
one of them has no result: `insert?`, `modify?` and `upsert?` return `none`, which
stands for the constraint violation.

A row is found by its key.  Each statement has one lemma on what it does to
`find?`, and the results above are read off these.
-/
import UnifiedNamespace.Lib.Dict

namespace Lib

structure Table (κ β : Type) [DecidableEq κ] (check : κ → β → Bool) where
  rows : Dict κ (Nat × β)
  next : Nat
  below : ∀ e ∈ rows.entries, e.2.1 < next
  ids : (rows.entries.map fun e => e.2.1).Nodup
  checked : ∀ e ∈ rows.entries, check e.1 e.2.2 = true

namespace Table

variable {κ β : Type} [DecidableEq κ] {check : κ → β → Bool}

/-- A new table. -/
def empty : Table κ β check where
  rows := .empty
  next := 0
  below := by
    intro e he
    cases he
  ids := List.nodup_nil
  checked := by
    intro e he
    cases he

/-- The row with a key. -/
def find? (t : Table κ β check) (k : κ) : Option (Nat × β) := t.rows.get? k

theorem check_of_find? {t : Table κ β check} {k : κ} {r : Nat × β} (h : t.find? k = some r) :
    check k r.2 = true := t.checked _ (Dict.mem_of_get? h)

/-- An identity belongs to one key. -/
theorem key_of_id {t : Table κ β check} {k j : κ} {r q : Nat × β} (hr : t.find? k = some r)
    (hq : t.find? j = some q) (h : r.1 = q.1) : k = j := by
  have heq := List.inj_on_of_nodup_map t.ids (Dict.mem_of_get? hr) (Dict.mem_of_get? hq) h
  exact congrArg Prod.fst heq

/-! ## Rows changed in place -/

/-- New contents for the rows, key and identity kept. -/
def mapRows (t : Table κ β check) (f : κ → Nat × β → β)
    (hf : ∀ e ∈ t.rows.entries, check e.1 (f e.1 e.2) = true) : Table κ β check where
  rows := t.rows.mapValues fun k r => (r.1, f k r)
  next := t.next
  below := by
    intro e he
    obtain ⟨e', he', rfl⟩ := List.mem_map.mp he
    exact t.below e' he'
  ids := by
    change ((t.rows.entries.map _).map _).Nodup
    rw [List.map_map]
    exact t.ids
  checked := by
    intro e he
    obtain ⟨e', he', rfl⟩ := List.mem_map.mp he
    exact hf e' he'

theorem find?_mapRows {t : Table κ β check} {f : κ → Nat × β → β}
    {hf : ∀ e ∈ t.rows.entries, check e.1 (f e.1 e.2) = true} (k : κ) :
    (t.mapRows f hf).find? k = (t.find? k).map fun r => (r.1, f k r) :=
  Dict.get?_mapValues _ _ _

/-- `UPDATE` of columns that the check does not read. -/
def modify (t : Table κ β check) (p : κ → Nat × β → Bool) (f : β → β)
    (hf : ∀ k b, check k (f b) = check k b) : Table κ β check :=
  t.mapRows (fun k r => if p k r then f r.2 else r.2) (by
    intro e he
    split
    · rw [hf]
      exact t.checked e he
    · exact t.checked e he)

theorem find?_modify {t : Table κ β check} {p : κ → Nat × β → Bool} {f : β → β}
    {hf : ∀ k b, check k (f b) = check k b} (k : κ) :
    (t.modify p f hf).find? k = (t.find? k).map fun r => (r.1, if p k r then f r.2 else r.2) :=
  find?_mapRows k

/-- `UPDATE`. -/
def modify? (t : Table κ β check) (p : κ → Nat × β → Bool) (f : β → β) : Option (Table κ β check) :=
  if h : ∀ e ∈ t.rows.entries, check e.1 (if p e.1 e.2 then f e.2.2 else e.2.2) = true then
    some (t.mapRows (fun k r => if p k r then f r.2 else r.2) h)
  else none

theorem find?_modify? {t t' : Table κ β check} {p : κ → Nat × β → Bool} {f : β → β}
    (h : t.modify? p f = some t') (k : κ) :
    t'.find? k = (t.find? k).map fun r => (r.1, if p k r then f r.2 else r.2) := by
  unfold modify? at h
  split at h
  · obtain rfl := Option.some.inj h
    exact find?_mapRows k
  · cases h

/-- `DELETE` of the rows that are not kept. -/
def filter (t : Table κ β check) (keep : κ → Nat × β → Bool) : Table κ β check where
  rows := t.rows.filter keep
  next := t.next
  below := by
    intro e he
    exact t.below e (List.mem_filter.mp he).1
  ids := t.ids.sublist (List.filter_sublist.map _)
  checked := by
    intro e he
    exact t.checked e (List.mem_filter.mp he).1

theorem find?_filter {t : Table κ β check} {keep : κ → Nat × β → Bool} (k : κ) :
    (t.filter keep).find? k = (t.find? k).filter (keep k) :=
  Dict.get?_filter _ _ _

/-! ## New rows -/

/-- `INSERT`. -/
def insert? (t : Table κ β check) (k : κ) (b : β) : Option (Table κ β check) :=
  if h : t.find? k = none ∧ check k b = true then
    some
      { rows := t.rows.update k (t.next, b) id
        next := t.next + 1
        below := by
          intro e he
          rw [Dict.entries_update_of_none _ _ h.1] at he
          rcases List.mem_append.mp he with he | he
          · exact (t.below e he).trans (Nat.lt_succ_self _)
          · rw [List.mem_singleton] at he
            subst he
            exact Nat.lt_succ_self _
        ids := by
          rw [Dict.entries_update_of_none _ _ h.1, List.map_append, List.nodup_append]
          refine ⟨t.ids, List.nodup_singleton _, ?_⟩
          rintro i hi j hj rfl
          obtain ⟨e, he, rfl⟩ := List.mem_map.mp hi
          rw [List.map_singleton, List.mem_singleton] at hj
          exact absurd hj (Nat.ne_of_lt (t.below e he))
        checked := by
          intro e he
          rw [Dict.entries_update_of_none _ _ h.1] at he
          rcases List.mem_append.mp he with he | he
          · exact t.checked e he
          · rw [List.mem_singleton] at he
            subst he
            exact h.2 }
  else none

theorem find?_insert? {t t' : Table κ β check} {k : κ} {b : β} (h : t.insert? k b = some t') :
    t.find? k = none ∧ t'.find? k = some (t.next, b) ∧ ∀ j, j ≠ k → t'.find? j = t.find? j := by
  unfold insert? at h
  split at h
  · rename_i hok
    obtain rfl := Option.some.inj h
    refine ⟨hok.1, ?_, ?_⟩
    · have hself := Dict.get?_update_self t.rows k (t.next, b) id
      rw [show t.rows.get? k = none from hok.1] at hself
      exact hself
    · intro j hj
      exact Dict.get?_update_ne _ _ _ hj
  · cases h

/-- `INSERT` of several rows. -/
def insertAll? (t : Table κ β check) : List (κ × β) → Option (Table κ β check)
  | [] => some t
  | row :: rows => (t.insert? row.1 row.2).bind fun t' => t'.insertAll? rows

/-- `INSERT … ON CONFLICT (key) DO UPDATE`: the row proposed is checked first. -/
def upsert? (t : Table κ β check) (k : κ) (b : β) (merge : β → β) : Option (Table κ β check) :=
  match t.find? k with
  | none => t.insert? k b
  | some _ => if check k b then t.modify? (fun j _ => decide (j = k)) merge else none

/-- The row of the key is the merged one, or the one proposed. -/
theorem find?_upsert? {t t' : Table κ β check} {k : κ} {b : β} {merge : β → β}
    (h : t.upsert? k b merge = some t') :
    (∃ i, t'.find? k = some (i, ((t.find? k).map fun r => merge r.2).getD b) ∧
        ∀ r, t.find? k = some r → r.1 = i) ∧
      check k b = true ∧ ∀ j, j ≠ k → t'.find? j = t.find? j := by
  unfold upsert? at h
  split at h
  · rename_i hnone
    obtain ⟨-, hk, hne⟩ := find?_insert? h
    refine ⟨⟨t.next, ?_, ?_⟩, check_of_find? hk, hne⟩
    · rw [hk, hnone]
      rfl
    · intro r hr
      rw [hnone] at hr
      cases hr
  · rename_i r hsome
    split at h
    · rename_i hcheck
      refine ⟨⟨r.1, ?_, ?_⟩, hcheck, ?_⟩
      · rw [find?_modify? h, hsome]
        simp
      · intro q hq
        rw [hsome] at hq
        rw [Option.some.inj hq]
      · intro j hj
        rw [find?_modify? h]
        simp [hj]
    · cases h

end Table

end Lib
