/-
# `Historian.Flatten` — one metric row for each leaf

`flatten_payload_to_metrics` goes through a payload in the order of the document.  `flatten_exact`:
it raises where the nesting takes more frames than there are, or an integer is too large for a
float, and otherwise the rows are those of the leaves, but for nulls, each with its dotted path
as its name.  Two leaves have one name only when a key contains a dot.
-/
import UnifiedNamespace.Historian.Metrics
import UnifiedNamespace.Lib.Effect
import UnifiedNamespace.Python.JsonRoundTrip

namespace Uns.Historian

open Py Lib

/-- `list(...)` of a generator: its first exception is raised. -/
def collect (ys : Yields) : Except MetricRaised (List MetricRow) := ys.mapM id

def flattenPayloadToMetrics (frames : Nat) (payload : Json) (start : Str) : Except MetricRaised (List MetricRow) :=
  collect (iterPayloadMetrics frames payload start none)

/-! ## The leaves of a payload -/

mutual

/-- The scalars of a payload, nulls among them, with the keys and indices on the way. -/
def leaves : Json → List (List Str × Json)
  | .obj fields => memberLeaves fields
  | .arr xs => elementLeaves 0 xs
  | .null => [([], .null)]
  | .bool b => [([], .bool b)]
  | .int n => [([], .int n)]
  | .float x => [([], .float x)]
  | .str s => [([], .str s)]

def memberLeaves : List (Str × Json) → List (List Str × Json)
  | [] => []
  | (k, v) :: es => (leaves v).map (fun l => (k :: l.1, l.2)) ++ memberLeaves es

def elementLeaves : Nat → List Json → List (List Str × Json)
  | _, [] => []
  | i, x :: xs => (leaves x).map (fun l => (decimal i :: l.1, l.2)) ++ elementLeaves (i + 1) xs

end

mutual

/-- How many containers are inside one another below the outermost. -/
def depth : Json → Nat
  | .obj fields => memberDepth fields
  | .arr xs => elementDepth xs
  | _ => 0

def memberDepth : List (Str × Json) → Nat
  | [] => 0
  | (_, v) :: es => max (depth v + 1) (memberDepth es)

def elementDepth : List Json → Nat
  | [] => 0
  | x :: xs => max (depth x + 1) (elementDepth xs)

end

/-- `".".join(path)`. -/
def dottedPath (path : List Str) : Str := [46].intercalate path

/-- What a row says of a scalar: a number as the nearest double, the others as text. -/
def Carries (row : MetricRow) : Json → Prop
  | .bool b => row.valueDouble = none ∧ row.valueText = some (lit (if b then "true" else "false"))
  | .int n => ∃ x, floatOfInt n = some x ∧ row.valueDouble = some x ∧ row.valueText = none
  | .float x => row.valueDouble = some x ∧ row.valueText = none
  | .str s => row.valueDouble = none ∧ row.valueText = some s
  | _ => False

def IsNull : Json → Bool
  | .null => true
  | _ => false

/-- The leaves that get a row. -/
def valueLeaves (payload : Json) : List (List Str × Json) := (leaves payload).filter fun l => !IsNull l.2

/-- No integer is too large for a float. -/
def FloatsFit (payload : Json) : Prop := ∀ l ∈ leaves payload, ∀ n, l.2 = .int n → (floatOfInt n).isSome

/-! ## What is yielded -/

/-- The rows of leaves, under a path. -/
def yieldsOf (path : Str) (ls : List (List Str × Json)) : Yields :=
  ls.flatMap fun l => scalarToMetric (l.1.foldl dotted path) l.2

theorem yieldsOf_append (path : Str) (ls ms : List (List Str × Json)) :
    yieldsOf path (ls ++ ms) = yieldsOf path ls ++ yieldsOf path ms := List.flatMap_append

theorem yieldsOf_under (path key : Str) (ls : List (List Str × Json)) :
    yieldsOf path (ls.map fun l => (key :: l.1, l.2)) = yieldsOf (dotted path key) ls := List.flatMap_map _ _ ls

theorem yieldsOf_members {f : Str × Json → Yields} {path : Str} {fields : List (Str × Json)}
    (h : ∀ e ∈ fields, f e = yieldsOf (dotted path e.1) (leaves e.2)) :
    fields.flatMap f = yieldsOf path (memberLeaves fields) := by
  induction fields with
  | nil => rfl
  | cons e es ih =>
      obtain ⟨he, hes⟩ := List.forall_mem_cons.mp h
      rw [List.flatMap_cons, he, ih hes, memberLeaves, yieldsOf_append, yieldsOf_under]

theorem yieldsOf_elements {f : Json × Nat → Yields} {path : Str} {xs : List Json} {i : Nat}
    (h : ∀ e ∈ xs.zipIdx i, f e = yieldsOf (dotted path (decimal e.2)) (leaves e.1)) :
    (xs.zipIdx i).flatMap f = yieldsOf path (elementLeaves i xs) := by
  induction xs generalizing i with
  | nil => rfl
  | cons x xs ih =>
      rw [List.zipIdx_cons] at h ⊢
      obtain ⟨hx, hxs⟩ := List.forall_mem_cons.mp h
      rw [List.flatMap_cons, hx, ih hxs, elementLeaves, yieldsOf_append, yieldsOf_under]

theorem depth_lt_of_member {fields : List (Str × Json)} {e : Str × Json} (h : e ∈ fields) :
    depth e.2 < memberDepth fields := by
  induction fields with
  | nil => cases h
  | cons e' es ih =>
      rw [memberDepth]
      rcases List.mem_cons.mp h with rfl | h
      · exact lt_of_lt_of_le (Nat.lt_succ_self _) (le_max_left _ _)
      · exact lt_of_lt_of_le (ih h) (le_max_right _ _)

theorem depth_lt_of_element {xs : List Json} {x : Json} (h : x ∈ xs) : depth x < elementDepth xs := by
  induction xs with
  | nil => cases h
  | cons x' xs ih =>
      rw [elementDepth]
      rcases List.mem_cons.mp h with rfl | h
      · exact lt_of_lt_of_le (Nat.lt_succ_self _) (le_max_left _ _)
      · exact lt_of_lt_of_le (ih h) (le_max_right _ _)

/-- Where the frames suffice, the leaves are yielded in order. -/
theorem iterValue_eq {frames : Nat} : ∀ {v : Json} {path : Str}, depth v < frames →
    iterValue frames v path = yieldsOf path (leaves v) := by
  induction frames with
  | zero => exact fun h => absurd h (Nat.not_lt_zero _)
  | succ frames ih =>
      intro v path h
      have hscalar : ∀ w, yieldsOf path [([], w)] = scalarToMetric path w := fun w => List.append_nil _
      cases v with
      | obj fields =>
          rw [iterValue, leaves]
          refine yieldsOf_members fun e he => ih ?_
          exact lt_of_lt_of_le (depth_lt_of_member he) (Nat.lt_succ_iff.mp h)
      | arr xs =>
          rw [iterValue, leaves]
          refine yieldsOf_elements fun e he => ih ?_
          exact lt_of_lt_of_le (depth_lt_of_element (List.fst_mem_of_mem_zipIdx he)) (Nat.lt_succ_iff.mp h)
      | null => exact (hscalar _).symm
      | bool b => exact (hscalar _).symm
      | int n => exact (hscalar _).symm
      | float x => exact (hscalar _).symm
      | str s => exact (hscalar _).symm

theorem exists_member {fields : List (Str × Json)} {n : Nat} (h : n < memberDepth fields) :
    ∃ e ∈ fields, n ≤ depth e.2 := by
  induction fields with
  | nil => exact absurd h (Nat.not_lt_zero _)
  | cons e es ih =>
      rcases lt_max_iff.mp h with h | h
      · exact ⟨e, List.mem_cons_self, Nat.lt_succ_iff.mp h⟩
      · obtain ⟨e', he', hn⟩ := ih h
        exact ⟨e', List.mem_cons_of_mem _ he', hn⟩

theorem exists_element {xs : List Json} {n : Nat} (h : n < elementDepth xs) : ∃ x ∈ xs, n ≤ depth x := by
  induction xs with
  | nil => exact absurd h (Nat.not_lt_zero _)
  | cons x xs ih =>
      rcases lt_max_iff.mp h with h | h
      · exact ⟨x, List.mem_cons_self, Nat.lt_succ_iff.mp h⟩
      · obtain ⟨x', hx', hn⟩ := ih h
        exact ⟨x', List.mem_cons_of_mem _ hx', hn⟩

/-- Where the frames do not suffice, a `RecursionError` is yielded. -/
theorem iterValue_error {frames : Nat} : ∀ {v : Json} {path : Str}, frames ≤ depth v →
    .error .recursionError ∈ iterValue frames v path := by
  induction frames with
  | zero => exact fun _ => List.mem_singleton.mpr rfl
  | succ frames ih =>
      intro v path h
      cases v with
      | obj fields =>
          obtain ⟨e, he, hdepth⟩ := exists_member h
          exact List.mem_flatMap.mpr ⟨e, he, ih hdepth⟩
      | arr xs =>
          obtain ⟨x, hx, hdepth⟩ := exists_element h
          obtain ⟨i, hi, rfl⟩ := List.getElem_of_mem hx
          refine List.mem_flatMap.mpr ⟨(xs[i], i), ?_, ih hdepth⟩
          exact List.mk_mem_zipIdx_iff_getElem?.mpr (List.getElem?_eq_getElem hi)
      | null => exact absurd h (Nat.not_succ_le_zero _)
      | bool b => exact absurd h (Nat.not_succ_le_zero _)
      | int n => exact absurd h (Nat.not_succ_le_zero _)
      | float x => exact absurd h (Nat.not_succ_le_zero _)
      | str s => exact absurd h (Nat.not_succ_le_zero _)

/-- A dotted path is built key by key. -/
theorem foldl_dotted (k : Str) (ks : List Str) : ks.foldl dotted k = dottedPath (k :: ks) := by
  induction ks generalizing k with
  | nil => exact (List.intercalate_singleton).symm
  | cons k' ks ih =>
      rw [List.foldl_cons, ih, dottedPath, dottedPath]
      cases ks with
      | nil => simp [List.intercalate, dotted]
      | cons k'' ks => simp [List.intercalate, dotted]

/-- The rows of an object: each leaf under its dotted path. -/
theorem iterMetrics_eq {frames : Nat} {fields : List (Str × Json)} (h : depth (.obj fields) ≤ frames) :
    iterMetrics frames (.obj fields) [] =
      (leaves (.obj fields)).flatMap fun l => scalarToMetric (dottedPath l.1) l.2 := by
  rw [iterMetrics, leaves]
  rw [depth] at h
  have hmember : ∀ e ∈ fields, iterValue frames e.2 (rooted [] e.1) =
      (leaves e.2).flatMap fun l => scalarToMetric (dottedPath (e.1 :: l.1)) l.2 := by
    intro e he
    rw [iterValue_eq (lt_of_lt_of_le (depth_lt_of_member he) h), yieldsOf]
    exact List.flatMap_congr fun l _ => by rw [foldl_dotted]; rfl
  clear h
  induction fields with
  | nil => rfl
  | cons e es ih =>
      obtain ⟨he, hes⟩ := List.forall_mem_cons.mp hmember
      rw [List.flatMap_cons, he, ih hes, memberLeaves, List.flatMap_append, List.flatMap_map]

/-! ## The rows -/

theorem mapM_id_ok {ys : Yields} {rows : List MetricRow} : ys.mapM id = .ok rows ↔ ys = rows.map .ok := by
  rw [mapM_eq_ok]
  induction ys generalizing rows with
  | nil =>
      cases rows with
      | nil => exact iff_of_true .nil rfl
      | cons row rows => exact iff_of_false (fun h => by cases h) fun h => by cases h
  | cons y ys ih =>
      cases rows with
      | nil => exact iff_of_false (fun h => by cases h) fun h => by cases h
      | cons row rows => rw [List.forall₂_cons, ih, List.map_cons, List.cons.injEq, id]

/-- A leaf is no row for a null, an error for an integer that is too large, and a row that carries it else. -/
theorem scalarToMetric_cases (path : Str) (v : Json) (hscalar : ∀ fields, v ≠ .obj fields) (harray : ∀ xs, v ≠ .arr xs) :
    (v = .null ∧ scalarToMetric path v = []) ∨
    (∃ n, v = .int n ∧ floatOfInt n = none ∧ scalarToMetric path v = [.error .overflowError]) ∨
    (IsNull v = false ∧ (∀ n, v = .int n → (floatOfInt n).isSome) ∧
      ∃ row, scalarToMetric path v = [.ok row] ∧ row.name = path ∧ Carries row v) := by
  cases v with
  | obj fields => exact absurd rfl (hscalar fields)
  | arr xs => exact absurd rfl (harray xs)
  | null => exact .inl ⟨rfl, rfl⟩
  | bool b => exact .inr (.inr ⟨rfl, fun n h => (by cases h), _, rfl, rfl, rfl, rfl⟩)
  | float x => exact .inr (.inr ⟨rfl, fun n h => (by cases h), _, rfl, rfl, rfl, rfl⟩)
  | str s => exact .inr (.inr ⟨rfl, fun n h => (by cases h), _, rfl, rfl, rfl, rfl⟩)
  | int n =>
      cases hfloat : floatOfInt n with
      | none => exact .inr (.inl ⟨n, rfl, hfloat, by rw [scalarToMetric, hfloat]⟩)
      | some x =>
          refine .inr (.inr ⟨rfl, fun m h => ?_, ⟨path, some x, none⟩, by rw [scalarToMetric, hfloat], rfl, x, hfloat, rfl,
            rfl⟩)
          cases h
          rw [hfloat]
          rfl

def IsScalar (v : Json) : Prop := (∀ fields, v ≠ .obj fields) ∧ ∀ xs, v ≠ .arr xs

mutual

theorem leaves_scalar : ∀ v : Json, ∀ l ∈ leaves v, IsScalar l.2
  | .obj fields => by
      rw [leaves]
      exact memberLeaves_scalar fields
  | .arr xs => by
      rw [leaves]
      exact elementLeaves_scalar 0 xs
  | .null => List.forall_mem_singleton.mpr ⟨fun _ h => (by cases h), fun _ h => by cases h⟩
  | .bool _ => List.forall_mem_singleton.mpr ⟨fun _ h => (by cases h), fun _ h => by cases h⟩
  | .int _ => List.forall_mem_singleton.mpr ⟨fun _ h => (by cases h), fun _ h => by cases h⟩
  | .float _ => List.forall_mem_singleton.mpr ⟨fun _ h => (by cases h), fun _ h => by cases h⟩
  | .str _ => List.forall_mem_singleton.mpr ⟨fun _ h => (by cases h), fun _ h => by cases h⟩

theorem memberLeaves_scalar : ∀ fields : List (Str × Json), ∀ l ∈ memberLeaves fields, IsScalar l.2
  | [] => fun _ h => by cases h
  | (k, v) :: es => by
      intro l hl
      rw [memberLeaves] at hl
      rcases List.mem_append.mp hl with hl | hl
      · obtain ⟨l', hl', rfl⟩ := List.mem_map.mp hl
        exact leaves_scalar v l' hl'
      · exact memberLeaves_scalar es l hl

theorem elementLeaves_scalar : ∀ (i : Nat) (xs : List Json), ∀ l ∈ elementLeaves i xs, IsScalar l.2
  | _, [] => fun _ h => by cases h
  | i, x :: xs => by
      intro l hl
      rw [elementLeaves] at hl
      rcases List.mem_append.mp hl with hl | hl
      · obtain ⟨l', hl', rfl⟩ := List.mem_map.mp hl
        exact leaves_scalar x l' hl'
      · exact elementLeaves_scalar (i + 1) xs l hl

end

/-- What a row has to do with its leaf. -/
def IsRow (l : List Str × Json) (row : MetricRow) : Prop := row.name = dottedPath l.1 ∧ Carries row l.2

section

variable {ls : List (List Str × Json)}

/-- The leaves yield rows and nothing else exactly when the integers among them fit, and then one row each. -/
theorem rows_of_leaves (hscalar : ∀ l ∈ ls, IsScalar l.2) :
    ((∃ rows : List MetricRow, ls.flatMap (fun l => scalarToMetric (dottedPath l.1) l.2) = rows.map .ok) ↔
      ∀ l ∈ ls, ∀ n, l.2 = .int n → (floatOfInt n).isSome) ∧
    ∀ rows : List MetricRow, ls.flatMap (fun l => scalarToMetric (dottedPath l.1) l.2) = rows.map .ok →
      List.Forall₂ IsRow (ls.filter fun l => !IsNull l.2) rows := by
  induction ls with
  | nil =>
      refine ⟨iff_of_true ⟨[], rfl⟩ fun l hl => absurd hl List.not_mem_nil, fun rows h => ?_⟩
      cases rows with
      | nil => exact .nil
      | cons row rows => cases h
  | cons l ls ih =>
      obtain ⟨hl, hls⟩ := List.forall_mem_cons.mp hscalar
      obtain ⟨hiff, hrows⟩ := ih hls
      rw [List.flatMap_cons, List.forall_mem_cons, ← hiff]
      rcases scalarToMetric_cases (dottedPath l.1) l.2 hl.1 hl.2 with ⟨hnull, hyield⟩ | ⟨n, hint, hfloat, hyield⟩ |
        ⟨hnull, hfits, row, hyield, hname, hcarries⟩
      · -- a null yields nothing
        rw [hyield, List.nil_append, List.filter_cons_of_neg (by rw [hnull]; decide)]
        refine ⟨⟨fun h => ⟨fun n hn => ?_, h⟩, fun h => h.2⟩, hrows⟩
        rw [hnull] at hn
        cases hn
      · -- an integer that is too large yields an exception
        rw [hyield]
        refine ⟨iff_of_false ?_ fun h => ?_, fun rows h => ?_⟩
        · rintro ⟨rows, h⟩
          cases rows with
          | nil => cases h
          | cons row rows => cases (List.cons.inj h).1
        · have hsome := h.1 n hint
          rw [hfloat] at hsome
          cases hsome
        · cases rows with
          | nil => cases h
          | cons row rows => cases (List.cons.inj h).1
      · rw [hyield, List.filter_cons_of_pos (by rw [hnull]; rfl)]
        refine ⟨⟨?_, ?_⟩, fun rows h => ?_⟩
        · rintro ⟨rows, h⟩
          cases rows with
          | nil => cases h
          | cons row' rows => exact ⟨hfits, rows, (List.cons.inj h).2⟩
        · rintro ⟨-, rows, h⟩
          exact ⟨row :: rows, by rw [List.singleton_append, h]; rfl⟩
        · cases rows with
          | nil => cases h
          | cons row' rows =>
              obtain ⟨hhead, htail⟩ := List.cons.inj h
              cases hhead
              exact .cons ⟨hname, hcarries⟩ (hrows rows htail)

end

/-! ## The names -/

/-- Paths that begin with different keys differ. -/
theorem disjoint_heads {ls ms : List (List Str × Json)} {key : Str}
    (h : ∀ m ∈ ms.map Prod.fst, m.head? ≠ some key) :
    List.Disjoint ((ls.map fun l => (key :: l.1, l.2)).map Prod.fst) (ms.map Prod.fst) := by
  intro path hleft hright
  obtain ⟨l, hl, rfl⟩ := List.mem_map.mp hleft
  obtain ⟨l', -, rfl⟩ := List.mem_map.mp hl
  exact h _ hright rfl

theorem nodup_under {ls : List (List Str × Json)} (key : Str) (h : (ls.map Prod.fst).Nodup) :
    ((ls.map fun l => (key :: l.1, l.2)).map Prod.fst).Nodup := by
  rw [List.map_map]
  have hcomp : (Prod.fst ∘ fun l : List Str × Json => (key :: l.1, l.2)) = (key :: ·) ∘ Prod.fst := rfl
  rw [hcomp, ← List.map_map]
  exact h.map (List.cons_injective)

theorem head_memberLeaves {fields : List (Str × Json)} {path : List Str} (h : path ∈ (memberLeaves fields).map Prod.fst) :
    ∃ key ∈ keys fields, path.head? = some key := by
  induction fields with
  | nil => cases h
  | cons e es ih =>
      rw [memberLeaves, List.map_append] at h
      rcases List.mem_append.mp h with h | h
      · obtain ⟨l, hl, rfl⟩ := List.mem_map.mp h
        obtain ⟨l', -, rfl⟩ := List.mem_map.mp hl
        exact ⟨e.1, List.mem_cons_self, rfl⟩
      · obtain ⟨key, hkey, hhead⟩ := ih h
        exact ⟨key, List.mem_cons_of_mem _ hkey, hhead⟩

theorem head_elementLeaves {xs : List Json} {i : Nat} {path : List Str}
    (h : path ∈ (elementLeaves i xs).map Prod.fst) : ∃ j, i ≤ j ∧ path.head? = some (decimal j) := by
  induction xs generalizing i with
  | nil => cases h
  | cons x xs ih =>
      rw [elementLeaves, List.map_append] at h
      rcases List.mem_append.mp h with h | h
      · obtain ⟨l, hl, rfl⟩ := List.mem_map.mp h
        obtain ⟨l', -, rfl⟩ := List.mem_map.mp hl
        exact ⟨i, le_rfl, rfl⟩
      · obtain ⟨j, hj, hhead⟩ := ih h
        exact ⟨j, (Nat.le_succ i).trans hj, hhead⟩

mutual

/-- No two leaves have one path. -/
theorem nodup_leaves : ∀ v : Json, v.Wf → ((leaves v).map Prod.fst).Nodup
  | .obj fields => fun h => by
      rw [Json.Wf] at h
      rw [leaves]
      exact nodup_memberLeaves fields h.1 h.2
  | .arr xs => fun h => by
      rw [Json.Wf] at h
      rw [leaves]
      exact nodup_elementLeaves 0 xs h
  | .null => fun _ => List.nodup_singleton _
  | .bool _ => fun _ => List.nodup_singleton _
  | .int _ => fun _ => List.nodup_singleton _
  | .float _ => fun _ => List.nodup_singleton _
  | .str _ => fun _ => List.nodup_singleton _

theorem nodup_memberLeaves : ∀ fields : List (Str × Json), (keys fields).Nodup → membersWf fields →
    ((memberLeaves fields).map Prod.fst).Nodup
  | [] => fun _ _ => List.nodup_nil
  | (k, v) :: es => by
      intro hkeys hwf
      rw [membersWf] at hwf
      obtain ⟨hk, hes⟩ := List.nodup_cons.mp hkeys
      rw [memberLeaves, List.map_append]
      refine List.nodup_append'.mpr ⟨nodup_under k (nodup_leaves v hwf.1), nodup_memberLeaves es hes hwf.2, ?_⟩
      refine disjoint_heads fun path hpath hhead => ?_
      obtain ⟨key, hkey, heq⟩ := head_memberLeaves hpath
      cases hhead.symm.trans heq
      exact hk hkey

theorem nodup_elementLeaves : ∀ (i : Nat) (xs : List Json), elemsWf xs → ((elementLeaves i xs).map Prod.fst).Nodup
  | _, [] => fun _ => List.nodup_nil
  | i, x :: xs => by
      intro hwf
      rw [elemsWf] at hwf
      rw [elementLeaves, List.map_append]
      refine List.nodup_append'.mpr ⟨nodup_under _ (nodup_leaves x hwf.1), nodup_elementLeaves (i + 1) xs hwf.2, ?_⟩
      refine disjoint_heads fun path hpath hhead => ?_
      obtain ⟨j, hj, heq⟩ := head_elementLeaves hpath
      have hij := decimal_injective (Option.some.inj (hhead.symm.trans heq))
      omega

end

/-- No key on the way to a leaf contains a dot. -/
def NoDots (payload : Json) : Prop := ∀ l ∈ leaves payload, ∀ key ∈ l.1, 46 ∉ key

/-- Paths without dots are read again from their names. -/
theorem dottedPath_injective {path path' : List Str} (hne : path ≠ []) (hne' : path' ≠ [])
    (h : ∀ key ∈ path, 46 ∉ key) (h' : ∀ key ∈ path', 46 ∉ key) (heq : dottedPath path = dottedPath path') :
    path = path' := by
  have hsplit := congrArg (List.splitOn 46) heq
  rwa [dottedPath, dottedPath, List.splitOn_intercalate _ h hne, List.splitOn_intercalate _ h' hne'] at hsplit

theorem names_of_rows {ls : List (List Str × Json)} {rows : List MetricRow} (h : List.Forall₂ IsRow ls rows) :
    rows.map MetricRow.name = (ls.map Prod.fst).map dottedPath := by
  induction h with
  | nil => rfl
  | cons hrow _ ih => rw [List.map_cons, hrow.1, ih, List.map_cons, List.map_cons]

theorem nodup_names {fields : List (Str × Json)} {rows : List MetricRow}
    (hrows : List.Forall₂ IsRow (valueLeaves (.obj fields)) rows) (hwf : (Json.obj fields).Wf)
    (hdots : NoDots (.obj fields)) : (rows.map MetricRow.name).Nodup := by
  have hpaths : ((valueLeaves (.obj fields)).map Prod.fst).Nodup :=
    (nodup_leaves _ hwf).sublist (List.filter_sublist.map _)
  have hleaf : ∀ path ∈ (valueLeaves (.obj fields)).map Prod.fst, path ≠ [] ∧ ∀ key ∈ path, 46 ∉ key := by
    intro path hpath
    obtain ⟨l, hl, rfl⟩ := List.mem_map.mp hpath
    have hmem : l ∈ leaves (.obj fields) := (List.mem_filter.mp hl).1
    refine ⟨fun hnil => ?_, hdots l hmem⟩
    rw [leaves] at hmem
    obtain ⟨key, -, hhead⟩ := head_memberLeaves (List.mem_map_of_mem hmem)
    rw [hnil] at hhead
    cases hhead
  rw [names_of_rows hrows]
  refine List.Nodup.map_on (fun path hpath path' hpath' heq => ?_) hpaths
  exact dottedPath_injective (hleaf path hpath).1 (hleaf path' hpath').1 (hleaf path hpath).2 (hleaf path' hpath').2 heq

/-! ## Payloads -/

/-- Of an object every leaf that is no null gets one row, with its dotted path and its value, in the order of the
document, and the names differ where no key contains a dot; flattening raises exactly where the nesting takes more
frames than there are or an integer is too large for a float. -/
theorem flatten_exact (frames : Nat) (fields : List (Str × Json)) :
    ((∃ rows, flattenPayloadToMetrics frames (.obj fields) [] = .ok rows) ↔
      depth (.obj fields) ≤ frames ∧ FloatsFit (.obj fields)) ∧
    ∀ rows, flattenPayloadToMetrics frames (.obj fields) [] = .ok rows →
      List.Forall₂ IsRow (valueLeaves (.obj fields)) rows ∧
        ((Json.obj fields).Wf → NoDots (.obj fields) → (rows.map MetricRow.name).Nodup) := by
  have hcollect : ∀ rows, flattenPayloadToMetrics frames (.obj fields) [] = .ok rows ↔
      iterMetrics frames (.obj fields) [] = rows.map .ok := fun rows => mapM_id_ok
  obtain ⟨hiff, hrows⟩ := rows_of_leaves (leaves_scalar (.obj fields))
  rcases Nat.lt_or_ge frames (depth (.obj fields)) with hdeep | hfits
  · have hraises : ∀ rows, flattenPayloadToMetrics frames (.obj fields) [] ≠ .ok rows := by
      intro rows h
      obtain ⟨e, he, hdepth⟩ := exists_member hdeep
      have herror : .error .recursionError ∈ iterMetrics frames (.obj fields) [] :=
        List.mem_flatMap.mpr ⟨e, he, iterValue_error hdepth⟩
      rw [(hcollect rows).mp h] at herror
      obtain ⟨row, -, hrow⟩ := List.mem_map.mp herror
      cases hrow
    exact ⟨iff_of_false (fun ⟨rows, h⟩ => hraises rows h) fun h => absurd h.1 (not_le.mpr hdeep),
      fun rows h => absurd h (hraises rows)⟩
  · simp only [hcollect, iterMetrics_eq hfits, hiff]
    exact ⟨⟨fun h => ⟨hfits, h⟩, fun h => h.2⟩, fun rows h => ⟨hrows rows h, nodup_names (hrows rows h)⟩⟩

/-- One row for each leaf, with its value, and no name twice. -/
def OneRowPerLeaf (frames : Nat) (payload : Json) : Prop :=
  ∃ rows, flattenPayloadToMetrics frames payload [] = .ok rows ∧
    List.Forall₂ (fun l row => Carries row l.2) (leaves payload) rows ∧ (rows.map MetricRow.name).Nodup

/-- Two leaves under `a.b`. -/
def dottedKey : Json := .obj [(lit "a.b", .str (lit "x")), (lit "a", .obj [(lit "b", .str (lit "y"))])]

/-- A power of two beyond the floats. -/
theorem floatOfInt_two_pow {k : Nat} (hk : 1025 ≤ k) : floatOfInt (2 ^ k) = none := by
  have hmag : ((((2 : Int) ^ k).natAbs : Nat) : ℚ) = 2 ^ k := by
    rw [Int.natAbs_pow]
    push_cast
    rfl
  have hone : (1 : ℚ) ≤ 2 ^ k := one_le_pow₀ (by norm_num)
  have hlarge : ¬ roundMag (2 ^ k) < 2 ^ 1024 := by
    refine not_lt.mpr (le_trans ?_ (half_le_roundMag hone))
    rw [le_div_iff₀ (by norm_num), ← pow_succ]
    exact pow_le_pow_right₀ (by norm_num) hk
  rw [floatOfInt, toDouble, hmag, dif_neg fun h => hlarge h.2]
  rfl

/-- An integer beyond the floats raises. -/
theorem flatten_overflow {n : Int} (h : floatOfInt n = none) : ¬ OneRowPerLeaf 1000 (.obj [(lit "n", .int n)]) := by
  rintro ⟨rows, hrows, -⟩
  have hdepth : depth (.obj [(lit "n", .int n)]) ≤ 1000 := of_decide_eq_true rfl
  have hyields : iterMetrics 1000 (.obj [(lit "n", .int n)]) [] = [.error .overflowError] := by
    rw [iterMetrics_eq hdepth]
    change scalarToMetric (lit "n") (.int n) ++ [] = _
    rw [scalarToMetric, h]
    rfl
  have hcollect : iterMetrics 1000 (.obj [(lit "n", .int n)]) [] = rows.map .ok := mapM_id_ok.mp hrows
  rw [hyields] at hcollect
  cases rows with
  | nil => cases hcollect
  | cons row rows => cases (List.cons.inj hcollect).1

/-- A null has no row, two leaves have one name, and an integer beyond the floats raises. -/
theorem flatten_loses : ¬ OneRowPerLeaf 1000 (.obj [(lit "count", .null)]) ∧ ¬ OneRowPerLeaf 1000 dottedKey ∧
    ¬ OneRowPerLeaf 1000 (.obj [(lit "n", .int (2 ^ 1025))]) := by
  refine ⟨?_, ?_, flatten_overflow (floatOfInt_two_pow le_rfl)⟩
  · rintro ⟨rows, hrows, hleaves, -⟩
    cases hrows
    cases hleaves
  · rintro ⟨rows, hrows, -, hnames⟩
    cases hrows
    exact absurd hnames (by decide)

end Uns.Historian
