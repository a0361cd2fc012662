/-
# `Model.TopicPath` — topics and their segments

`topic_path.py` and `access.py`: a topic is a string, its segments are what stands between
the slashes, and an Asset covers the topics at or below its path.  `splitSlash` and
`joinSlash` are inverse where segments hold no slash, and turn coverage into a prefix of
lists (`covers_iff`), so the results about positions in a tree are results about lists of
segments.
-/
import UnifiedNamespace.Python.Str

namespace Uns.Model

open Py

/-- `SEPARATOR`. -/
def separator : Nat := 47

/-- A prefix test with a slash boundary. -/
def covers (assetPath rootPath : Str) : Bool :=
  decide (assetPath = rootPath) || (rootPath ++ [separator]).isPrefixOf assetPath

/-- `topic.split("/")`. -/
def splitSlash : Str → List Str
  | [] => [[]]
  | c :: s =>
      if c = separator then [] :: splitSlash s
      else
        match splitSlash s with
        | [] => [[c]]
        | segment :: segments => (c :: segment) :: segments

/-- `"/".join(segments)`. -/
def joinSlash (segments : List Str) : Str := [separator].intercalate segments

/-- `join_segments`: empty segments are left out. -/
def joinSegments (segments : List Str) : Str := joinSlash (segments.filter (· ≠ []))

/-- `validate_segment` does not raise. -/
def isSegment (name : Str) : Bool := decide (name ≠ []) && decide (separator ∉ name)

theorem splitSlash_ne_nil (s : Str) : splitSlash s ≠ [] := by
  cases s with
  | nil => exact List.cons_ne_nil _ _
  | cons c s =>
      rw [splitSlash]
      split
      · exact List.cons_ne_nil _ _
      · split <;> exact List.cons_ne_nil _ _

theorem splitSlash_cons_slash (s : Str) : splitSlash (separator :: s) = [] :: splitSlash s := by
  rw [splitSlash, if_pos rfl]

theorem splitSlash_cons {c : Nat} (hc : c ≠ separator) {s segment : Str} {segments : List Str}
    (h : splitSlash s = segment :: segments) : splitSlash (c :: s) = (c :: segment) :: segments := by
  rw [splitSlash, if_neg hc, h]

/-- Segments without slashes are split apart again. -/
theorem splitSlash_append {a : Str} (b : Str) :
    splitSlash (a ++ separator :: b) = splitSlash a ++ splitSlash b := by
  induction a with
  | nil =>
      rw [List.nil_append, splitSlash_cons_slash]
      rfl
  | cons c a ih =>
      by_cases hc : c = separator
      · subst hc
        rw [List.cons_append, splitSlash_cons_slash, splitSlash_cons_slash, ih, List.cons_append]
      · obtain ⟨segment, segments, hsplit⟩ := List.exists_cons_of_ne_nil (splitSlash_ne_nil a)
        rw [List.cons_append, splitSlash_cons hc hsplit]
        refine splitSlash_cons hc ?_
        rw [ih, hsplit]
        rfl

theorem splitSlash_of_no_slash {s : Str} (h : separator ∉ s) : splitSlash s = [s] := by
  induction s with
  | nil => rfl
  | cons c s ih =>
      rw [List.mem_cons, not_or] at h
      exact splitSlash_cons (fun hc => h.1 hc.symm) (ih h.2)

theorem joinSlash_cons_cons (a b : Str) (segments : List Str) :
    joinSlash (a :: b :: segments) = a ++ separator :: joinSlash (b :: segments) := by
  rw [joinSlash, List.intercalate_cons_cons, List.append_assoc]
  rfl

theorem joinSlash_singleton (a : Str) : joinSlash [a] = a := by
  rw [joinSlash, List.intercalate_singleton]

theorem splitSlash_joinSlash {segments : List Str} (hne : segments ≠ [])
    (h : ∀ s ∈ segments, separator ∉ s) : splitSlash (joinSlash segments) = segments := by
  induction segments with
  | nil => exact absurd rfl hne
  | cons a segments ih =>
      obtain ⟨ha, hrest⟩ := List.forall_mem_cons.mp h
      cases segments with
      | nil => rw [joinSlash_singleton, splitSlash_of_no_slash ha]
      | cons b segments =>
          rw [joinSlash_cons_cons, splitSlash_append, splitSlash_of_no_slash ha,
            ih (List.cons_ne_nil _ _) hrest]
          rfl

theorem joinSlash_splitSlash (s : Str) : joinSlash (splitSlash s) = s := by
  induction s with
  | nil => rfl
  | cons c s ih =>
      obtain ⟨segment, segments, hsplit⟩ := List.exists_cons_of_ne_nil (splitSlash_ne_nil s)
      by_cases hc : c = separator
      · subst hc
        rw [splitSlash_cons_slash, hsplit, joinSlash_cons_cons, ← hsplit, ih]
        rfl
      · rw [splitSlash_cons hc hsplit]
        rw [hsplit] at ih
        cases segments with
        | nil =>
            rw [joinSlash_singleton] at ih ⊢
            rw [ih]
        | cons b segments =>
            rw [joinSlash_cons_cons] at ih ⊢
            rw [List.cons_append, ih]

/-- A segment has no slash. -/
theorem not_mem_of_mem_splitSlash {s segment : Str} (h : segment ∈ splitSlash s) : separator ∉ segment := by
  induction s generalizing segment with
  | nil =>
      cases List.mem_singleton.mp h
      exact List.not_mem_nil
  | cons c s ih =>
      rcases eq_or_ne c separator with rfl | hc
      · rw [splitSlash_cons_slash] at h
        rcases List.mem_cons.mp h with rfl | h
        · exact List.not_mem_nil
        · exact ih h
      · obtain ⟨first, rest, hsplit⟩ := List.exists_cons_of_ne_nil (splitSlash_ne_nil s)
        rw [splitSlash_cons hc hsplit] at h
        rcases List.mem_cons.mp h with rfl | h
        · intro hmem
          rcases List.mem_cons.mp hmem with hat | hmem
          · exact hc hat.symm
          · exact ih (hsplit ▸ List.mem_cons_self) hmem
        · exact ih (hsplit ▸ List.mem_cons_of_mem _ h)

/-- A topic is its segments. -/
theorem splitSlash_injective : Function.Injective splitSlash := by
  intro s t h
  rw [← joinSlash_splitSlash s, h, joinSlash_splitSlash]

theorem joinSlash_append {a b : List Str} (ha : a ≠ []) (hb : b ≠ []) :
    joinSlash (a ++ b) = joinSlash a ++ separator :: joinSlash b := by
  induction a with
  | nil => exact absurd rfl ha
  | cons x a ih =>
      cases a with
      | nil =>
          obtain ⟨y, b, rfl⟩ := List.exists_cons_of_ne_nil hb
          rw [List.cons_append, List.nil_append, joinSlash_cons_cons, joinSlash_singleton]
      | cons y a =>
          rw [List.cons_append, List.cons_append, joinSlash_cons_cons, joinSlash_cons_cons,
            List.append_assoc, List.cons_append, ← ih (List.cons_ne_nil _ _), List.cons_append]

/-- A covered topic is the path, or the path with a slash and a rest. -/
theorem covers_cases {topic path : Str} :
    covers topic path = true ↔ topic = path ∨ ∃ rest, topic = path ++ separator :: rest := by
  rw [covers, Bool.or_eq_true, decide_eq_true_iff, List.isPrefixOf_iff_prefix]
  refine or_congr_right ?_
  constructor
  · rintro ⟨rest, rfl⟩
    exact ⟨rest, by simp⟩
  · rintro ⟨rest, rfl⟩
    exact ⟨rest, by simp⟩

/-- Coverage is a prefix of segments. -/
theorem covers_iff {topic path : Str} : covers topic path = true ↔ splitSlash path <+: splitSlash topic := by
  rw [covers_cases]
  constructor
  · rintro (rfl | ⟨rest, rfl⟩)
    · exact List.prefix_refl _
    · rw [splitSlash_append]
      exact List.prefix_append _ _
  · rintro ⟨rest, hrest⟩
    by_cases hnil : rest = []
    · rw [hnil, List.append_nil] at hrest
      exact .inl (splitSlash_injective hrest.symm)
    · refine .inr ⟨joinSlash rest, ?_⟩
      rw [← joinSlash_splitSlash topic, ← hrest, joinSlash_append (splitSlash_ne_nil _) hnil,
        joinSlash_splitSlash]

/-- The same position below another path. -/
theorem splitSlash_moved {topic old : Str} (h : covers topic old = true) (new : Str) :
    splitSlash (new ++ topic.drop old.length) = splitSlash new ++ (splitSlash topic).drop (splitSlash old).length := by
  rcases covers_cases.mp h with rfl | ⟨rest, rfl⟩
  · rw [List.drop_length, List.drop_length, List.append_nil, List.append_nil]
  · rw [List.drop_left, splitSlash_append, splitSlash_append, List.drop_left]

end Uns.Model
