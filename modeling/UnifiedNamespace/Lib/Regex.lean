/-
# `Lib.Regex` — patterns read by backtracking

A pattern is read from a text by the list of its successes: `rests total r s` are
the texts that may be left when `r` has read a part of `s`, in the order a
backtracking matcher tries them.  `total` is the length of the whole text, so that
an anchor at the beginning knows where it stands.

Reading loses a part of the text at the front (`suffix_of_mem_rests`), and a star
reads what any number of turns read (`mem_rests_star`); the lemmas after these say
what the common shapes of pattern read.
-/
import Mathlib.Data.List.Basic
import Mathlib.Logic.Relation

namespace Lib

variable {α : Type}

inductive Regex (α : Type) where
  | eps
  | set (p : α → Bool)
  | bos
  | eos (last : α → Bool)
  | seq (a b : Regex α)
  | alt (a b : Regex α)
  | star (a : Regex α)

namespace Regex

/-- At most `fuel` turns of `turn`, each of which reads something. -/
def turns (turn : List α → List (List α)) : Nat → List α → List (List α)
  | 0, s => [s]
  | fuel + 1, s => ((turn s).filter fun t => t.length < s.length).flatMap (turns turn fuel) ++ [s]

/-- What may be left of `s`.  `eos last` holds at the end and before a last element with `last`. -/
def rests (total : Nat) : Regex α → List α → List (List α)
  | .eps, s => [s]
  | .set _, [] => []
  | .set p, c :: s => if p c then [s] else []
  | .bos, s => if s.length = total then [s] else []
  | .eos _, [] => [[]]
  | .eos last, [c] => if last c then [[c]] else []
  | .eos _, _ :: _ :: _ => []
  | .seq a b, s => (rests total a s).flatMap (rests total b)
  | .alt a b, s => rests total a s ++ rests total b s
  | .star a, s => turns (rests total a) s.length s

/-- The pattern reads the whole text. -/
def fullmatch (r : Regex α) (s : List α) : Bool := (rests s.length r s).any List.isEmpty

theorem fullmatch_iff {r : Regex α} {s : List α} : fullmatch r s = true ↔ [] ∈ rests s.length r s := by
  simp only [fullmatch, List.any_eq_true, List.isEmpty_iff, exists_eq_right]

/-! ## Rules -/

section

variable {total : Nat} {a b r : Regex α} {p : α → Bool} {s t : List α}

@[simp] theorem mem_rests_eps : t ∈ rests total .eps s ↔ t = s := List.mem_singleton

@[simp] theorem mem_rests_set : t ∈ rests total (.set p) s ↔ ∃ c, p c = true ∧ s = c :: t := by
  cases s with
  | nil =>
      constructor
      · intro h
        cases h
      · rintro ⟨c, -, h⟩
        cases h
  | cons d s =>
      simp only [rests, List.cons.injEq]
      split
      · next hd =>
          rw [List.mem_singleton]
          constructor
          · rintro rfl
            exact ⟨d, hd, rfl, rfl⟩
          · rintro ⟨c, -, -, rfl⟩
            rfl
      · next hd =>
          constructor
          · intro h
            cases h
          · rintro ⟨c, hc, rfl, -⟩
            exact absurd hc hd

@[simp] theorem mem_rests_seq : t ∈ rests total (.seq a b) s ↔ ∃ u ∈ rests total a s, t ∈ rests total b u :=
  List.mem_flatMap

@[simp] theorem mem_rests_alt : t ∈ rests total (.alt a b) s ↔ t ∈ rests total a s ∨ t ∈ rests total b s :=
  List.mem_append

theorem suffix_of_mem_turns {turn : List α → List (List α)} (h : ∀ {s t}, t ∈ turn s → t <:+ s) {fuel : Nat} :
    ∀ {s t}, t ∈ turns turn fuel s → t <:+ s := by
  induction fuel with
  | zero =>
      intro s t ht
      obtain rfl := List.mem_singleton.mp ht
      exact List.suffix_refl _
  | succ fuel ih =>
      intro s t ht
      rcases List.mem_append.mp ht with ht | ht
      · obtain ⟨u, hu, ht⟩ := List.mem_flatMap.mp ht
        exact (ih ht).trans (h (List.mem_of_mem_filter hu))
      · obtain rfl := List.mem_singleton.mp ht
        exact List.suffix_refl _

/-- Reading takes from the front. -/
theorem suffix_of_mem_rests : ∀ {r : Regex α} {s t : List α}, t ∈ rests total r s → t <:+ s := by
  intro r
  induction r with
  | eps =>
      intro s t h
      obtain rfl := mem_rests_eps.mp h
      exact List.suffix_refl _
  | set p =>
      intro s t h
      obtain ⟨c, -, rfl⟩ := mem_rests_set.mp h
      exact List.suffix_cons c t
  | bos =>
      intro s t h
      rw [rests] at h
      split at h
      · obtain rfl := List.mem_singleton.mp h
        exact List.suffix_refl _
      · cases h
  | eos last =>
      intro s t h
      cases s with
      | nil =>
          rw [rests, List.mem_singleton] at h
          obtain rfl := h
          exact List.suffix_refl _
      | cons c s =>
          cases s with
          | nil =>
              rw [rests] at h
              split at h
              · obtain rfl := List.mem_singleton.mp h
                exact List.suffix_refl _
              · cases h
          | cons d s => cases h
  | seq a b iha ihb =>
      intro s t h
      obtain ⟨u, hu, ht⟩ := mem_rests_seq.mp h
      exact (ihb ht).trans (iha hu)
  | alt a b iha ihb =>
      intro s t h
      rcases mem_rests_alt.mp h with h | h
      · exact iha h
      · exact ihb h
  | star a iha =>
      intro s t h
      exact suffix_of_mem_turns iha h

theorem mem_turns {turn : List α → List (List α)} (h : ∀ {s t}, t ∈ turn s → t <:+ s) {fuel : Nat} :
    ∀ {s t}, s.length ≤ fuel → (t ∈ turns turn fuel s ↔ Relation.ReflTransGen (fun x y => y ∈ turn x) s t) := by
  induction fuel with
  | zero =>
      intro s t hs
      have hnil : s = [] := List.length_eq_zero_iff.mp (Nat.le_zero.mp hs)
      rw [turns, List.mem_singleton]
      constructor
      · rintro rfl
        exact .refl
      · intro hreach
        induction hreach with
        | refl => rfl
        | tail _ hstep ih =>
            rw [ih, hnil] at hstep
            rw [hnil]
            exact List.suffix_nil.mp (h hstep)
  | succ fuel ih =>
      intro s t hs
      rw [turns, List.mem_append, List.mem_flatMap, List.mem_singleton]
      constructor
      · rintro (⟨u, hu, ht⟩ | rfl)
        · obtain ⟨hstep, hshorter⟩ := List.mem_filter.mp hu
          have hlength : u.length < s.length := of_decide_eq_true hshorter
          exact .head hstep ((ih (by omega)).mp ht)
        · exact .refl
      · intro hreach
        induction hreach using Relation.ReflTransGen.head_induction_on with
        | refl => exact .inr rfl
        | @head s u hstep hrest ihrest =>
            have hsuffix := h hstep
            rcases Nat.lt_or_ge u.length s.length with hshorter | hsame
            · refine .inl ⟨u, List.mem_filter.mpr ⟨hstep, decide_eq_true hshorter⟩, ?_⟩
              exact (ih (by omega)).mpr hrest
            · have hu : u = s := hsuffix.eq_of_length_le hsame
              rw [← hu]
              exact ihrest (by rw [hu]; exact hs)

/-- A star reads what any number of turns read. -/
theorem mem_rests_star :
    t ∈ rests total (.star a) s ↔ Relation.ReflTransGen (fun x y => y ∈ rests total a x) s t :=
  mem_turns suffix_of_mem_rests (Nat.le_refl _)

/-- A star under a star adds nothing. -/
theorem mem_rests_star_star : t ∈ rests total (.star (.star a)) s ↔ t ∈ rests total (.star a) s := by
  simp only [mem_rests_star]
  rw [Relation.reflTransGen_eq_self]

/-- A star of a class reads any part of the class. -/
theorem mem_rests_star_set :
    t ∈ rests total (.star (.set p)) s ↔ ∃ u, (∀ c ∈ u, p c = true) ∧ s = u ++ t := by
  rw [mem_rests_star]
  constructor
  · intro h
    induction h using Relation.ReflTransGen.head_induction_on with
    | refl => exact ⟨[], fun c hc => absurd hc List.not_mem_nil, rfl⟩
    | head hstep _ ih =>
        obtain ⟨c, hc, rfl⟩ := mem_rests_set.mp hstep
        obtain ⟨u, hu, rfl⟩ := ih
        exact ⟨c :: u, List.forall_mem_cons.mpr ⟨hc, hu⟩, rfl⟩
  · rintro ⟨u, hu, rfl⟩
    induction u with
    | nil => exact .refl
    | cons c u ih =>
        obtain ⟨hc, hu⟩ := List.forall_mem_cons.mp hu
        exact .head (mem_rests_set.mpr ⟨c, hc, rfl⟩) (ih hu)

/-- An optional part that starts with a fixed element, and stays in a class that has it. -/
theorem mem_rests_star_headed [DecidableEq α] {c : α} (hc : p c = true) :
    t ∈ rests total (.star (.seq (.set fun d => decide (d = c)) (.star (.set p)))) s ↔
      t = s ∨ ∃ u, (∀ d ∈ u, p d = true) ∧ s = c :: u ++ t := by
  have hturn : ∀ {x y}, y ∈ rests total (.seq (.set fun d => decide (d = c)) (.star (.set p))) x ↔
      ∃ u, (∀ d ∈ u, p d = true) ∧ x = c :: u ++ y := by
    intro x y
    simp only [mem_rests_seq, mem_rests_set, mem_rests_star_set, decide_eq_true_eq]
    constructor
    · rintro ⟨z, ⟨d, rfl, rfl⟩, u, hu, rfl⟩
      exact ⟨u, hu, rfl⟩
    · rintro ⟨u, hu, rfl⟩
      exact ⟨u ++ y, ⟨c, rfl, rfl⟩, u, hu, rfl⟩
  rw [mem_rests_star]
  constructor
  · intro h
    induction h using Relation.ReflTransGen.head_induction_on with
    | refl => exact .inl rfl
    | head hstep _ ih =>
        obtain ⟨u, hu, rfl⟩ := hturn.mp hstep
        rcases ih with rfl | ⟨v, hv, rfl⟩
        · exact .inr ⟨u, hu, rfl⟩
        · refine .inr ⟨u ++ c :: v, ?_, by simp only [List.cons_append, List.append_assoc]⟩
          intro d hd
          rcases List.mem_append.mp hd with hd | hd
          · exact hu d hd
          · rcases List.mem_cons.mp hd with rfl | hd
            · exact hc
            · exact hv d hd
  · rintro (rfl | hpart)
    · exact .refl
    · exact .single (hturn.mpr hpart)

end

/-! ## Sequences -/

/-- The patterns one after the other. -/
def seqOf (rs : List (Regex α)) : Regex α := rs.foldr .seq .eps

theorem mem_rests_seqOf_append {total : Nat} {as bs : List (Regex α)} {s t : List α} :
    t ∈ rests total (seqOf (as ++ bs)) s ↔ ∃ u ∈ rests total (seqOf as) s, t ∈ rests total (seqOf bs) u := by
  induction as generalizing s with
  | nil => simp only [seqOf, List.nil_append, List.foldr_nil, mem_rests_eps, exists_eq_left]
  | cons a as ih =>
      simp only [seqOf, List.cons_append, List.foldr_cons, mem_rests_seq] at ih ⊢
      constructor
      · rintro ⟨x, hx, ht⟩
        obtain ⟨u, hu, ht⟩ := ih.mp ht
        exact ⟨u, ⟨x, hx, hu⟩, ht⟩
      · rintro ⟨u, ⟨x, hx, hu⟩, ht⟩
        exact ⟨x, hx, ih.mpr ⟨u, hu, ht⟩⟩

theorem mem_rests_seqOf_singleton {total : Nat} {a : Regex α} {s t : List α} :
    t ∈ rests total (seqOf [a]) s ↔ t ∈ rests total a s := by
  simp only [seqOf, List.foldr_cons, List.foldr_nil, mem_rests_seq, mem_rests_eps, exists_eq_right']

/-- Literals in a row read the text they spell. -/
theorem mem_rests_literals [DecidableEq α] {total : Nat} {word s t : List α} :
    t ∈ rests total (seqOf (word.map fun c => .set fun d => decide (d = c))) s ↔ s = word ++ t := by
  induction word generalizing s with
  | nil =>
      rw [List.map_nil, seqOf, List.foldr_nil, mem_rests_eps, List.nil_append]
      exact eq_comm
  | cons c word ih =>
      rw [seqOf] at ih
      simp only [seqOf, List.map_cons, List.foldr_cons, mem_rests_seq, mem_rests_set, decide_eq_true_eq, ih]
      constructor
      · rintro ⟨x, ⟨d, rfl, rfl⟩, rfl⟩
        rfl
      · rintro rfl
        exact ⟨word ++ t, ⟨c, rfl, rfl⟩, rfl⟩

end Regex

end Lib
