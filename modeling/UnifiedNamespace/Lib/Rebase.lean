/-
# `Lib.Rebase` — moving subtrees of a tree of paths

A tree is a set of paths, each a list of names, closed under what stands above a path.
A move takes everything at or below one path to another, and a batch carries its moves
out one after another.  Under `Clean`, that each move keeps the parent and goes to a free
place, and that none is inside another, the order does not matter: a path is moved by the
one move above it (`rebaseAll_below`), all others stay (`rebaseAll_apart`), and no two
paths become one (`rebaseAll_injOn`).
-/
import Mathlib

namespace Lib

section

variable {α : Type}

/-- Everything above a path of the set is in it. -/
def PrefixClosed (G : List (List α)) : Prop := ∀ p ∈ G, ∀ q, q <+: p → q ≠ [] → q ∈ G

/-- A name with trees under it. -/
def below (name : α) (children : List (List (List α))) : List (List α) :=
  [name] :: children.flatMap fun paths => paths.map (name :: ·)

theorem mem_below {name : α} {children : List (List (List α))} {p : List α} :
    p ∈ below name children ↔ p = [name] ∨ ∃ paths ∈ children, ∃ q ∈ paths, p = name :: q := by
  simp only [below, List.mem_cons, List.mem_flatMap, List.mem_map, eq_comm]

theorem below_prefixClosed {name : α} {children : List (List (List α))}
    (h : ∀ paths ∈ children, PrefixClosed paths) : PrefixClosed (below name children) := by
  intro p hp q hq hne
  obtain ⟨x, q, rfl⟩ := List.exists_cons_of_ne_nil hne
  rw [mem_below] at hp ⊢
  rcases hp with rfl | ⟨paths, hpaths, r, hr, rfl⟩
  · obtain ⟨rfl, hnil⟩ := List.cons_prefix_cons.mp hq
    exact .inl (by rw [List.prefix_nil.mp hnil])
  · obtain ⟨rfl, htail⟩ := List.cons_prefix_cons.mp hq
    by_cases hnil : q = []
    · exact .inl (by rw [hnil])
    · exact .inr ⟨paths, hpaths, q, h paths hpaths r hr q htail hnil, rfl⟩

/-! ## A batch that can be carried out -/

theorem prefix_dropLast {p q : List α} (h : p <+: q) (hne : p ≠ q) : p <+: q.dropLast := by
  have hlt : p.length < q.length := lt_of_le_of_ne h.length_le fun hl => hne (h.eq_of_length hl)
  exact List.prefix_of_prefix_length_le h (List.dropLast_prefix q)
    (by rw [List.length_dropLast]; omega)

/-- Each move keeps the parent and goes to a free place, and none is inside another. -/
structure Clean (G : List (List α)) (moves : List (List α × List α)) : Prop where
  source : ∀ m ∈ moves, m.1 ∈ G
  free : ∀ m ∈ moves, m.2 ∉ G
  named : ∀ m ∈ moves, m.2 ≠ []
  parent : ∀ m ∈ moves, m.1.dropLast = m.2.dropLast
  apart : ∀ m ∈ moves, ∀ m' ∈ moves, m.1 <+: m'.1 → m.1 = m'.1
  single : ∀ m ∈ moves, ∀ m' ∈ moves, m.2 = m'.2 ↔ m.1 = m'.1

namespace Clean

variable {G : List (List α)} {moves : List (List α × List α)} {m m' : List α × List α}

theorem of_subset {ms : List (List α × List α)} (h : Clean G moves) (hms : ∀ m ∈ ms, m ∈ moves) :
    Clean G ms where
  source m hm := h.source m (hms m hm)
  free m hm := h.free m (hms m hm)
  named m hm := h.named m (hms m hm)
  parent m hm := h.parent m (hms m hm)
  apart m hm m' hm' := h.apart m (hms m hm) m' (hms m' hm')
  single m hm m' hm' := h.single m (hms m hm) m' (hms m' hm')

theorem not_old_of_new_below (h : Clean G moves) (hG : PrefixClosed G) (hm : m ∈ moves) {p : List α}
    (hp : p ∈ G) : ¬ m.2 <+: p := fun hnew => h.free m hm (hG p hp m.2 hnew (h.named m hm))

/-- Above the new place of a move there is no old place. -/
theorem not_old_prefix_new (h : Clean G moves) (hnil : [] ∉ G) (hm : m ∈ moves) (hm' : m' ∈ moves) :
    ¬ m'.1 <+: m.2 := by
  intro hpre
  have hne : m'.1 ≠ m.2 := fun heq => h.free m hm (heq ▸ h.source m' hm')
  have hparent : m'.1 <+: m.1.dropLast := h.parent m hm ▸ prefix_dropLast hpre hne
  have heq : m'.1 = m.1 := h.apart m' hm' m hm (hparent.trans (List.dropLast_prefix _))
  have hlen := hparent.length_le
  have hpos : 0 < m.1.length :=
    List.length_pos_iff.mpr fun h0 => hnil (h0 ▸ h.source m hm)
  rw [heq, List.length_dropLast] at hlen
  omega

/-- What was moved is not moved again. -/
theorem not_old_prefix_moved (h : Clean G moves) (hG : PrefixClosed G) (hnil : [] ∉ G)
    (hm : m ∈ moves) (hm' : m' ∈ moves) (rest : List α) : ¬ m'.1 <+: m.2 ++ rest := by
  intro hpre
  rcases le_total m'.1.length m.2.length with hle | hle
  · exact h.not_old_prefix_new hnil hm hm'
      (List.prefix_of_prefix_length_le hpre (List.prefix_append _ _) hle)
  · exact h.not_old_of_new_below hG hm (h.source m' hm')
      (List.prefix_of_prefix_length_le (List.prefix_append _ _) hpre hle)

/-- One move of the batch is above a path at most. -/
theorem eq_of_old_prefix (h : Clean G moves) (hm : m ∈ moves) (hm' : m' ∈ moves) {p : List α}
    (hp : m.1 <+: p) (hp' : m'.1 <+: p) : m.1 = m'.1 := by
  rcases le_total m.1.length m'.1.length with hle | hle
  · exact h.apart m hm m' hm' (List.prefix_of_prefix_length_le hp hp' hle)
  · exact (h.apart m' hm' m hm (List.prefix_of_prefix_length_le hp' hp hle)).symm

end Clean

/-! ## Carrying the moves out -/

variable [DecidableEq α]

/-- What is at or below `old` is as far below `new`. -/
def rebase (old new p : List α) : List α := if old <+: p then new ++ p.drop old.length else p

theorem rebase_below (old new rest : List α) : rebase old new (old ++ rest) = new ++ rest := by
  rw [rebase, if_pos (List.prefix_append _ _), List.drop_left]

theorem rebase_apart {old p : List α} (h : ¬ old <+: p) (new : List α) : rebase old new p = p :=
  if_neg h

/-- The moves of the batch in order. -/
def rebaseAll (moves : List (List α × List α)) (p : List α) : List α :=
  moves.foldl (fun p move => rebase move.1 move.2 p) p

theorem rebaseAll_apart {moves : List (List α × List α)} {p : List α}
    (h : ∀ m ∈ moves, ¬ m.1 <+: p) : rebaseAll moves p = p := by
  induction moves with
  | nil => rfl
  | cons m moves ih =>
      obtain ⟨hm, hmoves⟩ := List.forall_mem_cons.mp h
      have hhead : rebaseAll (m :: moves) p = rebaseAll moves (rebase m.1 m.2 p) := rfl
      rw [hhead, rebase_apart hm]
      exact ih hmoves

/-- A path below the old place of a move is as far below its new place. -/
theorem rebaseAll_below {G : List (List α)} {moves : List (List α × List α)} (h : Clean G moves)
    (hG : PrefixClosed G) (hnil : [] ∉ G) {m : List α × List α} (hm : m ∈ moves) (rest : List α) :
    rebaseAll moves (m.1 ++ rest) = m.2 ++ rest := by
  induction moves with
  | nil => cases hm
  | cons m0 moves ih =>
      have hclean : Clean G moves := h.of_subset fun m hm => List.mem_cons_of_mem _ hm
      have hhead : ∀ p, rebaseAll (m0 :: moves) p = rebaseAll moves (rebase m0.1 m0.2 p) :=
        fun _ => rfl
      rw [hhead]
      by_cases hpre : m0.1 <+: m.1 ++ rest
      · -- the first move above the path has its source and its target
        have hold : m0.1 = m.1 :=
          h.eq_of_old_prefix List.mem_cons_self hm hpre (List.prefix_append _ _)
        have hnew : m0.2 = m.2 := (h.single m0 List.mem_cons_self m hm).mpr hold
        rw [hold, rebase_below, hnew]
        exact rebaseAll_apart fun m' hm' =>
          h.not_old_prefix_moved hG hnil hm (List.mem_cons_of_mem _ hm') rest
      · rw [rebase_apart hpre]
        rcases List.mem_cons.mp hm with rfl | hm
        · exact absurd (List.prefix_append _ _) hpre
        · exact ih hclean hm

/-- Where the batch takes a path. -/
theorem rebaseAll_cases {G : List (List α)} {moves : List (List α × List α)} (h : Clean G moves) (hG : PrefixClosed G) (hnil : [] ∉ G) (p : List α) :
    (rebaseAll moves p = p ∧ ∀ m ∈ moves, ¬ m.1 <+: p) ∨
      ∃ m ∈ moves, ∃ rest, p = m.1 ++ rest ∧ rebaseAll moves p = m.2 ++ rest := by
  by_cases hp : ∃ m ∈ moves, m.1 <+: p
  · obtain ⟨m, hm, rest, rfl⟩ := hp
    exact .inr ⟨m, hm, rest, rfl, rebaseAll_below h hG hnil hm rest⟩
  · have hapart : ∀ m ∈ moves, ¬ m.1 <+: p := fun m hm hpre => hp ⟨m, hm, hpre⟩
    exact .inl ⟨rebaseAll_apart hapart, hapart⟩

/-- A batch keeps distinct paths distinct. -/
theorem rebaseAll_injOn {G : List (List α)} {moves : List (List α × List α)} (h : Clean G moves)
    (hG : PrefixClosed G) (hnil : [] ∉ G) : Set.InjOn (rebaseAll moves) {p | p ∈ G} := by
  intro p hp q hq heq
  rcases rebaseAll_cases h hG hnil p with ⟨hp', _⟩ | ⟨m, hm, rest, rfl, hp'⟩ <;>
    rcases rebaseAll_cases h hG hnil q with ⟨hq', _⟩ | ⟨m', hm', rest', rfl, hq'⟩ <;>
    rw [hp', hq'] at heq
  · exact heq
  · exact absurd (heq ▸ List.prefix_append _ _) (h.not_old_of_new_below hG hm' hp)
  · exact absurd (heq ▸ List.prefix_append _ _) (h.not_old_of_new_below hG hm hq)
  · have hnew : m.2 = m'.2 := by
      by_contra hne
      rcases le_total m.2.length m'.2.length with hle | hle
      · have hpre := List.prefix_of_prefix_length_le (heq ▸ List.prefix_append m.2 rest)
          (List.prefix_append m'.2 rest') hle
        have hparent := prefix_dropLast hpre hne
        rw [← h.parent m' hm'] at hparent
        exact h.not_old_of_new_below hG hm (h.source m' hm')
          (hparent.trans (List.dropLast_prefix _))
      · have hpre := List.prefix_of_prefix_length_le (heq ▸ List.prefix_append m'.2 rest')
          (List.prefix_append m.2 rest) hle
        have hparent := prefix_dropLast hpre (Ne.symm hne)
        rw [← h.parent m hm] at hparent
        exact h.not_old_of_new_below hG hm' (h.source m hm)
          (hparent.trans (List.dropLast_prefix _))
    rw [(h.single m hm m' hm').mp hnew]
    rw [hnew] at heq
    rw [List.append_cancel_left heq]

/-! ## Part of the batch -/

section

variable {G : List (List α)} {done later : List (List α × List α)} {m : List α × List α}

/-- An old place that is still taken has not been moved. -/
theorem Clean.not_moved (h : Clean G (done ++ m :: later)) (hG : PrefixClosed G) (hnil : [] ∉ G)
    (htaken : m.1 ∈ G.map (rebaseAll done)) : ∀ m' ∈ done, m'.1 ≠ m.1 := by
  have hdone : Clean G done := h.of_subset fun _ hm' => List.mem_append_left _ hm'
  have hm : m.1 ∈ G := h.source m (List.mem_append_right _ List.mem_cons_self)
  obtain ⟨p, _, hp⟩ := List.mem_map.mp htaken
  intro m' hm' heq
  rcases rebaseAll_cases hdone hG hnil p with ⟨hstay, hapart⟩ | ⟨m'', hm'', rest, rfl, hmoved⟩
  · rw [hstay] at hp
    exact hapart m' hm' (heq ▸ hp ▸ List.prefix_refl _)
  · rw [hmoved] at hp
    exact hdone.not_old_of_new_below hG hm'' hm ⟨rest, hp⟩

/-- The new place of the next move is free when its old place is still taken. -/
theorem Clean.free_after (h : Clean G (done ++ m :: later)) (hG : PrefixClosed G) (hnil : [] ∉ G)
    (htaken : m.1 ∈ G.map (rebaseAll done)) : m.2 ∉ G.map (rebaseAll done) := by
  have hdone : Clean G done := h.of_subset fun _ hm' => List.mem_append_left _ hm'
  have hmem : m ∈ done ++ m :: later := List.mem_append_right _ List.mem_cons_self
  intro hnew
  obtain ⟨p, hpG, hp⟩ := List.mem_map.mp hnew
  rcases rebaseAll_cases hdone hG hnil p with ⟨hstay, _⟩ | ⟨m', hm', rest, rfl, hmoved⟩
  · rw [hstay] at hp
    exact h.free m hmem (hp ▸ hpG)
  · rw [hmoved] at hp
    by_cases hrest : rest = []
    · rw [hrest, List.append_nil] at hp
      exact h.not_moved hG hnil htaken m' hm'
        ((h.single m' (List.mem_append_left _ hm') m hmem).mp hp)
    · have hpre : m'.2 <+: m.2 := hp ▸ List.prefix_append _ _
      have hne : m'.2 ≠ m.2 := by
        intro heq
        rw [← heq] at hp
        exact hrest (List.append_right_eq_self.mp hp)
      have hparent := prefix_dropLast hpre hne
      rw [← h.parent m hmem] at hparent
      exact hdone.not_old_of_new_below hG hm' (h.source m hmem)
        (hparent.trans (List.dropLast_prefix _))

/-- Nothing is below an old place that is no longer taken. -/
theorem Clean.apart_after (h : Clean G (done ++ m :: later)) (hG : PrefixClosed G) (hnil : [] ∉ G)
    (hgone : m.1 ∉ G.map (rebaseAll done)) : ∀ p ∈ G.map (rebaseAll done), ¬ m.1 <+: p := by
  have hdone : Clean G done := h.of_subset fun _ hm' => List.mem_append_left _ hm'
  have hmem : m ∈ done ++ m :: later := List.mem_append_right _ List.mem_cons_self
  have hmoved : ∃ m' ∈ done, m'.1 = m.1 := by
    rcases rebaseAll_cases hdone hG hnil m.1 with ⟨hstay, _⟩ | ⟨m', hm', rest, heq, _⟩
    · exact absurd (List.mem_map.mpr ⟨m.1, h.source m hmem, hstay⟩) hgone
    · exact ⟨m', hm', h.apart m' (List.mem_append_left _ hm') m hmem ⟨rest, heq.symm⟩⟩
  obtain ⟨m', hm', heq⟩ := hmoved
  intro p hp hpre
  obtain ⟨q, _, rfl⟩ := List.mem_map.mp hp
  rcases rebaseAll_cases hdone hG hnil q with ⟨hstay, hapart⟩ | ⟨m'', hm'', rest, rfl, hmoved⟩
  · exact hapart m' hm' (heq ▸ hstay ▸ hpre)
  · rw [hmoved] at hpre
    exact h.not_old_prefix_moved hG hnil (List.mem_append_left _ hm'') hmem rest hpre

end

end

end Lib
