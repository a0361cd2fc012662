/-
# `Lib.Pruning` — trees of paths, pruned from the leaves up

A tree is the list of its paths, as `below` builds it.  Pruned, a node stays when it is kept
itself or when a child of it stays.  Down to the depth of the pruning, the paths that stay are
those with a kept path at or below them (`Prunes.below`).
-/
import UnifiedNamespace.Lib.Rebase

namespace Lib

variable {α ι : Type}

/-- Of the first `depth` levels, `G'` has the paths of `G` with a kept one at or below. -/
structure Prunes (depth : Nat) (keep : List α → Bool) (G G' : List (List α)) : Prop where
  source : PrefixClosed G
  closed : PrefixClosed G'
  named : [] ∉ G'
  mem : ∀ q, q ≠ [] → q.length ≤ depth →
    (q ∈ G' ↔ q ∈ G ∧ ∃ p ∈ G, q <+: p ∧ p.length ≤ depth ∧ keep p = true)

theorem nil_notMem_below (name : α) (children : List (List (List α))) : [] ∉ below name children := by
  intro h
  rcases mem_below.mp h with h | ⟨_, _, _, _, h⟩ <;> cases h

/-- A child stays as soon as any path of it does. -/
theorem Prunes.kept_of_ne_nil {depth : Nat} {keep : List α → Bool} {G G' : List (List α)}
    (h : Prunes (depth + 1) keep G G') (hne : G' ≠ []) : ∃ p ∈ G, p.length ≤ depth + 1 ∧ keep p = true := by
  obtain ⟨q, hq⟩ := List.exists_mem_of_ne_nil _ hne
  obtain ⟨name, rest, rfl⟩ := List.exists_cons_of_ne_nil fun hnil => h.named (hnil ▸ hq)
  have hroot : [name] ∈ G' := h.closed _ hq _ (List.prefix_append [name] rest) (List.cons_ne_nil _ _)
  obtain ⟨-, p, hp, -, hlen, hkeep⟩ := (h.mem _ (List.cons_ne_nil _ _) (by simp)).mp hroot
  exact ⟨p, hp, hlen, hkeep⟩

theorem Prunes.mem_self {depth : Nat} {keep : List α → Bool} {G G' : List (List α)} (h : Prunes depth keep G G')
    {p : List α} (hp : p ∈ G) (hne : p ≠ []) (hlen : p.length ≤ depth) (hkeep : keep p = true) : p ∈ G' :=
  (h.mem p hne hlen).mpr ⟨hp, p, hp, List.prefix_refl p, hlen, hkeep⟩

/-- On the last level a node stays when it is kept itself. -/
theorem Prunes.leaf (keep : List α → Bool) (name : α) {children : List (List (List α))}
    (hclosed : ∀ paths ∈ children, PrefixClosed paths) :
    Prunes 1 keep (below name children) (if keep [name] = true then below name children else []) := by
  have hroot : ∀ q ∈ below name children, q.length ≤ 1 → q = [name] := by
    intro q hq hlen
    rcases mem_below.mp hq with rfl | ⟨paths, hpaths, rest, hrest, rfl⟩
    · rfl
    · rw [List.length_cons] at hlen
      rw [List.length_eq_zero_iff.mp (by omega : rest.length = 0)]
  refine ⟨below_prefixClosed hclosed, ?_, ?_, ?_⟩
  · split
    · exact below_prefixClosed hclosed
    · exact fun p hp => absurd hp List.not_mem_nil
  · split
    · exact nil_notMem_below name children
    · exact List.not_mem_nil
  · intro q hne hlen
    constructor
    · intro hq
      split at hq
      · rename_i hkeep
        exact ⟨hq, [name], mem_below.mpr (.inl rfl), hroot q hq hlen ▸ List.prefix_refl _, le_rfl, hkeep⟩
      · cases hq
    · rintro ⟨hq, p, hp, -, hplen, hkeep⟩
      rw [hroot p hp hplen] at hkeep
      rwa [if_pos hkeep]

section Below

variable {depth : Nat} {keep : List α → Bool} {name : α} {is : List ι} {G G' : ι → List (List α)}

/-- Under the root: a longer path stays exactly when it has a kept one at or below it. -/
theorem Prunes.mem_under (h : ∀ i ∈ is, Prunes (depth + 1) (fun q => keep (name :: q)) (G i) (G' i))
    {q : List α} (hne : q ≠ []) (hlen : q.length ≤ depth + 1) :
    name :: q ∈ below name (is.map G') ↔ name :: q ∈ below name (is.map G) ∧
      ∃ p ∈ below name (is.map G), name :: q <+: p ∧ p.length ≤ depth + 2 ∧ keep p = true := by
  have hchild : ∀ {H : ι → List (List α)} {r : List α}, r ≠ [] →
      (name :: r ∈ below name (is.map H) ↔ ∃ i ∈ is, r ∈ H i) := by
    intro H r hr
    rw [mem_below]
    constructor
    · rintro (heq | ⟨paths, hpaths, s, hs, heq⟩)
      · exact absurd (List.cons.inj heq).2 hr
      · obtain ⟨i, hi, rfl⟩ := List.mem_map.mp hpaths
        exact ⟨i, hi, (List.cons.inj heq).2 ▸ hs⟩
    · rintro ⟨i, hi, hr⟩
      exact .inr ⟨H i, List.mem_map_of_mem hi, r, hr, rfl⟩
  constructor
  · intro hq
    obtain ⟨i, hi, hq⟩ := (hchild hne).mp hq
    obtain ⟨hG, p, hp, hpre, hplen, hkeep⟩ := ((h i hi).mem q hne hlen).mp hq
    have hpne : p ≠ [] := fun hnil => hne (List.prefix_nil.mp (hnil ▸ hpre))
    refine ⟨(hchild hne).mpr ⟨i, hi, hG⟩, name :: p, (hchild hpne).mpr ⟨i, hi, hp⟩, ?_, ?_, hkeep⟩
    · exact List.cons_prefix_cons.mpr ⟨rfl, hpre⟩
    · exact Nat.succ_le_succ hplen
  · rintro ⟨-, p, hp, hpre, hplen, hkeep⟩
    obtain ⟨rest, rfl⟩ := hpre
    rw [List.cons_append] at hp hplen hkeep
    have hpne : q ++ rest ≠ [] := List.append_ne_nil_of_left_ne_nil hne _
    obtain ⟨i, hi, hp⟩ := (hchild hpne).mp hp
    have hstays := (h i hi).mem_self hp hpne (Nat.le_of_succ_le_succ hplen) hkeep
    exact (hchild hne).mpr ⟨i, hi, (h i hi).closed _ hstays _ (List.prefix_append q rest) hne⟩

/-- One level further up. -/
theorem Prunes.below (h : ∀ i ∈ is, Prunes (depth + 1) (fun q => keep (name :: q)) (G i) (G' i)) {stays : Prop}
    [Decidable stays] (hstays : stays ↔ (∃ i ∈ is, G' i ≠ []) ∨ keep [name] = true) :
    Prunes (depth + 2) keep (Lib.below name (is.map G)) (if stays then Lib.below name (is.map G') else []) := by
  have hsource : PrefixClosed (Lib.below name (is.map G)) :=
    below_prefixClosed (List.forall_mem_map.mpr fun i hi => (h i hi).source)
  -- the root stays when something below it is kept, by the children's pruning
  have hroot : stays ↔ ∃ p ∈ Lib.below name (is.map G), p.length ≤ depth + 2 ∧ keep p = true := by
    rw [hstays]
    constructor
    · rintro (⟨i, hi, hne⟩ | hkeep)
      · obtain ⟨p, hp, hlen, hkeep⟩ := (h i hi).kept_of_ne_nil hne
        exact ⟨name :: p, mem_below.mpr (.inr ⟨G i, List.mem_map_of_mem hi, p, hp, rfl⟩),
          Nat.succ_le_succ hlen, hkeep⟩
      · exact ⟨[name], mem_below.mpr (.inl rfl), by simp, hkeep⟩
    · rintro ⟨p, hp, hlen, hkeep⟩
      rcases mem_below.mp hp with rfl | ⟨paths, hpaths, q, hq, rfl⟩
      · exact .inr hkeep
      · obtain ⟨i, hi, rfl⟩ := List.mem_map.mp hpaths
        by_cases hnil : q = []
        · exact .inr (hnil ▸ hkeep)
        · have hq' := (h i hi).mem_self hq hnil (Nat.le_of_succ_le_succ hlen) hkeep
          exact .inl ⟨i, hi, List.ne_nil_of_mem hq'⟩
  have hhead : ∀ p ∈ Lib.below name (is.map G), [name] <+: p := by
    intro p hp
    rcases mem_below.mp hp with rfl | ⟨_, _, q, _, rfl⟩
    · exact List.prefix_refl _
    · exact List.prefix_append [name] q
  by_cases hs : stays
  · rw [if_pos hs]
    refine ⟨hsource, below_prefixClosed (List.forall_mem_map.mpr fun i hi => (h i hi).closed),
      nil_notMem_below _ _, fun q hne hlen => ?_⟩
    obtain ⟨x, q, rfl⟩ := List.exists_cons_of_ne_nil hne
    by_cases hx : x = name
    · subst hx
      by_cases hnil : q = []
      · subst hnil
        obtain ⟨p, hp, hplen, hkeep⟩ := hroot.mp hs
        exact ⟨fun _ => ⟨mem_below.mpr (.inl rfl), p, hp, hhead p hp, hplen, hkeep⟩,
          fun _ => mem_below.mpr (.inl rfl)⟩
      · exact mem_under h hnil (Nat.le_of_succ_le_succ hlen)
    · have hother : ∀ H : ι → List (List α), x :: q ∉ Lib.below name (is.map H) := by
        intro H hq
        rcases mem_below.mp hq with heq | ⟨_, _, _, _, heq⟩ <;> exact hx (List.cons.inj heq).1
      exact ⟨fun hq => absurd hq (hother _), fun hq => absurd hq.1 (hother _)⟩
  · rw [if_neg hs]
    refine ⟨hsource, fun p hp => absurd hp List.not_mem_nil, List.not_mem_nil, fun q hne hlen => ?_⟩
    refine ⟨fun hq => absurd hq List.not_mem_nil, ?_⟩
    rintro ⟨-, p, hp, -, hplen, hkeep⟩
    exact absurd (hroot.mpr ⟨p, hp, hplen, hkeep⟩) hs

end Below

theorem below_filterMap {κ : Type} (name : α) (f : ι → Option κ) (paths : κ → List (List α)) (is : List ι) :
    below name ((is.filterMap f).map paths) = below name (is.map fun i => ((f i).map paths).getD []) := by
  refine congrArg ([name] :: ·) ?_
  rw [List.flatMap_map, List.flatMap_map]
  induction is with
  | nil => rfl
  | cons i is ih =>
      rw [List.flatMap_cons, ← ih]
      cases hf : f i with
      | none => rw [List.filterMap_cons_none hf]; rfl
      | some k => rw [List.filterMap_cons_some hf, List.flatMap_cons]; rfl

section Filtered

variable {κ μ : Type} {depth : Nat} {keep : List α → Bool} {name : α} {stays : Prop} [Decidable stays] {node : μ}
  {nodePaths : μ → List (List α)}

/-- A node of the last level, filtered by itself. -/
theorem Prunes.filtered {children : List (List (List α))} (hclosed : ∀ paths ∈ children, PrefixClosed paths)
    (hnode : nodePaths node = Lib.below name children) (hstays : stays ↔ keep [name] = true) :
    Prunes 1 keep (Lib.below name children) (((if stays then some node else none).map nodePaths).getD []) := by
  have hleaf := Prunes.leaf keep name hclosed
  by_cases hs : stays
  · rw [if_pos hs, Option.map_some, Option.getD_some, hnode]
    rwa [if_pos (hstays.mp hs)] at hleaf
  · rw [if_neg hs, Option.map_none, Option.getD_none]
    rwa [if_neg fun hkeep => hs (hstays.mpr hkeep)] at hleaf

/-- A node that is filtered after its children. -/
theorem Prunes.filterMap {is : List ι} {f : ι → Option κ} {G : ι → List (List α)} {paths : κ → List (List α)}
    (h : ∀ i ∈ is, Prunes (depth + 1) (fun q => keep (name :: q)) (G i) (((f i).map paths).getD []))
    (hpaths : ∀ k, paths k ≠ []) (hnode : nodePaths node = Lib.below name ((is.filterMap f).map paths))
    (hstays : stays ↔ is.filterMap f ≠ [] ∨ keep [name] = true) :
    Prunes (depth + 2) keep (Lib.below name (is.map G)) (((if stays then some node else none).map nodePaths).getD []) := by
  have hsome : is.filterMap f ≠ [] ↔ ∃ i ∈ is, ((f i).map paths).getD [] ≠ [] := by
    constructor
    · intro hne
      obtain ⟨k, hk⟩ := List.exists_mem_of_ne_nil _ hne
      obtain ⟨i, hi, hfi⟩ := List.mem_filterMap.mp hk
      refine ⟨i, hi, ?_⟩
      rw [hfi]
      exact hpaths k
    · rintro ⟨i, hi, hne⟩
      cases hf : f i with
      | none => exact absurd (by rw [hf]; rfl) hne
      | some k => exact List.ne_nil_of_mem (List.mem_filterMap.mpr ⟨i, hi, hf⟩)
  have hbelow := Prunes.below h (hstays.trans (or_congr_left hsome))
  by_cases hs : stays
  · rw [if_pos hs, Option.map_some, Option.getD_some, hnode, below_filterMap]
    rwa [if_pos hs] at hbelow
  · rw [if_neg hs, Option.map_none, Option.getD_none]
    rwa [if_neg hs] at hbelow

end Filtered

end Lib
