/-
# `Edge.TagNames` — two tags of an adapter under one name

`_unique_tag_names` counts the tags by their sanitised node id and gives the `k`-th of them,
from the second on, the suffix `_k`.  The names are different exactly when no node id reads,
sanitised, like a name that was given this way (`tagNamesUnique_iff`): `a`, `.a` and `a_2` are
named `a`, `a_2` and `a_2`.
-/
import UnifiedNamespace.Edge.Config

namespace Uns.Edge

open Py Lib

/-! ## Occurrences of a list's elements -/

section Occurrences

variable {α : Type*} [BEq α] [LawfulBEq α]

/-- The elements after `seen`, each with its number among its equals. -/
def occurrences (seen : List α) : List α → List (α × Nat)
  | [] => []
  | a :: as => (a, seen.count a + 1) :: occurrences (a :: seen) as

theorem mem_occurrences {as : List α} {seen : List α} {b : α} {k : Nat} :
    (b, k) ∈ occurrences seen as ↔ seen.count b < k ∧ k ≤ seen.count b + as.count b := by
  induction as generalizing seen with
  | nil =>
      simp only [occurrences, List.not_mem_nil, List.count_nil, false_iff]
      omega
  | cons a as ih =>
      rw [occurrences, List.mem_cons, ih, Prod.mk.injEq]
      by_cases hab : b = a
      · subst hab
        rw [List.count_cons_self, List.count_cons_self]
        constructor
        · rintro (⟨-, rfl⟩ | h) <;> omega
        · intro h
          by_cases hk : k = seen.count b + 1
          · exact .inl ⟨rfl, hk⟩
          · exact .inr ⟨by omega, by omega⟩
      · rw [List.count_cons_of_ne (Ne.symm hab), List.count_cons_of_ne (Ne.symm hab)]
        exact ⟨fun h => h.resolve_left fun h => hab h.1, .inr⟩

theorem nodup_occurrences (seen as : List α) : (occurrences seen as).Nodup := by
  induction as generalizing seen with
  | nil => exact List.nodup_nil
  | cons a as ih =>
      refine List.nodup_cons.mpr ⟨fun h => ?_, ih _⟩
      have hlt := (mem_occurrences.mp h).1
      rw [List.count_cons_self] at hlt
      omega

end Occurrences

/-! ## The names -/

/-- The name of the `k`-th tag with the sanitised id `base`. -/
def numbered (base : Str) (k : Nat) : Str := if k = 1 then base else base ++ lit "_" ++ decimal k

def bases (tags : List EdgeTagInput) : List Str := tags.map fun tag => tagXmlName tag.nodeId

theorem uniqueTagNames_eq (seen : List Str) (tags : List EdgeTagInput) :
    uniqueTagNames seen tags = (occurrences seen (bases tags)).map fun o => numbered o.1 o.2 := by
  induction tags generalizing seen with
  | nil => rfl
  | cons tag tags ih =>
      have hbases : bases (tag :: tags) = tagXmlName tag.nodeId :: bases tags := rfl
      rw [uniqueTagNames, ih, hbases, occurrences, List.map_cons, numbered]
      congr 1
      by_cases h : seen.count (tagXmlName tag.nodeId) = 0
      · rw [if_pos h, if_pos (by omega)]
      · rw [if_neg h, if_neg (by omega)]

theorem length_uniqueTagNames (seen : List Str) (tags : List EdgeTagInput) :
    (uniqueTagNames seen tags).length = tags.length := by
  induction tags generalizing seen with
  | nil => rfl
  | cons tag tags ih => rw [uniqueTagNames, List.length_cons, ih, List.length_cons]

theorem underscore_notMem_decimal (n : Nat) : 95 ∉ decimal n := by
  intro h
  exact absurd (isDigit_of_mem_decimal h) (by decide)

theorem suffix_injective {b c : Str} {j k : Nat}
    (h : b ++ lit "_" ++ decimal j = c ++ lit "_" ++ decimal k) : b = c ∧ j = k := by
  rw [List.append_assoc, List.append_assoc] at h
  obtain ⟨hbase, hnumber⟩ :=
    append_cons_inj_last (underscore_notMem_decimal j) (underscore_notMem_decimal k) h
  exact ⟨hbase, decimal_injective hnumber⟩

/-- No sanitised node id is the name that the `k`-th tag of some id receives, `k ≥ 2`. -/
def SuffixFree (tags : List EdgeTagInput) : Prop :=
  ∀ base ∈ bases tags, ∀ k < (bases tags).count base + 1, 2 ≤ k → base ++ lit "_" ++ decimal k ∉ bases tags

instance (tags : List EdgeTagInput) : Decidable (SuffixFree tags) :=
  inferInstanceAs (Decidable (∀ base ∈ bases tags, ∀ k < (bases tags).count base + 1,
    2 ≤ k → base ++ lit "_" ++ decimal k ∉ bases tags))

theorem nodup_uniqueTagNames_iff (tags : List EdgeTagInput) :
    (uniqueTagNames [] tags).Nodup ↔ SuffixFree tags := by
  rw [uniqueTagNames_eq, List.nodup_map_iff_inj_on (nodup_occurrences _ _)]
  have hmem : ∀ {b k}, (b, k) ∈ occurrences [] (bases tags) ↔ 0 < k ∧ k ≤ (bases tags).count b := by
    intro b k
    rw [mem_occurrences, List.count_nil, Nat.zero_add]
  constructor
  · intro hinj base hbase k hk h2 hgiven
    have hsuffixed := hmem.mpr (⟨by omega, by omega⟩ : 0 < k ∧ k ≤ (bases tags).count base)
    have hplain := hmem.mpr (⟨Nat.one_pos, List.count_pos_iff.mpr hgiven⟩ :
      0 < 1 ∧ 1 ≤ (bases tags).count (base ++ lit "_" ++ decimal k))
    have heq := hinj _ hsuffixed _ hplain (by rw [numbered, numbered, if_neg (by omega), if_pos rfl])
    have hone : k = 1 := congrArg Prod.snd heq
    omega
  · rintro hfree ⟨b, j⟩ hb ⟨c, k⟩ hc h
    obtain ⟨hj, hjb⟩ := hmem.mp hb
    obtain ⟨hk, hkc⟩ := hmem.mp hc
    have hbmem : b ∈ bases tags := List.count_pos_iff.mp (by omega)
    have hcmem : c ∈ bases tags := List.count_pos_iff.mp (by omega)
    simp only [numbered] at h
    -- a suffixed name and a plain one are different by `hfree`, two of a kind have equal parts
    by_cases hj1 : j = 1 <;> by_cases hk1 : k = 1
    · rw [if_pos hj1, if_pos hk1] at h
      rw [h, hj1, hk1]
    · rw [if_pos hj1, if_neg hk1] at h
      exact absurd (h ▸ hbmem) (hfree c hcmem k (by omega) (by omega))
    · rw [if_neg hj1, if_pos hk1] at h
      exact absurd (h ▸ hcmem) (hfree b hbmem j (by omega) (by omega))
    · rw [if_neg hj1, if_neg hk1] at h
      obtain ⟨hbase, hnumber⟩ := suffix_injective h
      rw [hbase, hnumber]

/-! ## The names in a rendered adapter -/

theorem esc_of_safe {s : Str} (h : ∀ c ∈ s, isSafe c = true) : esc s = s := by
  induction s with
  | nil => rfl
  | cons c s ih =>
      have hc := h c List.mem_cons_self
      have hsafe : ∀ d, isSafe d = false → c ≠ d := by
        rintro d hd rfl
        rw [hc] at hd
        cases hd
      have hchar : escChar c = [c] := by
        rw [escChar, if_neg (hsafe 38 rfl), if_neg (hsafe 60 rfl), if_neg (hsafe 62 rfl), if_neg (hsafe 34 rfl)]
      rw [esc, List.flatMap_cons, hchar]
      exact congrArg (c :: ·) (ih fun d hd => h d (List.mem_cons_of_mem _ hd))

theorem isSafe_of_mem_subUnsafe {inRun : Bool} {s : Str} {c : Nat} (h : c ∈ subUnsafe inRun s) :
    isSafe c = true := by
  induction s generalizing inRun with
  | nil => cases h
  | cons d s ih =>
      rw [subUnsafe] at h
      split at h
      · rename_i hd
        rcases List.mem_cons.mp h with rfl | h
        · exact hd
        · exact ih h
      · split at h
        · exact ih h
        · rcases List.mem_cons.mp h with rfl | h
          · rfl
          · exact ih h

theorem isSafe_of_mem_tagXmlName {nodeId : Str} {c : Nat} (h : c ∈ tagXmlName nodeId) : isSafe c = true := by
  rw [tagXmlName] at h
  split at h
  · revert c
    decide
  · have hin := (List.dropWhile_suffix _).subset (List.mem_reverse.mp h)
    exact isSafe_of_mem_subUnsafe ((List.dropWhile_suffix _).subset (List.mem_reverse.mp hin))

theorem isSafe_of_mem_uniqueTagNames {tags : List EdgeTagInput} {name : Str}
    (h : name ∈ uniqueTagNames [] tags) : ∀ c ∈ name, isSafe c = true := by
  rw [uniqueTagNames_eq] at h
  obtain ⟨⟨base, k⟩, ho, rfl⟩ := List.mem_map.mp h
  obtain ⟨hpos, hle⟩ := mem_occurrences.mp ho
  rw [List.count_nil] at hpos hle
  obtain ⟨tag, -, hbase⟩ := List.mem_map.mp (List.count_pos_iff.mp (by omega : 0 < (bases tags).count base))
  have hsafe : ∀ c ∈ base, isSafe c = true := fun c hc => isSafe_of_mem_tagXmlName (hbase ▸ hc)
  intro c hc
  simp only [numbered] at hc
  split at hc
  · exact hsafe c hc
  · rcases List.mem_append.mp hc with hc | hc
    · rcases List.mem_append.mp hc with hc | hc
      · exact hsafe c hc
      · rw [List.mem_singleton.mp hc]
        rfl
    · have hdigit := isDigit_iff.mp (isDigit_of_mem_decimal hc)
      exact decide_eq_true (.inr (.inr (.inl hdigit)))

/-- The tags of an adapter with their names, in the order they are rendered. -/
def entries (adapter : EdgeAdapterInput) : List (EdgeTagInput × Str) :=
  adapter.tags.zip (uniqueTagNames [] adapter.tags)

/-- The text of the mapping's `tagName` is the text of the tag's `name`. -/
def RefersTo (mapping tag : EdgeTagInput × Str) : Prop := esc mapping.2 = esc tag.2

instance (mapping tag : EdgeTagInput × Str) : Decidable (RefersTo mapping tag) :=
  inferInstanceAs (Decidable (esc mapping.2 = esc tag.2))

/-- The names are different, and each mapping refers to one tag, the one with its topic. -/
structure TagNamesUnique (adapter : EdgeAdapterInput) : Prop where
  names : (uniqueTagNames [] adapter.tags).Nodup
  mappings : ∀ mapping ∈ entries adapter, (entries adapter).filter (fun tag => RefersTo mapping tag) = [mapping]

theorem map_snd_entries (adapter : EdgeAdapterInput) :
    (entries adapter).map Prod.snd = uniqueTagNames [] adapter.tags := by
  rw [entries, List.map_snd_zip (length_uniqueTagNames _ _).le]

theorem TagNamesUnique.of_nodup {adapter : EdgeAdapterInput} (h : (uniqueTagNames [] adapter.tags).Nodup) :
    TagNamesUnique adapter := by
  refine ⟨h, fun mapping hmapping => ?_⟩
  have hname : ∀ entry ∈ entries adapter, esc entry.2 = entry.2 := by
    intro entry hentry
    have hused : entry.2 ∈ uniqueTagNames [] adapter.tags := by
      rw [← map_snd_entries]
      exact List.mem_map_of_mem hentry
    exact esc_of_safe (isSafe_of_mem_uniqueTagNames hused)
  rw [← map_snd_entries] at h
  have hsame : ∀ tag ∈ entries adapter, RefersTo mapping tag ↔ tag = mapping := by
    intro tag htag
    rw [RefersTo, hname _ hmapping, hname _ htag]
    exact ⟨fun heq => List.inj_on_of_nodup_map h htag hmapping heq.symm, fun heq => heq ▸ rfl⟩
  have hnodup := (List.Nodup.of_map _ h).filter (fun tag => decide (RefersTo mapping tag))
  refine List.perm_singleton.mp ((List.perm_ext_iff_of_nodup hnodup (List.nodup_singleton _)).mpr fun tag => ?_)
  rw [List.mem_filter, decide_eq_true_iff, List.mem_singleton]
  constructor
  · rintro ⟨htag, href⟩
    exact (hsame tag htag).mp href
  · rintro rfl
    exact ⟨hmapping, (hsame tag hmapping).mpr rfl⟩

/-- The names are unique exactly when no sanitised node id looks like a suffixed name. -/
theorem tagNamesUnique_iff (adapter : EdgeAdapterInput) : TagNamesUnique adapter ↔ SuffixFree adapter.tags :=
  ⟨fun h => (nodup_uniqueTagNames_iff _).mp h.names, fun h => .of_nodup ((nodup_uniqueTagNames_iff _).mpr h)⟩

/-! ## Three tags -/

def adapterOf (nodeIds : List Str) : EdgeAdapterInput :=
  ⟨lit "plc-1", lit "s7", lit "10.0.0.1", 102, [], defaultControllerType,
    nodeIds.map fun nodeId => ⟨nodeId, nodeId, lit "acme/" ++ nodeId, none⟩⟩

/-- The third id reads like the second name. -/
theorem third_name_taken : ¬ ∀ adapter : EdgeAdapterInput, (adapter.tags.map (·.nodeId)).Nodup →
    TagNamesUnique adapter := by
  intro h
  have hnames := (h (adapterOf [lit "a", lit ".a", lit "a_2"]) (by decide +kernel)).names
  revert hnames
  decide +kernel

end Uns.Edge
