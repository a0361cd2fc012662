/-
# `Sparkplug.TopicFold` — the metrics of one topic

The message of a topic keeps one timestamp for all its tags, and a value that is met under a
tag for the first time after another tag joins a list that starts with `None`.  `fold_iff`:
the message holds of every tag what was reported for it, newest first, exactly when all metrics
have one tag, none of the other keys, and each comes before or after all that came earlier.
-/
import UnifiedNamespace.Sparkplug.UnsMapper

namespace Uns.Sparkplug

open Py Lib

/-- A metric of a topic. -/
structure TagMetric where
  tag : Str
  value : Value
  timestamp : Nat
  isHistorical : Bool

def TagMetric.reading (x : TagMetric) : UnsValue := .reading x.value x.timestamp x.isHistorical

/-- The message that is left of another, or of none, by the metrics in turn; `none`: one raises. -/
def foldMetrics (spbContext : SpbContext) : Option UnsMessage → List TagMetric → Option (Option UnsMessage)
  | parsed, [] => some parsed
  | parsed, x :: xs =>
      (extractUnsMessage parsed x.tag x.value x.timestamp x.isHistorical spbContext).bind fun message =>
        foldMetrics spbContext (some message) xs

/-! ## What a message holds -/

/-- What stands under a tag: one value, or a list. -/
def UnsMessage.held (message : UnsMessage) (tag : Str) : List UnsValue :=
  match message.get? tag with
  | some (.list xs) => xs
  | some v => [v]
  | none => []

/-- Readings, the newest first. -/
def NewestFirst (vs : List UnsValue) : Prop :=
  ∃ rs : List TagMetric, rs.Pairwise (fun a b => b.timestamp ≤ a.timestamp) ∧ vs = rs.map TagMetric.reading

/-- Each tag holds what was reported for it, the newest first, and the timestamp is the maximum. -/
structure Holds (message : UnsMessage) (xs : List TagMetric) : Prop where
  values : ∀ tag ∈ xs.map TagMetric.tag,
    (message.held tag).Perm ((xs.filter fun x => x.tag = tag).map TagMetric.reading)
  newestFirst : ∀ tag ∈ xs.map TagMetric.tag, NewestFirst (message.held tag)
  timestamp : ∃ t, message.get? (lit "timestamp") = some (.timestamp t) ∧ (∀ x ∈ xs, x.timestamp ≤ t) ∧
    ∃ x ∈ xs, x.timestamp = t

/-- The metrics are folded into a message that holds them. -/
def Faithful (spbContext : SpbContext) (xs : List TagMetric) : Prop :=
  ∃ message, foldMetrics spbContext none xs = some (some message) ∧ Holds message xs

/-- Each metric is at least as new, or at most as new, as all before it. -/
def AtEnds : List TagMetric → List TagMetric → Prop
  | _, [] => True
  | before, x :: xs =>
      ((∀ e ∈ before, e.timestamp ≤ x.timestamp) ∨ (∀ e ∈ before, x.timestamp ≤ e.timestamp)) ∧
        AtEnds (before ++ [x]) xs

/-! ## One metric -/

section

variable {message next : UnsMessage} {spbContext : SpbContext} {x : TagMetric} {tag : Str}

theorem NewestFirst.sublist {vs ws : List UnsValue} (h : NewestFirst ws) (hsub : vs.Sublist ws) : NewestFirst vs := by
  obtain ⟨rs, hsorted, rfl⟩ := h
  obtain ⟨rs', hrs', rfl⟩ := List.sublist_map_iff.mp hsub
  exact ⟨rs', hsorted.sublist hrs', rfl⟩

/-- Nothing but readings is newest first. -/
theorem NewestFirst.reading {vs : List UnsValue} (h : NewestFirst vs) {v : UnsValue} (hv : v ∈ vs) :
    ∃ x : TagMetric, v = x.reading := by
  obtain ⟨rs, -, rfl⟩ := h
  obtain ⟨x, -, rfl⟩ := List.mem_map.mp hv
  exact ⟨x, rfl⟩

theorem not_newestFirst_of_mem {vs : List UnsValue} {v : UnsValue} (hv : v ∈ vs)
    (hne : ∀ x : TagMetric, v ≠ x.reading) : ¬ NewestFirst vs := fun h =>
  have ⟨x, hx⟩ := h.reading hv
  hne x hx

/-- What stood under the tag before, with a `None` for nothing. -/
def oldList (message : UnsMessage) (tag : Str) : List UnsValue :=
  match message.get? tag with
  | some (.list xs) => xs
  | some v => [v]
  | none => [.null]

/-- A metric joins the list of its tag, in front when none is newer, and the other tags stay. -/
theorem extract_eq (message : UnsMessage) (spbContext : SpbContext) (x : TagMetric) :
    extractUnsMessage (some message) x.tag x.value x.timestamp x.isHistorical spbContext =
      match message.get? (lit "timestamp") with
      | some (.timestamp newest) =>
          if x.timestamp < newest then
            some (message.update x.tag .null fun _ => .list (oldList message x.tag ++ [x.reading]))
          else
            some ((message.update (lit "timestamp") .null fun _ => .timestamp x.timestamp).update x.tag .null fun _ =>
              .list (x.reading :: oldList message x.tag))
      | _ => none := rfl

theorem extract_cases
    (h : extractUnsMessage (some message) x.tag x.value x.timestamp x.isHistorical spbContext = some next) :
    ∃ newest, message.get? (lit "timestamp") = some (.timestamp newest) ∧
      ((x.timestamp < newest ∧
        next = message.update x.tag .null fun _ => .list (oldList message x.tag ++ [x.reading])) ∨
      (newest ≤ x.timestamp ∧
        next = (message.update (lit "timestamp") .null fun _ => .timestamp x.timestamp).update x.tag .null fun _ =>
          .list (x.reading :: oldList message x.tag))) := by
  rw [extract_eq] at h
  split at h
  · next newest hnewest =>
      refine ⟨newest, hnewest, ?_⟩
      split at h
      · next hlt =>
          cases h
          exact .inl ⟨hlt, rfl⟩
      · next hle =>
          cases h
          exact .inr ⟨not_lt.mp hle, rfl⟩
  · cases h

theorem held_update (message : UnsMessage) (tag : Str) (vs : List UnsValue) :
    UnsMessage.held (message.update tag .null fun _ => .list vs) tag = vs := by
  rw [UnsMessage.held, Dict.get?_update_self]

theorem held_update_ne {other : Str} (h : tag ≠ other) (v : UnsValue) :
    UnsMessage.held (message.update other .null fun _ => v) tag = message.held tag := by
  rw [UnsMessage.held, Dict.get?_update_ne _ _ _ h, UnsMessage.held]

theorem held_sublist_oldList (message : UnsMessage) (tag : Str) : (message.held tag).Sublist (oldList message tag) := by
  rw [UnsMessage.held, oldList]
  cases message.get? tag with
  | none => exact List.nil_sublist _
  | some v => cases v <;> exact List.Sublist.refl _

theorem oldList_eq_held {v : UnsValue} (h : message.get? tag = some v) : oldList message tag = message.held tag := by
  rw [UnsMessage.held, oldList, h]
  cases v <;> rfl

/-- The old list stays a part of what is held. -/
theorem oldList_sublist_held
    (h : extractUnsMessage (some message) x.tag x.value x.timestamp x.isHistorical spbContext = some next) :
    (oldList message x.tag).Sublist (next.held x.tag) := by
  obtain ⟨newest, -, ⟨-, rfl⟩ | ⟨-, rfl⟩⟩ := extract_cases h
  · rw [held_update]
    exact List.sublist_append_left _ _
  · rw [held_update]
    exact List.sublist_cons_self _ _

theorem held_of_get? {v : UnsValue} (h : message.get? tag = some v) (hv : ∀ xs, v ≠ .list xs) :
    message.held tag = [v] := by
  rw [UnsMessage.held, h]
  cases v with
  | list xs => exact absurd rfl (hv xs)
  | null => rfl
  | reading value timestamp isHistorical => rfl
  | timestamp t => rfl
  | text s => rfl

theorem not_newestFirst_single {v : UnsValue} (h : message.get? tag = some v) (hlist : ∀ xs, v ≠ .list xs)
    (hne : ∀ x : TagMetric, v ≠ x.reading) : ¬ NewestFirst (message.held tag) := by
  rw [held_of_get? h hlist]
  exact not_newestFirst_of_mem (List.mem_singleton.mpr rfl) hne

/-- What is held out of order stays so. -/
theorem spoilt_extract
    (h : extractUnsMessage (some message) x.tag x.value x.timestamp x.isHistorical spbContext = some next)
    (hspoilt : ¬ NewestFirst (message.held tag)) : ¬ NewestFirst (next.held tag) := by
  rcases eq_or_ne tag x.tag with rfl | hne
  · exact fun hnext => hspoilt (hnext.sublist ((held_sublist_oldList message x.tag).trans (oldList_sublist_held h)))
  · obtain ⟨newest, -, ⟨-, rfl⟩ | ⟨-, rfl⟩⟩ := extract_cases h
    · rwa [held_update_ne hne]
    · rcases eq_or_ne tag (lit "timestamp") with rfl | hts
      · refine not_newestFirst_single (v := .timestamp x.timestamp) ?_ (fun xs h => by cases h) fun y h => by cases h
        rw [Dict.get?_update_ne _ _ _ hne, Dict.get?_update_self]
      · rwa [held_update_ne hne, held_update_ne hts]

theorem spoilt_fold {xs : List TagMetric} {last : UnsMessage}
    (h : foldMetrics spbContext (some message) xs = some (some last)) (hspoilt : ¬ NewestFirst (message.held tag)) :
    ¬ NewestFirst (last.held tag) := by
  induction xs generalizing message with
  | nil =>
      cases h
      exact hspoilt
  | cons x xs ih =>
      obtain ⟨next, hnext, hfold⟩ := Option.bind_eq_some_iff.mp h
      exact ih hfold (spoilt_extract hnext hspoilt)

/-- A tag that is new to a message starts with a `None`. -/
theorem spoilt_of_new
    (h : extractUnsMessage (some message) x.tag x.value x.timestamp x.isHistorical spbContext = some next)
    (hnew : message.get? x.tag = none) : ¬ NewestFirst (next.held x.tag) := by
  have hnull : UnsValue.null ∈ oldList message x.tag := by
    rw [oldList, hnew]
    exact List.mem_singleton.mpr rfl
  exact not_newestFirst_of_mem ((oldList_sublist_held h).subset hnull) fun y h => by cases h

end

/-! ## A message of one tag -/

/-- The message after metrics of one tag, each before or after the earlier ones. -/
structure OneTag (message : UnsMessage) (tag : Str) (before : List TagMetric) : Prop where
  others : ∀ other, other ≠ tag → message.get? other = none ∨ ¬ NewestFirst (message.held other)
  known : (message.get? tag).isSome
  tags : ∀ x ∈ before, x.tag = tag
  held : ∃ rs : List TagMetric, rs.Perm before ∧ rs.Pairwise (fun a b => b.timestamp ≤ a.timestamp) ∧
    message.held tag = rs.map TagMetric.reading
  timestamp : ∃ t, message.get? (lit "timestamp") = some (.timestamp t) ∧ (∀ x ∈ before, x.timestamp ≤ t) ∧
    ∃ x ∈ before, x.timestamp = t

section

variable {message : UnsMessage} {spbContext : SpbContext} {tag : Str} {before xs : List TagMetric} {x : TagMetric}

theorem OneTag.holds (h : OneTag message tag before) : Holds message before := by
  obtain ⟨rs, hperm, hsorted, hheld⟩ := h.held
  have htag : ∀ other ∈ before.map TagMetric.tag, other = tag := by
    intro other hother
    obtain ⟨x, hx, rfl⟩ := List.mem_map.mp hother
    exact h.tags x hx
  refine ⟨fun other hother => ?_, fun other hother => ?_, h.timestamp⟩
  · rw [htag other hother, hheld, List.filter_eq_self.mpr fun x hx => decide_eq_true (h.tags x hx)]
    exact hperm.map _
  · rw [htag other hother]
    exact ⟨rs, hsorted, hheld⟩

theorem OneTag.ne_timestamp (h : OneTag message tag before) : tag ≠ lit "timestamp" := by
  rintro rfl
  obtain ⟨rs, -, -, hheld⟩ := h.held
  obtain ⟨t, hget, -, -⟩ := h.timestamp
  rw [held_of_get? hget fun xs h => by cases h] at hheld
  cases rs with
  | nil => cases hheld
  | cons r rs => cases (List.cons.inj hheld).1

/-- A metric joins a message that has a timestamp. -/
theorem OneTag.extract (h : OneTag message tag before) (x : TagMetric) :
    ∃ next, extractUnsMessage (some message) x.tag x.value x.timestamp x.isHistorical spbContext = some next := by
  obtain ⟨t, hget, -, -⟩ := h.timestamp
  rw [extract_eq, hget]
  dsimp only
  split
  · exact ⟨_, rfl⟩
  · exact ⟨_, rfl⟩

variable {next : UnsMessage}

/-- Other tags are still new to the message, or spoilt. -/
theorem OneTag.others_next (h : OneTag message tag before) (htag : x.tag = tag)
    (hnext : extractUnsMessage (some message) x.tag x.value x.timestamp x.isHistorical spbContext = some next)
    {other : Str} (hother : other ≠ tag) : next.get? other = none ∨ ¬ NewestFirst (next.held other) := by
  rcases h.others other hother with hnone | hspoilt
  · refine .inl ?_
    have hts : other ≠ lit "timestamp" := by
      rintro rfl
      obtain ⟨t, hget, -, -⟩ := h.timestamp
      cases hnone.symm.trans hget
    have hne : other ≠ x.tag := fun heq => hother (heq.trans htag)
    obtain ⟨newest, -, ⟨-, rfl⟩ | ⟨-, rfl⟩⟩ := extract_cases hnext
    · rwa [Dict.get?_update_ne _ _ _ hne]
    · rwa [Dict.get?_update_ne _ _ _ hne, Dict.get?_update_ne _ _ _ hts]
  · exact .inr (spoilt_extract hnext hspoilt)

/-- A metric before or after all the earlier ones keeps the message in order. -/
theorem OneTag.step (h : OneTag message tag before) (htag : x.tag = tag)
    (hnext : extractUnsMessage (some message) x.tag x.value x.timestamp x.isHistorical spbContext = some next)
    (hends : (∀ e ∈ before, e.timestamp ≤ x.timestamp) ∨ (∀ e ∈ before, x.timestamp ≤ e.timestamp)) :
    OneTag next tag (before ++ [x]) := by
  obtain ⟨rs, hperm, hsorted, hheld⟩ := h.held
  obtain ⟨t, hget, hmax, newer, hnewer, hnewest⟩ := h.timestamp
  have hts := h.ne_timestamp.symm
  obtain ⟨v, hv⟩ := Option.isSome_iff_exists.mp h.known
  have hold : oldList message x.tag = rs.map TagMetric.reading := by
    rw [htag, oldList_eq_held hv, hheld]
  have hcat : (before ++ [x]).Perm (x :: before) := List.perm_append_singleton x before
  have htags : ∀ y ∈ before ++ [x], y.tag = tag := by
    intro y hy
    rcases List.mem_cons.mp (hcat.mem_iff.mp hy) with rfl | hy
    · exact htag
    · exact h.tags y hy
  have hothers := fun other (hother : other ≠ tag) => h.others_next htag hnext hother
  obtain ⟨newest, hnewestget, ⟨hlt, rfl⟩ | ⟨hle, rfl⟩⟩ := extract_cases hnext
  · -- the metric is older than one before it, so it is at most as new as all of them
    cases hnewestget.symm.trans hget
    have hold' : ∀ e ∈ before, x.timestamp ≤ e.timestamp := by
      refine hends.resolve_left fun hall => ?_
      have hle := hall newer hnewer
      omega
    refine ⟨hothers, ?_, htags, ⟨rs ++ [x], hperm.append_right [x], ?_, ?_⟩, t, ?_, fun y hy => ?_, newer, ?_, hnewest⟩
    · rw [htag, Dict.get?_update_self]
      rfl
    · refine List.pairwise_append.mpr ⟨hsorted, List.pairwise_singleton _ _, fun e he y hy => ?_⟩
      rw [List.mem_singleton.mp hy]
      exact hold' e (hperm.mem_iff.mp he)
    · rw [← htag, held_update, hold, List.map_append]
      rfl
    · rwa [htag, Dict.get?_update_ne _ _ _ hts]
    · rcases List.mem_cons.mp (hcat.mem_iff.mp hy) with rfl | hy
      · exact hlt.le
      · exact hmax y hy
    · exact List.mem_append_left _ hnewer
  · cases hnewestget.symm.trans hget
    refine ⟨hothers, ?_, htags, ⟨x :: rs, (hperm.cons x).trans hcat.symm, ?_, ?_⟩, x.timestamp, ?_, fun y hy => ?_, x, ?_,
      rfl⟩
    · rw [htag, Dict.get?_update_self]
      rfl
    · exact List.pairwise_cons.mpr ⟨fun e he => (hmax e (hperm.mem_iff.mp he)).trans hle, hsorted⟩
    · rw [← htag, held_update, hold, List.map_cons]
    · rw [htag, Dict.get?_update_ne _ _ _ hts, Dict.get?_update_self]
    · rcases List.mem_cons.mp (hcat.mem_iff.mp hy) with rfl | hy
      · exact le_rfl
      · exact (hmax y hy).trans hle
    · exact List.mem_append_right _ (List.mem_singleton.mpr rfl)

/-- The time of a reading. -/
def UnsValue.stamp : UnsValue → Nat
  | .reading _ t _ => t
  | _ => 0

theorem NewestFirst.stamps {vs : List UnsValue} (h : NewestFirst vs) :
    (vs.map UnsValue.stamp).Pairwise fun a b => b ≤ a := by
  obtain ⟨rs, hsorted, rfl⟩ := h
  rw [List.map_map]
  exact List.pairwise_map.mpr hsorted

/-- A metric between the earlier ones is appended out of order. -/
theorem OneTag.spoilt (h : OneTag message tag before) (htag : x.tag = tag)
    (hnext : extractUnsMessage (some message) x.tag x.value x.timestamp x.isHistorical spbContext = some next)
    (hends : ¬ ((∀ e ∈ before, e.timestamp ≤ x.timestamp) ∨ (∀ e ∈ before, x.timestamp ≤ e.timestamp))) :
    ¬ NewestFirst (next.held tag) := by
  intro hordered
  obtain ⟨rs, hperm, -, hheld⟩ := h.held
  obtain ⟨t, hget, hmax, -⟩ := h.timestamp
  obtain ⟨v, hv⟩ := Option.isSome_iff_exists.mp h.known
  have hold : oldList message x.tag = rs.map TagMetric.reading := by
    rw [htag, oldList_eq_held hv, hheld]
  obtain ⟨newest, hnewestget, ⟨-, rfl⟩ | ⟨hle, -⟩⟩ := extract_cases hnext
  · rw [← htag, held_update, hold] at hordered
    have hstamps := hordered.stamps
    rw [List.map_append, List.map_map] at hstamps
    have hafter := (List.pairwise_append.mp hstamps).2.2
    refine hends (.inr fun e he => ?_)
    exact hafter e.timestamp (List.mem_map.mpr ⟨e, hperm.mem_iff.mpr he, rfl⟩) x.timestamp (List.mem_singleton.mpr rfl)
  · cases hnewestget.symm.trans hget
    exact hends (.inl fun e he => (hmax e he).trans hle)

/-- More metrics keep the message right exactly when they have its tag and come before or after all earlier ones. -/
theorem fold_oneTag_iff (h : OneTag message tag before) :
    (∃ last, foldMetrics spbContext (some message) xs = some (some last) ∧ Holds last (before ++ xs)) ↔
      (∀ x ∈ xs, x.tag = tag) ∧ AtEnds before xs := by
  induction xs generalizing message before with
  | nil =>
      rw [List.append_nil]
      exact ⟨fun _ => ⟨fun x hx => absurd hx List.not_mem_nil, trivial⟩, fun _ => ⟨message, rfl, h.holds⟩⟩
  | cons x xs ih =>
      obtain ⟨next, hnext⟩ : ∃ next, extractUnsMessage (some message) x.tag x.value x.timestamp x.isHistorical spbContext =
          some next := h.extract x
      have hfold : foldMetrics spbContext (some message) (x :: xs) = foldMetrics spbContext (some next) xs := by
        rw [foldMetrics, hnext, Option.bind_some]
      have hmem : x.tag ∈ (before ++ x :: xs).map TagMetric.tag :=
        List.mem_map_of_mem (List.mem_append_right _ List.mem_cons_self)
      have hspoils : ¬ NewestFirst (next.held x.tag) → ¬ ∃ last,
          foldMetrics spbContext (some message) (x :: xs) = some (some last) ∧ Holds last (before ++ x :: xs) := by
        rintro hspoilt ⟨last, hlast, hholds⟩
        exact spoilt_fold (hfold ▸ hlast) hspoilt (hholds.newestFirst x.tag hmem)
      rw [List.forall_mem_cons, AtEnds]
      rcases eq_or_ne x.tag tag with htag | hne
      · by_cases hends : (∀ e ∈ before, e.timestamp ≤ x.timestamp) ∨ (∀ e ∈ before, x.timestamp ≤ e.timestamp)
        · rw [hfold, ← List.singleton_append, ← List.append_assoc, ih (h.step htag hnext hends)]
          tauto
        · refine iff_of_false (hspoils ?_) fun hright => hends hright.2.1
          rw [htag]
          exact h.spoilt htag hnext hends
      · refine iff_of_false (hspoils ?_) fun hright => hne hright.1.1
        rcases h.others x.tag hne with hnone | hspoilt
        · exact spoilt_of_new hnext hnone
        · exact spoilt_extract hnext hspoilt

end

/-! ## The first metric -/

/-- The message of the first metric. -/
def firstMessage (spbContext : SpbContext) (x : TagMetric) : UnsMessage :=
  spbContext.foldl (fun message e => message.update e.1 .null fun _ => .text e.2)
    ((Dict.empty.update x.tag .null fun _ => x.reading).update (lit "timestamp") .null fun _ => .timestamp x.timestamp)

/-- The context replaces what stands under its keys. -/
theorem get?_context (spbContext : SpbContext) (message : UnsMessage) (key : Str) :
    if key ∈ spbContext.map Prod.fst then ∃ s, (spbContext.foldl (fun message e => message.update e.1 .null fun _ =>
        .text e.2) message).get? key = some (.text s)
    else (spbContext.foldl (fun message e => message.update e.1 .null fun _ => .text e.2) message).get? key =
      message.get? key := by
  induction spbContext generalizing message with
  | nil => rfl
  | cons e es ih =>
      have hrest := ih (message.update e.1 .null fun _ => .text e.2)
      rw [List.foldl_cons, List.map_cons]
      by_cases hes : key ∈ es.map Prod.fst
      · rw [if_pos (List.mem_cons_of_mem _ hes)]
        rwa [if_pos hes] at hrest
      · rw [if_neg hes] at hrest
        rcases eq_or_ne key e.1 with rfl | hne
        · rw [if_pos List.mem_cons_self, hrest, Dict.get?_update_self]
          exact ⟨e.2, rfl⟩
        · rw [if_neg (List.not_mem_cons_of_ne_of_not_mem hne hes), hrest, Dict.get?_update_ne _ _ _ hne]

section

variable {spbContext : SpbContext} {x : TagMetric} {key : Str}

theorem get?_firstMessage_context (h : key ∈ spbContext.map Prod.fst) :
    ∃ s, (firstMessage spbContext x).get? key = some (.text s) := by
  have hget := get?_context spbContext ((Dict.empty.update x.tag .null fun _ => x.reading).update (lit "timestamp") .null
    fun _ => .timestamp x.timestamp) key
  rwa [if_pos h] at hget

theorem get?_firstMessage (h : key ∉ spbContext.map Prod.fst) : (firstMessage spbContext x).get? key =
    if key = lit "timestamp" then some (.timestamp x.timestamp) else if key = x.tag then some x.reading else none := by
  have hget := get?_context spbContext ((Dict.empty.update x.tag .null fun _ => x.reading).update (lit "timestamp") .null
    fun _ => .timestamp x.timestamp) key
  rw [if_neg h] at hget
  refine hget.trans ?_
  by_cases hts : key = lit "timestamp"
  · rw [if_pos hts, hts, Dict.get?_update_self]
  · rw [if_neg hts, Dict.get?_update_ne _ _ _ hts]
    by_cases htag : key = x.tag
    · rw [if_pos htag, htag, Dict.get?_update_self]
    · rw [if_neg htag, Dict.get?_update_ne _ _ _ htag]
      rfl

/-- A tag that is a key of the message itself is not held. -/
theorem spoilt_firstMessage (h : key ∈ lit "timestamp" :: spbContext.map Prod.fst) :
    ¬ NewestFirst ((firstMessage spbContext x).held key) := by
  by_cases hkeys : key ∈ spbContext.map Prod.fst
  · obtain ⟨s, hs⟩ := get?_firstMessage_context (x := x) hkeys
    exact not_newestFirst_single hs (fun xs h => by cases h) fun y h => by cases h
  · have hts := (List.mem_cons.mp h).resolve_right hkeys
    have hget := get?_firstMessage (x := x) hkeys
    rw [if_pos hts] at hget
    exact not_newestFirst_single hget (fun xs h => by cases h) fun y h => by cases h

/-- The first message is one of its tag. -/
theorem oneTag_firstMessage (hts : lit "timestamp" ∉ spbContext.map Prod.fst)
    (htag : x.tag ∉ lit "timestamp" :: spbContext.map Prod.fst) : OneTag (firstMessage spbContext x) x.tag [x] := by
  have hkey : x.tag ∉ spbContext.map Prod.fst := fun h => htag (List.mem_cons_of_mem _ h)
  have hne : x.tag ≠ lit "timestamp" := fun h => htag (h ▸ List.mem_cons_self)
  have hreading := get?_firstMessage (x := x) hkey
  have htime := get?_firstMessage (x := x) hts
  rw [if_neg hne, if_pos rfl] at hreading
  rw [if_pos rfl] at htime
  refine ⟨fun other hother => ?_, ?_, fun y hy => ?_, ⟨[x], List.Perm.refl _, List.pairwise_singleton _ _, ?_⟩,
    x.timestamp, htime, fun y hy => ?_, x, List.mem_singleton.mpr rfl, rfl⟩
  · by_cases hmem : other ∈ lit "timestamp" :: spbContext.map Prod.fst
    · exact .inr (spoilt_firstMessage hmem)
    · refine .inl ?_
      have hget := get?_firstMessage (x := x) fun h => hmem (List.mem_cons_of_mem _ h)
      have hotherts : other ≠ lit "timestamp" := fun h => hmem (h ▸ List.mem_cons_self)
      rwa [if_neg hotherts, if_neg hother] at hget
  · rw [hreading]
    rfl
  · rw [List.mem_singleton.mp hy]
  · exact held_of_get? hreading fun xs h => by cases h
  · rw [List.mem_singleton.mp hy]

/-- The message holds what was reported exactly when all metrics have one tag, none of the other keys, and each comes
before or after all that came earlier. -/
theorem fold_iff (spbContext : SpbContext) (x : TagMetric) (xs : List TagMetric) :
    Faithful spbContext (x :: xs) ↔ lit "timestamp" ∉ spbContext.map Prod.fst ∧
      x.tag ∉ lit "timestamp" :: spbContext.map Prod.fst ∧ (∀ y ∈ xs, y.tag = x.tag) ∧ AtEnds [x] xs := by
  have hfold : foldMetrics spbContext none (x :: xs) = foldMetrics spbContext (some (firstMessage spbContext x)) xs := rfl
  rw [Faithful, hfold]
  by_cases hts : lit "timestamp" ∈ spbContext.map Prod.fst
  · refine iff_of_false ?_ fun h => h.1 hts
    rintro ⟨last, hlast, hholds⟩
    obtain ⟨s, hs⟩ := get?_firstMessage_context (x := x) hts
    cases xs with
    | nil =>
        cases hlast
        obtain ⟨t, hget, -⟩ := hholds.timestamp
        cases hs.symm.trans hget
    | cons y ys =>
        rw [foldMetrics, extract_eq, hs] at hlast
        cases hlast
  · by_cases htag : x.tag ∈ lit "timestamp" :: spbContext.map Prod.fst
    · refine iff_of_false ?_ fun h => h.2.1 htag
      rintro ⟨last, hlast, hholds⟩
      exact spoilt_fold hlast (spoilt_firstMessage htag) (hholds.newestFirst x.tag List.mem_cons_self)
    · refine (fold_oneTag_iff (oneTag_firstMessage hts htag)).trans ?_
      tauto

end

/-- Two tags of one topic. -/
def twoTags : List TagMetric :=
  [⟨lit "temperature", .int 21, 1000, false⟩, ⟨lit "pressure", .int 3, 2000, false⟩]

/-- The pressure is held with a `None` beside it. -/
theorem two_tags_unfaithful : ¬ Faithful [] twoTags := by
  rintro ⟨message, hmessage, hholds⟩
  have hperm := hholds.values (lit "pressure") (by decide)
  have hheld : message.held (lit "pressure") = [.reading (.int 3) 2000 false, .null] := by
    cases hmessage
    rfl
  rw [hheld] at hperm
  exact absurd hperm.length_eq (by decide)

end Uns.Sparkplug
