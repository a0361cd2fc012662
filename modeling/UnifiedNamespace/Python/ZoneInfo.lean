/-
# `Python.ZoneInfo` — the wall clock of a time zone

`zoneinfo`: a zone is the list of its offset changes.  An instant has the offset of the last
change before it.  A wall-clock time is read with `fold=0`: what a change makes happen twice
is the earlier instant, and what it skips has the offset before the change, so a time is
read with the old offset until the later of the two clocks has passed the change.

A change moves the clock by a day at most, and the clocks have agreed again before the next
one; the database has no zone that breaks this.  Then the wall clock of an instant is
within a day of any wall-clock time that is read as a later instant (`local_le_of_le`,
`le_local_of_lt`), and of two wall-clock times the earlier is read as the earlier instant,
but for those that a change skips (`wall_sub_offset_le_iff`).
-/
import UnifiedNamespace.Python.Instant

namespace Py

/-- The instant of a change, and the offset from then on. -/
abbrev OffsetChange := ℤ × ℤ

/-- The offset of an instant. -/
def offsetAt (before : ℤ) : List OffsetChange → ℤ → ℤ
  | [], _ => before
  | (at_, after) :: changes, t => if t < at_ then before else offsetAt after changes t

/-- The offset that a wall-clock time is read with. -/
def wallOffset (before : ℤ) : List OffsetChange → ℤ → ℤ
  | [], _ => before
  | (at_, after) :: changes, wall =>
      if wall < at_ + max before after then before else wallOffset after changes wall

/-- The next change comes after both clocks have passed this one. -/
def Settled (at_ before after : ℤ) : List OffsetChange → Prop
  | [] => True
  | (next, _) :: _ => at_ < next ∧ at_ + (after - before) < next ∧ at_ + (before - after) < next

def LawfulChanges (before : ℤ) : List OffsetChange → Prop
  | [] => True
  | (at_, after) :: changes =>
      (after ≤ before + days 1 ∧ before ≤ after + days 1) ∧ Settled at_ before after changes ∧
        LawfulChanges after changes

/-- Each offset is less than a day. -/
def BoundedChanges (before : ℤ) (changes : List OffsetChange) : Prop :=
  (-days 1 < before ∧ before < days 1) ∧ ∀ c ∈ changes, -days 1 < c.2 ∧ c.2 < days 1

structure ZoneInfo where
  initial : ℤ
  changes : List OffsetChange
  lawful : LawfulChanges initial changes
  bounded : BoundedChanges initial changes

/-- The wall clock of an instant. -/
def ZoneInfo.toLocal (zone : ZoneInfo) (t : ℤ) : ℤ := t + offsetAt zone.initial zone.changes t

/-- The instant that a wall-clock time names. -/
def ZoneInfo.toUtc (zone : ZoneInfo) (wall : ℤ) : ℤ := wall - wallOffset zone.initial zone.changes wall

/-! ## One change after the other -/

variable {before : ℤ} {changes : List OffsetChange} {t wall wall' : ℤ}

theorem wallOffset_bounded (h : BoundedChanges before changes) (wall : ℤ) :
    -days 1 < wallOffset before changes wall ∧ wallOffset before changes wall < days 1 := by
  induction changes generalizing before with
  | nil => exact h.1
  | cons change changes ih =>
      obtain ⟨at_, after⟩ := change
      rw [wallOffset]
      split
      · exact h.1
      · exact ih ⟨h.2 _ List.mem_cons_self, fun c hc => h.2 c (List.mem_cons_of_mem _ hc)⟩

/-- The next change comes later. -/
theorem Settled.head {at_ after : ℤ} (h : Settled at_ before after changes) : ∀ c ∈ changes.head?, at_ ≤ c.1 := by
  intro c hc
  cases changes with
  | nil => cases hc
  | cons next changes =>
      obtain rfl := Option.some.inj hc
      exact h.1.le

/-- What is read after a change is not before it. -/
theorem le_wall_sub_offset (h : LawfulChanges before changes) {lo : ℤ} (hlo : lo + before ≤ wall)
    (hfirst : ∀ c ∈ changes.head?, lo ≤ c.1) : lo ≤ wall - wallOffset before changes wall := by
  induction changes generalizing before lo with
  | nil =>
      rw [wallOffset]
      omega
  | cons change changes ih =>
      obtain ⟨at_, after⟩ := change
      obtain ⟨-, hsettled, hrest⟩ := h
      have hat : lo ≤ at_ := hfirst (at_, after) rfl
      rw [wallOffset]
      split
      · omega
      · next hlate =>
          exact hat.trans (ih hrest (by omega) hsettled.head)

/-- The wall clock loses a day at most. -/
theorem wall_le_of_head (h : LawfulChanges before changes) {head : OffsetChange} (hhead : changes.head? = some head)
    (ht : head.1 ≤ t) : head.1 + before ≤ t + offsetAt before changes t + days 1 := by
  induction changes generalizing before head with
  | nil => cases hhead
  | cons change changes ih =>
      obtain ⟨at_, after⟩ := change
      obtain rfl := Option.some.inj hhead
      obtain ⟨hmoderate, hsettled, hrest⟩ := h
      dsimp only at ht ⊢
      rw [offsetAt, if_neg (by omega)]
      cases changes with
      | nil =>
          rw [offsetAt]
          omega
      | cons next changes =>
          obtain ⟨next, later⟩ := next
          obtain ⟨-, -, hnext⟩ := hsettled
          rcases lt_or_ge t next with hlt | hge
          · rw [offsetAt, if_pos hlt]
            omega
          · have hlater := ih hrest rfl hge
            dsimp only at hlater
            omega

/-- A time read as an instant not before `t` is at most a day behind the wall clock at `t`. -/
theorem local_le_of_le (h : LawfulChanges before changes) (ht : t ≤ wall - wallOffset before changes wall) :
    t + offsetAt before changes t ≤ wall + days 1 := by
  induction changes generalizing before with
  | nil =>
      rw [wallOffset] at ht
      rw [offsetAt, days]
      omega
  | cons change changes ih =>
      obtain ⟨at_, after⟩ := change
      obtain ⟨hmoderate, hsettled, hrest⟩ := h
      rw [wallOffset] at ht
      rw [offsetAt]
      unfold days at *
      split at ht
      · next hearly =>
          split
          · omega
          · -- the change has come, but not the next one
            have hafter : offsetAt after changes t = after := by
              cases changes with
              | nil => rfl
              | cons next changes =>
                  obtain ⟨next, later⟩ := next
                  obtain ⟨-, hnext, -⟩ := hsettled
                  rw [offsetAt, if_pos (by omega)]
            rw [hafter]
            omega
      · next hlate =>
          split
          · omega
          · exact ih hrest ht

/-- A time read as an instant before `t` is at most a day ahead of the wall clock at `t`. -/
theorem le_local_of_lt (h : LawfulChanges before changes) (ht : wall - wallOffset before changes wall < t) :
    wall ≤ t + offsetAt before changes t + days 1 := by
  induction changes generalizing before with
  | nil =>
      rw [wallOffset] at ht
      rw [offsetAt, days]
      omega
  | cons change changes ih =>
      obtain ⟨at_, after⟩ := change
      obtain ⟨hmoderate, hsettled, hrest⟩ := h
      rw [wallOffset] at ht
      rw [offsetAt]
      split at ht
      · next hearly =>
          split
          · unfold days
            omega
          · cases changes with
            | nil =>
                rw [offsetAt]
                omega
            | cons next changes =>
                obtain ⟨next, later⟩ := next
                obtain ⟨-, hnext, hnext'⟩ := hsettled
                rcases lt_or_ge t next with hlt | hge
                · rw [offsetAt, if_pos hlt]
                  omega
                · have hlater := wall_le_of_head hrest rfl hge
                  dsimp only at hlater
                  omega
      · next hlate =>
          have hat : at_ ≤ wall - wallOffset after changes wall :=
            le_wall_sub_offset hrest (by omega) hsettled.head
          rw [if_neg (by omega)]
          exact ih hrest ht

/-! ## Skipped times -/

/-- A change with the offset before it. -/
structure OffsetStep where
  at_ : ℤ
  before : ℤ
  after : ℤ

def offsetSteps (before : ℤ) : List OffsetChange → List OffsetStep
  | [] => []
  | (at_, after) :: changes => ⟨at_, before, after⟩ :: offsetSteps after changes

def ZoneInfo.steps (zone : ZoneInfo) : List OffsetStep := offsetSteps zone.initial zone.changes

/-- The change skips the first time, and the second comes after the change by no more than the first
was early. -/
def OffsetStep.Swallows (step : OffsetStep) (wall wall' : ℤ) : Prop :=
  step.at_ + step.before ≤ wall ∧ wall < step.at_ + step.after ∧ step.at_ + step.after ≤ wall' ∧
    wall' ≤ wall + (step.after - step.before)

instance (step : OffsetStep) (wall wall' : ℤ) : Decidable (step.Swallows wall wall') :=
  inferInstanceAs (Decidable (_ ∧ _))

/-- Later changes come later on the wall clock too. -/
theorem head_le_of_mem_steps (h : LawfulChanges before changes) {head : OffsetChange}
    (hhead : changes.head? = some head) {step : OffsetStep} (hstep : step ∈ offsetSteps before changes) :
    head.1 + before ≤ step.at_ + step.before := by
  induction changes generalizing before head with
  | nil => cases hhead
  | cons change changes ih =>
      obtain ⟨at_, after⟩ := change
      obtain rfl := Option.some.inj hhead
      obtain ⟨-, hsettled, hrest⟩ := h
      rcases List.mem_cons.mp hstep with rfl | hstep
      · exact le_refl _
      · cases changes with
        | nil => cases hstep
        | cons next changes =>
            have hlater := ih hrest rfl hstep
            obtain ⟨next, later⟩ := next
            obtain ⟨-, -, hnext⟩ := hsettled
            dsimp only at hlater ⊢
            omega

/-- A change does not swallow a time that is over before it. -/
theorem not_swallows_later {at_ after : ℤ} (h : LawfulChanges before ((at_, after) :: changes)) {step : OffsetStep}
    (hstep : step ∈ offsetSteps after changes) (hwall : wall < at_ + max before after) :
    ¬ step.Swallows wall wall' := by
  obtain ⟨-, hsettled, hrest⟩ := h
  rintro ⟨hfrom, -⟩
  cases changes with
  | nil => cases hstep
  | cons next changes =>
      have hlater := head_le_of_mem_steps hrest rfl hstep
      obtain ⟨next, later⟩ := next
      obtain ⟨hlt, hnext, hnext'⟩ := hsettled
      dsimp only at hlater
      omega

/-- A time around a change: the later time is read as the earlier instant when the change swallows it. -/
theorem utc_le_iff_of_change {at_ after : ℤ} (h : LawfulChanges before ((at_, after) :: changes))
    (hearly : wall < at_ + max before after) (hlate : at_ + max before after ≤ wall') :
    wall' - wallOffset after changes wall' ≤ wall - before ↔
      (⟨at_, before, after⟩ : OffsetStep).Swallows wall wall' := by
  obtain ⟨-, hsettled, hrest⟩ := h
  have hat : at_ ≤ wall' - wallOffset after changes wall' := by
    exact le_wall_sub_offset hrest (by omega) hsettled.head
  unfold OffsetStep.Swallows
  dsimp only
  cases changes with
  | nil =>
      rw [wallOffset] at hat ⊢
      omega
  | cons next changes =>
      obtain ⟨next, later⟩ := next
      obtain ⟨hlt, hnext, hnext'⟩ := hsettled
      rw [wallOffset] at hat ⊢
      split at hat
      · next hbefore =>
          rw [if_pos hbefore]
          omega
      · next hafter =>
          -- past the next change nothing is as early as `wall`
          rw [if_neg hafter]
          have hnextAt : next ≤ wall' - wallOffset later changes wall' := by
            refine le_wall_sub_offset hrest.2.2 (by omega) ?_
            intro c hc
            cases changes with
            | nil => cases hc
            | cons last changes =>
                obtain rfl := Option.some.inj hc
                exact hrest.2.1.1.le
          omega

/-- Of two wall-clock times the later is read as the earlier instant, or the same, exactly when a change
swallows what is between them. -/
theorem wall_sub_offset_le_iff (h : LawfulChanges before changes) (hlt : wall < wall') :
    wall' - wallOffset before changes wall' ≤ wall - wallOffset before changes wall ↔
      ∃ step ∈ offsetSteps before changes, step.Swallows wall wall' := by
  induction changes generalizing before with
  | nil =>
      rw [wallOffset, wallOffset]
      refine iff_of_false (by omega) ?_
      rintro ⟨step, hstep, -⟩
      cases hstep
  | cons change changes ih =>
      obtain ⟨at_, after⟩ := change
      have hcons : (∃ step ∈ offsetSteps before ((at_, after) :: changes), step.Swallows wall wall') ↔
          (⟨at_, before, after⟩ : OffsetStep).Swallows wall wall' ∨
            ∃ step ∈ offsetSteps after changes, step.Swallows wall wall' :=
        List.exists_mem_cons_iff _ _ _
      rw [hcons, wallOffset, wallOffset]
      rcases lt_or_ge wall (at_ + max before after) with hearly | hlate
      · have hnone : ¬ ∃ step ∈ offsetSteps after changes, step.Swallows wall wall' := by
          rintro ⟨step, hstep, hswallows⟩
          exact not_swallows_later h hstep hearly hswallows
        rw [if_pos hearly, or_iff_left hnone]
        rcases lt_or_ge wall' (at_ + max before after) with hearly' | hlate'
        · rw [if_pos hearly']
          refine iff_of_false (by omega) ?_
          rintro ⟨hfrom, hto, hpast, -⟩
          dsimp only at hfrom hto hpast
          omega
        · rw [if_neg (by omega)]
          exact utc_le_iff_of_change h hearly hlate'
      · have hnot : ¬ (⟨at_, before, after⟩ : OffsetStep).Swallows wall wall' := by
          rintro ⟨-, hto, -⟩
          dsimp only at hto
          omega
        rw [if_neg (by omega), if_neg (by omega), or_iff_right hnot]
        exact ih h.2.2

/-! ## Zones -/

theorem ZoneInfo.toUtc_le_iff (zone : ZoneInfo) (hlt : wall < wall') :
    zone.toUtc wall' ≤ zone.toUtc wall ↔ ∃ step ∈ zone.steps, step.Swallows wall wall' :=
  wall_sub_offset_le_iff zone.lawful hlt

theorem ZoneInfo.toLocal_le (zone : ZoneInfo) (h : t ≤ zone.toUtc wall) : zone.toLocal t ≤ wall + days 1 :=
  local_le_of_le zone.lawful h

theorem ZoneInfo.le_toLocal (zone : ZoneInfo) (h : zone.toUtc wall < t) : wall ≤ zone.toLocal t + days 1 :=
  le_local_of_lt zone.lawful h

/-- A wall-clock time is read within a day. -/
theorem ZoneInfo.toUtc_bounds (zone : ZoneInfo) (wall : ℤ) :
    wall - days 1 < zone.toUtc wall ∧ zone.toUtc wall < wall + days 1 := by
  obtain ⟨hlow, hhigh⟩ := wallOffset_bounded zone.bounded wall
  rw [ZoneInfo.toUtc]
  omega

end Py
