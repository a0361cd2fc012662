/-
# `Oee.Reassigned` — a reassignment that lands in the middle of a run

A run reads the reasons before it decides, and stores a fingerprint that was
formed from these reasons with the numbers it computed with them.  So a
fingerprint that is still current says that the reasons are still the same, as far
as the digest in it tells them apart (`noLostReassignment_iff`).

The digest hashes `start=code` items joined by bars, and keeps sixteen digits of
the hash.  Codes without a bar are told apart by the joined text
(`manualText_injective`).  A code may contain one, and then a reassignment can be
lost (`barCode_lost`).
-/
import UnifiedNamespace.Oee.Published

namespace Uns.Oee

open Py Lib

/-! ## Texts that can be taken apart -/

/-- An instant is written with digits and these marks. -/
theorem mem_isoformat {t : ℤ} {c : Nat} (h : c ∈ isoformat t) :
    isDigit c = true ∨ c ∈ [43, 45, 46, 58, 84] := by
  have hpad : ∀ {width n : Nat}, c ∈ padDigits width n → isDigit c = true := fun h => digit_padDigits h
  have hdec : ∀ {n : Nat}, c ∈ decimal n → isDigit c = true := fun h => isDigit_of_mem_decimal h
  have hyear : ∀ {y : ℤ}, c ∈ yearText y → isDigit c = true ∨ c ∈ [43, 45, 46, 58, 84] := by
    intro y hy
    unfold yearText at hy
    split at hy
    · exact .inl (hpad hy)
    · rcases List.mem_cons.mp hy with rfl | hy
      · refine .inr ?_
        split <;> decide
      · exact .inl (hdec hy)
  have htime : ∀ {us : Nat}, c ∈ timeText us → isDigit c = true ∨ c ∈ [43, 45, 46, 58, 84] := by
    intro us hus
    unfold timeText at hus
    simp only [List.mem_append, List.mem_cons] at hus
    rcases hus with hus | rfl | hus | rfl | hus | hus
    · exact .inl (hpad hus)
    · exact .inr (by decide)
    · exact .inl (hpad hus)
    · exact .inr (by decide)
    · exact .inl (hpad hus)
    · split at hus
      · cases hus
      · rcases List.mem_cons.mp hus with rfl | hus
        · exact .inr (by decide)
        · exact .inl (hpad hus)
  simp only [isoformat, civilText, List.mem_append, List.mem_cons] at h
  rcases h with (h | rfl | h | rfl | h) | rfl | h | h
  · exact hyear h
  · exact .inr (by decide)
  · exact .inl (hpad h)
  · exact .inr (by decide)
  · exact .inl (hpad h)
  · exact .inr (by decide)
  · exact htime h
  · revert h
    simp only [lit]
    intro h
    fin_cases h <;> decide

theorem notMem_isoformat {t : ℤ} {c : Nat} (hd : isDigit c = false) (hc : c ∉ [43, 45, 46, 58, 84]) :
    c ∉ isoformat t := by
  intro h
  rcases mem_isoformat h with h | h
  · rw [hd] at h
    cases h
  · exact hc h

/-! ## The joined reasons -/

/-- What the digest is about: which stop has which code. -/
def codesOf (manual : ManualReasons) : List (ℤ × Str) :=
  (sortedItems manual).map fun item => (item.1, item.2.reasonCode)

/-- No code contains a bar. -/
def BarFree (manual : ManualReasons) : Prop := ∀ item ∈ sortedItems manual, 124 ∉ item.2.reasonCode

theorem joinBars_injective {xs ys : List Str} (hx : ∀ x ∈ xs, 124 ∉ x ∧ x ≠ [])
    (hy : ∀ y ∈ ys, 124 ∉ y ∧ y ≠ []) (h : joinBars xs = joinBars ys) : xs = ys := by
  have hcons : ∀ x (zs : List Str), x ≠ [] → joinBars (x :: zs) ≠ [] := by
    intro x zs hne hnil
    cases zs with
    | nil => exact hne hnil
    | cons z zs => exact hne (List.append_eq_nil_iff.mp hnil).1
  induction xs generalizing ys with
  | nil =>
      cases ys with
      | nil => rfl
      | cons y ys => exact absurd h.symm (hcons y ys (hy y List.mem_cons_self).2)
  | cons x xs ih =>
      cases ys with
      | nil => exact absurd h (hcons x xs (hx x List.mem_cons_self).2)
      | cons y ys =>
          obtain ⟨hxbar, -⟩ := hx x List.mem_cons_self
          obtain ⟨hybar, -⟩ := hy y List.mem_cons_self
          cases xs with
          | nil =>
              cases ys with
              | nil => rw [show x = y from h]
              | cons z zs =>
                  refine absurd ?_ hxbar
                  rw [show x = y ++ 124 :: joinBars (z :: zs) from h]
                  exact List.mem_append_right _ List.mem_cons_self
          | cons w ws =>
              cases ys with
              | nil =>
                  refine absurd ?_ hybar
                  rw [← show x ++ 124 :: joinBars (w :: ws) = y from h]
                  exact List.mem_append_right _ List.mem_cons_self
              | cons z zs =>
                  obtain ⟨rfl, hrest⟩ := append_cons_inj hxbar hybar h
                  rw [ih (fun v hv => hx v (List.mem_cons_of_mem _ hv))
                    (fun v hv => hy v (List.mem_cons_of_mem _ hv)) hrest]

theorem manualItem_injective {a b : ℤ × ManualReason} (h : manualItem a = manualItem b) :
    a.1 = b.1 ∧ a.2.reasonCode = b.2.reasonCode := by
  obtain ⟨hiso, hcode⟩ := append_cons_inj (notMem_isoformat (by decide) (by decide))
    (notMem_isoformat (by decide) (by decide)) h
  exact ⟨isoformat_injective hiso, hcode⟩

theorem manualItem_spec {item : ℤ × ManualReason} (h : 124 ∉ item.2.reasonCode) :
    124 ∉ manualItem item ∧ manualItem item ≠ [] := by
  constructor
  · intro hm
    rcases List.mem_append.mp hm with hm | hm
    · exact notMem_isoformat (by decide) (by decide) hm
    · rcases List.mem_cons.mp hm with hm | hm
      · cases hm
      · exact h hm
  · intro hnil
    cases (List.append_eq_nil_iff.mp hnil).2

/-- Without bars in the codes, the joined text determines them. -/
theorem manualText_injective {M N : ManualReasons} (hM : BarFree M) (hN : BarFree N)
    (h : manualText M = manualText N) : codesOf M = codesOf N := by
  have hitems := joinBars_injective
    (fun x hx => by
      obtain ⟨item, hitem, rfl⟩ := List.mem_map.mp hx
      exact manualItem_spec (hM item hitem))
    (fun y hy => by
      obtain ⟨item, hitem, rfl⟩ := List.mem_map.mp hy
      exact manualItem_spec (hN item hitem)) h
  unfold codesOf
  generalize sortedItems M = xs at hitems
  generalize sortedItems N = ys at hitems
  induction xs generalizing ys with
  | nil =>
      obtain rfl := List.map_eq_nil_iff.mp hitems.symm
      rfl
  | cons x xs ih =>
      cases ys with
      | nil => cases hitems
      | cons y ys =>
          obtain ⟨hitem, hrest⟩ := List.cons.inj hitems
          obtain ⟨hstart, hcode⟩ := manualItem_injective hitem
          rw [List.map_cons, List.map_cons, hstart, hcode, ih ys hrest]

/-! ## The fingerprint text -/

theorem notMem_hexDigit {x : Nat} {d : Nat} (h : x = hexDigit d) : x ≠ 58 ∧ x ≠ 45 := by
  subst h
  unfold hexDigit
  split <;> omega

theorem hex_sha256Hex {b : Bytes} {x : Nat} (h : x ∈ sha256Hex b) : x ≠ 58 ∧ x ≠ 45 := by
  obtain ⟨w, -, hw⟩ := List.mem_flatMap.mp h
  obtain ⟨y, -, hy⟩ := List.mem_flatMap.mp hw
  rcases List.mem_cons.mp hy with hy | hy
  · exact notMem_hexDigit hy
  · exact notMem_hexDigit (List.mem_singleton.mp hy)

/-- A digest has no colon. -/
theorem notMem_manualDigest {manual : ManualReasons} {digest : Str}
    (h : manualDigest manual = some digest) : 58 ∉ digest := by
  unfold manualDigest at h
  split at h
  · obtain rfl := Option.some.inj h
    decide
  · obtain ⟨bytes, -, rfl⟩ := Option.map_eq_some_iff.mp h
    intro hm
    exact (hex_sha256Hex (List.mem_of_mem_take hm)).1 rfl

/-- The stored form determines the count, the latest time and the digest. -/
theorem asText_injective {f g : Fingerprint} (hf : 58 ∉ f.manualDigest) (hg : 58 ∉ g.manualDigest)
    (h : f.asText = g.asText) : f = g := by
  have hcolon : ∀ n, 58 ∉ decimal n := by
    intro n hm
    exact absurd (isDigit_of_mem_decimal hm) (by decide)
  obtain ⟨hcount, hrest⟩ := append_cons_inj (hcolon _) (hcolon _) h
  obtain ⟨htime, hdigest⟩ := append_cons_inj_last hf hg hrest
  have hcount' : f.rowCount = g.rowCount := by
    rw [← ofDecimal_decimal f.rowCount, hcount, ofDecimal_decimal]
  have hdash : ∀ t : ℤ, isoformat t ≠ lit "-" := by
    intro t ht
    have hmem : 84 ∈ isoformat t := List.mem_append_right _ List.mem_cons_self
    rw [ht] at hmem
    revert hmem
    decide
  have htime' : f.maxTime = g.maxTime := by
    cases hft : f.maxTime with
    | none =>
        cases hgt : g.maxTime with
        | none => rfl
        | some t =>
            rw [hft, hgt] at htime
            exact absurd htime.symm (hdash t)
    | some s =>
        cases hgt : g.maxTime with
        | none =>
            rw [hft, hgt] at htime
            exact absurd htime (hdash s)
        | some t =>
            rw [hft, hgt] at htime
            rw [isoformat_injective htime]
  cases f
  cases g
  cases hcount'
  cases htime'
  cases hdigest
  rfl

/-! ## The reasons behind the stored numbers -/

/-- The stored row is what this computation wrote, up to its mark. -/
def Wrote (c : Computation) (row : ShiftResult) : Prop :=
  { row with publishedAt := none } =
    resultValues c.job.window (compute c.inputs) c.read.fingerprint c.job.computedAt row.revision

/-- The numbers of the computation come from the reasons it has read. -/
def FromReasons (c : Computation) : Prop :=
  manualDigest c.read.manual = some c.read.fingerprint.manualDigest ∧
    ∃ samples exceptions, shiftInputs c.job.unit c.job.window samples exceptions c.read.manual
      (!c.read.fingerprint.isEmpty) = some c.inputs

/-- Each row is the work of one computation, the last one of its shift. -/
structure ComputedRows (s : Shared) : Prop where
  exists_computation : ∀ k r, s.world.db.results.find? k = some r →
    ∃ c ∈ s.computations, c.key = (k.1, k.2, r.2.revision)
  row : ∀ c ∈ s.computations,
    ∃ r, s.world.db.results.find? (c.job.unit.unitId, c.job.window.start) = some r ∧
      c.revision ≤ r.2.revision ∧ (c.revision = r.2.revision → Wrote c r.2)
  unique : ∀ c ∈ s.computations, ∀ d ∈ s.computations, c.key = d.key → c = d
  reasons : ∀ c ∈ s.computations, FromReasons c

/-- The reasons a run has read are those of its fingerprint, and those of its inputs. -/
def ReasonsRead : Stage → Prop
  | .existing _ reasons counted => manualDigest reasons = some counted.manualDigest
  | .fetch _ read _ _ => manualDigest read.manual = some read.fingerprint.manualDigest
  | .exceptions _ read _ => manualDigest read.manual = some read.fingerprint.manualDigest
  | .settle job read samples inputs =>
      manualDigest read.manual = some read.fingerprint.manualDigest ∧
        ∃ exceptions, shiftInputs job.unit job.window samples exceptions read.manual
          (!read.fingerprint.isEmpty) = some inputs
  | _ => True

variable {latest : LatestRow} {delivered : Bool} {s t : Shared} {stage : Stage}

theorem reasonsRead_next (h : ReasonsRead stage) :
    ReasonsRead (stage.next latest delivered s).2 := by
  cases stage with
  | fingerprint job => trivial
  | manual job counted =>
      simp only [Stage.next, Stage.advance]
      split
      · trivial
      · rename_i digest hdigest
        exact hdigest
  | existing job reasons counted =>
      simp only [Stage.next, Stage.advance]
      split
      · trivial
      · exact h
  | fetch job read pending got =>
      cases pending with
      | nil => exact h
      | cons q pending => exact h
  | exceptions job read samples =>
      simp only [Stage.next, Stage.advance]
      split
      · trivial
      · rename_i inputs hinputs
        exact ⟨h, _, hinputs⟩
  | settle job read samples inputs =>
      rcases settle_cases s.world job read samples inputs with
        ⟨-, heq⟩ | ⟨-, -, heq⟩ | ⟨db, out, -, -, heq⟩ <;>
        simp only [Stage.next, Stage.advance, heq] <;> trivial
  | publish settled =>
      simp only [Stage.next, Stage.advance]
      split <;> trivial
  | mark settled => trivial
  | finished outcome => trivial
  | raised => trivial

/-- The new computation is later than every other of its shift. -/
theorem computedRows_saved {job : Job} {read : Reading} {inputs : ShiftInputs} {db : Database}
    {out : StoredResult} (hi : ComputedRows s) (hr : FromReasons ⟨job, read, inputs, out.revision⟩)
    (hsave : job.save s.world.db read inputs = some (db, out)) :
    ComputedRows ⟨{ s.world with db := db }, s.computations ++ [⟨job, read, inputs, out.revision⟩]⟩ := by
  have hs := Job.save_spec hsave
  have hlater : ∀ c ∈ s.computations,
      (c.job.unit.unitId, c.job.window.start) = (job.unit.unitId, job.window.start) →
        c.revision < out.revision := by
    intro c hc hkey
    obtain ⟨r, hrow, hle, -⟩ := hi.row c hc
    have hnext := hs.result.next
    rw [← hkey, hrow, Option.map_some, Option.getD_some] at hnext
    omega
  have hnew : ∀ c ∈ s.computations, c.key ≠ (job.unit.unitId, job.window.start, out.revision) := by
    intro c hc hkey
    have hlt := hlater c hc (congrArg (fun k => (k.1, k.2.1)) hkey)
    have heq : c.revision = out.revision := congrArg (fun k => k.2.2) hkey
    omega
  refine ⟨?_, ?_, ?_, ?_⟩
  · intro k r hrow
    by_cases hk : k = (job.unit.unitId, job.window.start)
    · subst hk
      have hrow' := hs.result.row
      rw [show _ = some r from hrow] at hrow'
      obtain rfl := Option.some.inj hrow'
      exact ⟨_, List.mem_append_right _ (List.mem_singleton_self _), rfl⟩
    · obtain ⟨c, hc, hkey⟩ := hi.exists_computation k r ((hs.result.otherRows k hk).symm.trans hrow)
      exact ⟨c, List.mem_append_left _ hc, hkey⟩
  · intro c hc
    rcases List.mem_append.mp hc with hc | hc
    · by_cases hk : (c.job.unit.unitId, c.job.window.start) = (job.unit.unitId, job.window.start)
      · have hlt := hlater c hc hk
        refine ⟨_, hk ▸ hs.result.row, hlt.le, ?_⟩
        intro heq
        exact absurd heq hlt.ne
      · obtain ⟨r, hrow, hrest⟩ := hi.row c hc
        exact ⟨r, (hs.result.otherRows _ hk).trans hrow, hrest⟩
    · rw [List.mem_singleton.mp hc]
      exact ⟨_, hs.result.row, le_refl _, fun _ => rfl⟩
  · intro c hc d hd hkey
    rcases List.mem_append.mp hc with hc | hc <;> rcases List.mem_append.mp hd with hd | hd
    · exact hi.unique c hc d hd hkey
    · rw [List.mem_singleton.mp hd] at hkey
      exact absurd hkey (hnew c hc)
    · rw [List.mem_singleton.mp hc] at hkey
      exact absurd hkey.symm (hnew d hd)
    · rw [List.mem_singleton.mp hc, List.mem_singleton.mp hd]
  · intro c hc
    rcases List.mem_append.mp hc with hc | hc
    · exact hi.reasons c hc
    · rw [List.mem_singleton.mp hc]
      exact hr

theorem computedRows_step (hi : ComputedRows s) (hA : ReasonsRead stage) (h : SharedStep s stage t) :
    ComputedRows t := by
  cases h with
  | quiet => exact hi
  | saved changed save =>
      obtain ⟨hdigest, exceptions, hinputs⟩ := hA
      exact computedRows_saved hi ⟨hdigest, _, exceptions, hinputs⟩ save
  | published settled => exact ⟨hi.exists_computation, hi.row, hi.unique, hi.reasons⟩
  | marked settled =>
      have hmark := find?_markPublished s.world.db settled.resultId settled.job.computedAt
      have hsame : ∀ r : Nat × ShiftResult, (if r.1 = settled.resultId then
          r.2.withPublishedAt settled.job.computedAt else r.2).revision = r.2.revision := by
        intro r
        split <;> rfl
      refine ⟨?_, ?_, hi.unique, hi.reasons⟩
      · intro k r hr
        obtain ⟨q, hq, rfl⟩ := Option.map_eq_some_iff.mp ((hmark k).symm.trans hr)
        obtain ⟨c, hc, hkey⟩ := hi.exists_computation k q hq
        exact ⟨c, hc, hkey.trans (by rw [hsame])⟩
      · intro c hc
        obtain ⟨r, hr, hle, hwrote⟩ := hi.row c hc
        have hr' := hmark (c.job.unit.unitId, c.job.window.start)
        rw [hr, Option.map_some] at hr'
        refine ⟨_, hr', (hsame r).symm ▸ hle, ?_⟩
        intro heq
        have hw := hwrote (heq.trans (hsame r))
        unfold Wrote at hw ⊢
        dsimp only
        rw [hsame, ← hw]
        split <;> rfl

theorem computedRows_disturb (hi : ComputedRows s) (e : Disturbance) : ComputedRows (s.disturb e) := by
  cases e with
  | arrive rows => exact ⟨hi.exists_computation, hi.row, hi.unique, hi.reasons⟩
  | edit exceptions => exact ⟨hi.exists_computation, hi.row, hi.unique, hi.reasons⟩
  | assign call =>
      obtain ⟨hresults, -, -⟩ := world_assign s.world call
      refine ⟨?_, ?_, hi.unique, hi.reasons⟩
      · intro k r hr
        change (s.world.assign call).db.results.find? k = some r at hr
        rw [hresults] at hr
        exact hi.exists_computation k r hr
      · intro c hc
        change ∃ r, (s.world.assign call).db.results.find? _ = some r ∧ _
        rw [hresults]
        exact hi.row c hc

variable {ι : Type} [DecidableEq ι]

theorem computedRows {c : Engine ι} (h : (engine ι latest).Reachable c) : ComputedRows c.shared := by
  have hfree : ((engine ι latest).restrict fun _ _ => True).Reachable c :=
    System.Reachable.mono (S := engine ι latest) (T := (engine ι latest).restrict fun _ _ => True)
      (fun _ hinit => hinit)
      (fun _ _ _ hstep => ⟨trivial, hstep⟩) h
  refine (Program.invariant (P := engineProgram latest) (I := ComputedRows)
    (A := fun _ => ReasonsRead) (G := fun _ _ => True) ?_ ?_ ?_
    (fun e s hi => ⟨computedRows_disturb hi e, trivial⟩) (fun _ _ _ _ hA => hA) hfree).1
  · intro c hf
    refine ⟨⟨?_, ?_, ?_, ?_⟩, ?_⟩
    · intro k r hr
      rw [hf.results] at hr
      cases hr
    · rw [hf.computations]
      intro d hd
      cases hd
    · rw [hf.computations]
      intro d hd
      cases hd
    · rw [hf.computations]
      intro d hd
      cases hd
    · intro i
      rw [hf.locals i]
      trivial
  · intro s l hentry
    cases l <;> trivial
  · intro c i d _ hi hA
    exact ⟨computedRows_step hi hA sharedStep_next, reasonsRead_next hA, trivial⟩

/-! ## A fingerprint that is current -/

/-- The fingerprint formed from the current rows and this digest. -/
def fingerprintNow (w : World) (u : UnitMasterData) (window : ShiftWindow) (digest : Str) :
    Fingerprint :=
  (fingerprintOf w.rows u.refs window.start window.finish).withManual digest

/-- Where the stored fingerprint is the current one, the stored row was computed with the current
reasons. -/
def NoLostReassignment (s : Shared) (u : UnitMasterData) (window : ShiftWindow) : Prop :=
  ∀ r digest, s.world.db.results.find? (u.unitId, window.start) = some r →
    manualDigest (manualReasons s.world.db u.unitId window) = some digest →
    r.2.inputFingerprint = (fingerprintNow s.world u window digest).asText →
      ∃ c ∈ s.computations, c.key = (u.unitId, window.start, r.2.revision) ∧ Wrote c r.2 ∧
        FromReasons c ∧ codesOf c.read.manual = codesOf (manualReasons s.world.db u.unitId window)

/-- When the rows look the same as for the stored row, other reasons have another digest. -/
def DigestsDiffer (s : Shared) (u : UnitMasterData) (window : ShiftWindow) : Prop :=
  ∀ r, s.world.db.results.find? (u.unitId, window.start) = some r →
    ∀ c ∈ s.computations, c.key = (u.unitId, window.start, r.2.revision) →
      c.read.fingerprint = fingerprintNow s.world u window c.read.fingerprint.manualDigest →
        codesOf c.read.manual ≠ codesOf (manualReasons s.world.db u.unitId window) →
          manualDigest c.read.manual ≠ manualDigest (manualReasons s.world.db u.unitId window)

theorem noLostReassignment_iff {c : Engine ι} (h : (engine ι latest).Reachable c)
    (u : UnitMasterData) (window : ShiftWindow) :
    NoLostReassignment c.shared u window ↔ DigestsDiffer c.shared u window := by
  have hi := computedRows h
  generalize c.shared = s at hi
  have hwrote : ∀ r d, s.world.db.results.find? (u.unitId, window.start) = some r →
      d ∈ s.computations → d.key = (u.unitId, window.start, r.2.revision) →
        Wrote d r.2 ∧ r.2.inputFingerprint = d.read.fingerprint.asText := by
    intro r d hr hd hkey
    obtain ⟨q, hq, -, hw⟩ := hi.row d hd
    have hstart : (d.job.unit.unitId, d.job.window.start) = (u.unitId, window.start) :=
      congrArg (fun k => (k.1, k.2.1)) hkey
    rw [hstart, hr] at hq
    obtain rfl := Option.some.inj hq
    have hw' := hw (congrArg (fun k => k.2.2) hkey)
    exact ⟨hw', congrArg ShiftResult.inputFingerprint hw'⟩
  constructor
  · intro hkept r hr d hd hkey hrows hcodes hdigest
    have hown := (hi.reasons d hd).1
    obtain ⟨e, he, hekey, -, -, hecodes⟩ := hkept r _ hr (hdigest.symm.trans hown) (by
      rw [(hwrote r d hr hd hkey).2]
      exact congrArg Fingerprint.asText hrows)
    rw [hi.unique e he d hd (hekey.trans hkey.symm)] at hecodes
    exact hcodes hecodes
  · intro hdiffer r digest hr hdigest hcurrent
    obtain ⟨d, hd, hkey⟩ := hi.exists_computation _ r hr
    obtain ⟨hw, htext⟩ := hwrote r d hr hd hkey
    have hown := hi.reasons d hd
    refine ⟨d, hd, hkey, hw, hown, ?_⟩
    by_contra hcodes
    have hfp : d.read.fingerprint = fingerprintNow s.world u window digest :=
      asText_injective (notMem_manualDigest hown.1) (notMem_manualDigest hdigest)
        (htext.symm.trans hcurrent)
    have hsame : d.read.fingerprint.manualDigest = digest := by
      rw [hfp]
      rfl
    refine hdiffer r hr d hd hkey (hsame.symm ▸ hfp) hcodes ?_
    rw [hown.1, hdigest, hsame]

/-- Reasons without bars have different digests when the hash tells their texts apart. -/
theorem manualDigest_ne {M N : ManualReasons} (hM : BarFree M) (hN : BarFree N)
    (hhash : ∀ a b, utf8Encode (manualText M) = some a → utf8Encode (manualText N) = some b →
      a ≠ b → (sha256Hex a).take 16 ≠ (sha256Hex b).take 16)
    (hsome : (manualDigest M).isSome = true) (h : codesOf M ≠ codesOf N) :
    manualDigest M ≠ manualDigest N := by
  have hdash : ∀ {L : ManualReasons} {b : Bytes}, L.entries ≠ [] →
      utf8Encode (manualText L) = some b → (sha256Hex b).take 16 ≠ lit "-" := by
    intro L b _ _ heq
    have hmem : 45 ∈ (sha256Hex b).take 16 := by
      rw [heq]
      decide
    exact (hex_sha256Hex (List.mem_of_mem_take hmem)).2 rfl
  have htext : manualText M ≠ manualText N := fun heq => h (manualText_injective hM hN heq)
  intro heq
  unfold manualDigest at heq hsome
  by_cases hMe : M.entries = [] <;> by_cases hNe : N.entries = []
  · refine htext ?_
    unfold manualText sortedItems
    rw [hMe, hNe]
  · rw [if_pos hMe, if_neg hNe] at heq
    obtain ⟨b, hb, hval⟩ := Option.map_eq_some_iff.mp heq.symm
    exact hdash hNe hb hval
  · rw [if_neg hMe, if_pos hNe] at heq
    obtain ⟨a, ha, hval⟩ := Option.map_eq_some_iff.mp heq
    exact hdash hMe ha hval
  · rw [if_neg hMe] at heq hsome
    rw [if_neg hNe] at heq
    obtain ⟨va, hva⟩ := Option.isSome_iff_exists.mp hsome
    obtain ⟨a, ha, hav⟩ := Option.map_eq_some_iff.mp hva
    rw [hva] at heq
    obtain ⟨b, hb, hbv⟩ := Option.map_eq_some_iff.mp heq.symm
    have hab : a ≠ b := by
      rintro rfl
      exact htext (Option.some.inj ((utf8Decode_encode ha).symm.trans (utf8Decode_encode hb)))
    exact hhash a b ha hb hab (hav.trans hbv.symm)

/-- So nothing is lost while the codes have no bars and the hash tells the joined texts apart. -/
theorem digestsDiffer_of_barFree {c : Engine ι} (h : (engine ι latest).Reachable c)
    {u : UnitMasterData} {window : ShiftWindow}
    (hstored : ∀ d ∈ c.shared.computations, BarFree d.read.manual)
    (hnow : BarFree (manualReasons c.shared.world.db u.unitId window))
    (hhash : ∀ d ∈ c.shared.computations, ∀ a b, utf8Encode (manualText d.read.manual) = some a →
      utf8Encode (manualText (manualReasons c.shared.world.db u.unitId window)) = some b → a ≠ b →
        (sha256Hex a).take 16 ≠ (sha256Hex b).take 16) :
    DigestsDiffer c.shared u window := by
  intro r _ d hd _ _ hcodes
  have hown := ((computedRows h).reasons d hd).1
  exact manualDigest_ne (hstored d hd) hnow (hhash d hd) (Option.isSome_iff_exists.mpr ⟨_, hown⟩) hcodes

/-! ## A code with a bar -/

/-- A code that reads as two attributions. -/
def barCode : Str := jamCode ++ 124 :: manualItem (seconds 4, ⟨jamCode, none, none⟩)

/-- The plant's vocabulary, with this code. -/
def barDatabase : Database :=
  { plantDatabase with
    reasons := ⟨[(unclassifiedReasonCode, ⟨lit "Unclassified", [], false⟩),
      (jamCode, ⟨lit "Jam", lit "Mechanical", false⟩), (barCode, ⟨lit "Other", [], false⟩)],
      by decide +kernel⟩
    referenced := by
      intro e he
      cases he }

/-- A unit whose rules know all three. -/
def barUnit : UnitMasterData :=
  { lineUnit with
    resolver :=
      { reasons := fun code => (barDatabase.reasons.get? code).map fun r =>
          ⟨code, r.displayName, r.category, r.isPlanned⟩
        unitRules := fun _ => none
        defaultRules := fun _ => none
        floor := by decide +kernel } }

/-- Two stops of two seconds. -/
def barEngine : Engine Unit :=
  ⟨⟨⟨[stateRow 0 (lit "HELD"), stateRow (seconds 2) executeState, stateRow (seconds 4) (lit "HELD"),
    stateRow (seconds 6) executeState], [], barDatabase, []⟩, []⟩, fun _ => .raised⟩

theorem fresh_barEngine : Fresh barEngine := ⟨fun _ => rfl, fun _ => rfl, rfl, rfl, fun _ => rfl⟩

def barRun : List (Event Unit) := runMoves () ⟨barUnit, tenSeconds, hours 1⟩ 12 true

def reassign (eventId : Nat) (code : Str) : Event Unit :=
  .disturb (.assign ⟨eventId, code, none, lit "op", hours 2⟩)

/-- The shift is computed, and the first stop is assigned a code. -/
def reassigned (code : Str) : List (Event Unit) := barRun ++ [reassign 0 code]

/-- With the code that has a bar it is computed again; then each stop is assigned the code before
the bar. -/
def barMoves : List (Event Unit) :=
  reassigned barCode ++ (barRun ++ [reassign 0 jamCode, reassign 1 jamCode])

theorem allowed_barMoves : ∀ m ∈ barMoves, (engineProgram newestRow).Allowed m := by
  intro m hm
  simp only [barMoves, reassigned, List.mem_append, List.mem_cons, List.not_mem_nil, or_false] at hm
  rcases hm with (hm | rfl) | hm | rfl | rfl
  · exact allowed_runMoves m hm
  · trivial
  · exact allowed_runMoves m hm
  · trivial
  · trivial

theorem allowed_reassigned : ∀ m ∈ reassigned jamCode, (engineProgram newestRow).Allowed m := by
  intro m hm
  rcases List.mem_append.mp hm with hm | hm
  · exact allowed_runMoves m hm
  · rw [List.mem_singleton.mp hm]
    trivial

/-- A code without a bar is not lost. -/
theorem noLostReassignment_reassigned : NoLostReassignment
    ((engineProgram newestRow).run barEngine (reassigned jamCode)).shared barUnit tenSeconds := by
  refine (noLostReassignment_iff
    (Program.reachable_run (.init fresh_barEngine) allowed_reassigned) _ _).mpr ?_
  have hdigests : ∀ c ∈ ((engineProgram newestRow).run barEngine (reassigned jamCode)).shared.computations,
      manualDigest c.read.manual ≠ manualDigest (manualReasons
        ((engineProgram newestRow).run barEngine (reassigned jamCode)).shared.world.db 1 tenSeconds) := by
    decide +kernel
  intro r _ c hc _ _ _
  exact hdigests c hc

/-- The fingerprint is current, and the second stop was computed without its reason. -/
theorem barCode_lost : ¬ ∀ (latest : LatestRow) (c : Engine Unit), (engine Unit latest).Reachable c →
    ∀ u window, NoLostReassignment c.shared u window := by
  intro h
  have hkept := h newestRow _ (Program.reachable_run (.init fresh_barEngine) allowed_barMoves) barUnit
    tenSeconds
  have hcodes : ∀ c ∈ ((engineProgram newestRow).run barEngine barMoves).shared.computations,
      codesOf c.read.manual ≠ codesOf (manualReasons
        ((engineProgram newestRow).run barEngine barMoves).shared.world.db 1 tenSeconds) := by
    decide +kernel
  have hcurrent : ∃ digest, manualDigest (manualReasons
        ((engineProgram newestRow).run barEngine barMoves).shared.world.db 1 tenSeconds) = some digest ∧
      (((engineProgram newestRow).run barEngine barMoves).shared.world.db.results.find? (1, 0)).map
          (fun r => r.2.inputFingerprint) =
        some (fingerprintNow ((engineProgram newestRow).run barEngine barMoves).shared.world barUnit
          tenSeconds digest).asText := by
    refine ⟨lit "05b0837da3ecbf19", ?_, ?_⟩
    · decide +kernel
    · decide +kernel
  obtain ⟨digest, hdigest, hfingerprint⟩ := hcurrent
  obtain ⟨r, hr, htext⟩ := Option.map_eq_some_iff.mp hfingerprint
  obtain ⟨c, hc, -, -, -, hsame⟩ := hkept r digest hr hdigest htext
  exact hcodes c hc hsame

end Uns.Oee
