/-
# `Python.JsonRoundTrip` — `json.loads(json.dumps(v))` is `v`

`loads_text`: the text of a value whose dicts have distinct keys loads back as
that value, unless the nesting or an integer is beyond the limits of the loading
interpreter.  The induction is on the value, with the text that follows it as a
parameter; what follows must not continue a number (`NumStop`).

`scanValue_ends`: with more fuel than there are characters the scanner does not
run out, so `loads` reports what the scanner of the source reports.
-/
import UnifiedNamespace.Python.Json

namespace Py

/-! ## Strings -/

theorem hexValue_hexDigit {d : Nat} (h : d < 16) : hexValue (hexDigit d) = some d := by
  interval_cases d <;> rfl

/-- The escape of a character reads back as the character. -/
theorem scanItem_escapeChar (c : Nat) (rest : Str) :
    scanItem (escapeChar c ++ rest) = .char c rest := by
  unfold escapeChar
  split_ifs with h1 h2 h3 h4 h5 h6 h7 h8
  · subst h1; rfl
  · subst h2; rfl
  · subst h3; rfl
  · subst h4; rfl
  · subst h5; rfl
  · subst h6; rfl
  · subst h7; rfl
  · have hx : hex4 48 48 (hexDigit (c / 16)) (hexDigit (c % 16)) = some c := by
      simp only [hex4, hexValue_hexDigit (show c / 16 < 16 by omega),
        hexValue_hexDigit (show c % 16 < 16 by omega), show hexValue 48 = some 0 from rfl]
      congr 1
      omega
    have hs : isHighSurrogate c = false := decide_eq_false (by omega)
    simp [scanItem, hx, hs]
  · rw [List.singleton_append, scanItem.eq_def]
    split <;> simp_all

theorem length_escapeChar_pos (c : Nat) : 0 < (escapeChar c).length := by
  unfold escapeChar
  split_ifs <;> simp

theorem scanBody_escapeStr (s : Str) (rest : Str) :
    ∀ fuel, (escapeStr s ++ 34 :: rest).length < fuel →
      scanBody fuel (escapeStr s ++ 34 :: rest) = .ok (s, rest) := by
  induction s with
  | nil =>
      intro fuel h
      cases fuel with
      | zero => simp at h
      | succ fuel => rfl
  | cons c s ih =>
      intro fuel h
      have hc := length_escapeChar_pos c
      cases fuel with
      | zero => simp at h
      | succ fuel =>
          have e : escapeStr (c :: s) = escapeChar c ++ escapeStr s := rfl
          rw [e, List.append_assoc] at h ⊢
          rw [List.length_append] at h
          rw [scanBody, scanItem_escapeChar]
          simp only [ih fuel (by omega), andThen_ok]

theorem scanBody_strText (s rest : Str) :
    scanBody ((escapeStr s ++ 34 :: rest).length + 1) (escapeStr s ++ 34 :: rest)
      = .ok (s, rest) :=
  scanBody_escapeStr s rest _ (Nat.lt_succ_self _)

/-! ## Words and numbers -/

theorem text_eq_cons {t : NumTok} (hwf : t.Wf) (rest : Str) :
    ∃ d ds, isDigit d = true ∧
      t.text ++ rest = if t.neg then 45 :: d :: ds else d :: ds := by
  have hd : ∃ d ds, isDigit d = true ∧ t.int = d :: ds := by
    rcases hwf.int with h | ⟨h, -⟩
    · exact ⟨48, [], rfl, h⟩
    · obtain ⟨d, ds, he⟩ := List.exists_cons_of_ne_nil h.1
      exact ⟨d, ds, h.2 d (by simp [he]), he⟩
  obtain ⟨d, ds, hdig, he⟩ := hd
  refine ⟨d, ds ++ (t.fracText ++ t.expText) ++ rest, hdig, ?_⟩
  unfold NumTok.text
  rw [he]
  cases t.neg <;> simp

/-- No word starts like a number. -/
theorem find_constants_number {t : NumTok} (hwf : t.Wf) (rest : Str) :
    (constants.find? fun p => p.1.isPrefixOf (t.text ++ rest)) = none := by
  obtain ⟨d, ds, hd, he⟩ := text_eq_cons hwf rest
  rw [he]
  rw [isDigit_iff] at hd
  have h110 : ¬ 110 = d := by omega
  have h116 : ¬ 116 = d := by omega
  have h102 : ¬ 102 = d := by omega
  have h78 : ¬ 78 = d := by omega
  have h73 : ¬ 73 = d := by omega
  have h45 : ¬ 45 = d := by omega
  cases t.neg <;> simp [constants, lit, List.isPrefixOf, h110, h116, h102, h78, h73, h45]

/-- A value that is not a string, a list or a dict is scanned as an atom. -/
theorem scanValue_atom (lim : Limits) {c : Nat} (h34 : c ≠ 34) (h91 : c ≠ 91) (h123 : c ≠ 123)
    (fuel depth : Nat) (s : Str) : scanValue lim (fuel + 1) depth (c :: s) = scanAtom lim (c :: s) := by
  rw [scanValue.eq_def]
  split <;> simp_all

/-! ## The head of a text -/

theorem isSpace_digit {d : Nat} (h : isDigit d = true) : isSpace d = false := by
  rw [isDigit_iff] at h
  exact decide_eq_false (by omega)

/-- A text starts with a visible character, and none that closes a list. -/
theorem head_text (v : Json) (rest : Str) :
    ∃ c s, v.text ++ rest = c :: s ∧ isSpace c = false ∧ c ≠ 93 := by
  have number : ∀ {t : NumTok}, t.Wf →
      ∃ c s, t.text ++ rest = c :: s ∧ isSpace c = false ∧ c ≠ 93 := by
    intro t hwf
    obtain ⟨d, ds, hd, he⟩ := text_eq_cons hwf rest
    rw [he]
    cases t.neg with
    | true => exact ⟨45, d :: ds, rfl, rfl, by decide⟩
    | false => exact ⟨d, ds, rfl, isSpace_digit hd, by rw [isDigit_iff] at hd; omega⟩
  cases v with
  | null => exact ⟨110, _, rfl, rfl, by decide⟩
  | bool b => cases b <;> exact ⟨_, _, rfl, rfl, by decide⟩
  | int n => exact number (wf_intTok n)
  | float x =>
      cases x with
      | nan => exact ⟨78, _, rfl, rfl, by decide⟩
      | inf neg => cases neg <;> exact ⟨_, _, rfl, rfl, by decide⟩
      | fin neg mag => exact number (wf_floatTok neg mag)
  | str t => exact ⟨34, _, rfl, rfl, by decide⟩
  | arr xs => cases xs <;> exact ⟨91, _, rfl, rfl, by decide⟩
  | obj ms => cases ms <;> exact ⟨123, _, rfl, rfl, by decide⟩

theorem skipWs_text (v : Json) (rest : Str) : skipWs (v.text ++ rest) = v.text ++ rest := by
  obtain ⟨c, s, he, hs, -⟩ := head_text v rest
  rw [he]
  simp [skipWs, hs]

/-- A text does not start with a byte order mark. -/
theorem head_ne_bom (v : Json) : v.text.head? ≠ some 0xFEFF := by
  have number : ∀ {t : NumTok}, t.Wf → t.text.head? ≠ some 0xFEFF := by
    intro t hwf h
    obtain ⟨d, ds, hd, he⟩ := text_eq_cons hwf []
    rw [List.append_nil] at he
    rw [isDigit_iff] at hd
    rw [he] at h
    cases hneg : t.neg with
    | true => simp [hneg] at h
    | false =>
        simp only [hneg, Bool.false_eq_true, if_false, List.head?_cons, Option.some.injEq] at h
        omega
  cases v with
  | null => decide
  | bool b => cases b <;> decide
  | int n => exact number (wf_intTok n)
  | float x =>
      cases x with
      | nan => decide
      | inf neg => cases neg <;> decide
      | fin neg mag => exact number (wf_floatTok neg mag)
  | str t => simp [Json.text, strText]
  | arr xs => cases xs <;> simp [Json.text]
  | obj ms => cases ms <;> simp [Json.text]

/-! ## Values -/

mutual

/-- A `dict` has each key once. -/
def Json.Wf : Json → Prop
  | .arr xs => elemsWf xs
  | .obj ms => (keys ms).Nodup ∧ membersWf ms
  | _ => True

def elemsWf : List Json → Prop
  | [] => True
  | x :: xs => x.Wf ∧ elemsWf xs

def membersWf : List (Str × Json) → Prop
  | [] => True
  | (_, v) :: ms => v.Wf ∧ membersWf ms

end

theorem numStop_elemsText (xs : List Json) (rest : Str) : NumStop (elemsText xs ++ rest) := by
  cases xs <;> exact ⟨rfl, by decide, by decide, by decide⟩

theorem numStop_membersText (ms : List (Str × Json)) (rest : Str) :
    NumStop (membersText ms ++ rest) := by
  cases ms <;> exact ⟨rfl, by decide, by decide, by decide⟩

theorem skipWs_elemsText (xs : List Json) (rest : Str) :
    skipWs (elemsText xs ++ rest) = elemsText xs ++ rest := by
  cases xs <;> rfl

theorem skipWs_membersText (ms : List (Str × Json)) (rest : Str) :
    skipWs (membersText ms ++ rest) = membersText ms ++ rest := by
  cases ms <;> rfl

/-- What a scan returns: the first error of the value, or the value. -/
def verdict {α : Type} (e : Option JsonError) (a : α) : Except ScanError α :=
  match e with
  | some e => .error (.fail e)
  | none => .ok a

theorem numberValue_intTok (lim : Limits) (n : Int) :
    numberValue lim (intTok n) = verdict (intError lim n) (.int n) := by
  rw [numberValue, if_pos (isInt_intTok n), toInt_intTok, intError]
  by_cases h : lim.tooLong (decimal n.natAbs).length
  · rw [if_pos h, if_pos (show lim.tooLong (intTok n).int.length from h)]
    rfl
  · rw [if_neg h, if_neg (show ¬ lim.tooLong (intTok n).int.length from h)]
    rfl

theorem numberValue_floatTok (lim : Limits) (neg : Bool) (d : Double) :
    numberValue lim (floatTok neg d) = .ok (.float (.fin neg d)) := by
  rw [numberValue, isInt_floatTok, toFloat_floatTok]
  rfl

theorem scanValue_number (lim : Limits) {t : NumTok} (hwf : t.Wf) {rest : Str} (hr : NumStop rest)
    {v : Json} {e : Option JsonError} (hv : numberValue lim t = verdict e v) (fuel depth : Nat) :
    scanValue lim (fuel + 1) depth (t.text ++ rest) = verdict e (v, rest) := by
  have hatom : scanAtom lim (t.text ++ rest) = verdict e (v, rest) := by
    simp only [scanAtom, find_constants_number hwf, scanNumber_text hwf hr, hv]
    cases e <;> rfl
  rw [← hatom]
  obtain ⟨d, ds, hd, he⟩ := text_eq_cons hwf rest
  rw [he]
  rw [isDigit_iff] at hd
  cases t.neg with
  | true => exact scanValue_atom lim (by decide) (by decide) (by decide) fuel depth _
  | false => exact scanValue_atom lim (by omega) (by omega) (by omega) fuel depth _

mutual

/-- The scan of a text returns what the encoder's traversal of the value says. -/
theorem scanValue_text (lim : Limits) : ∀ (v : Json) (fuel depth : Nat) (rest : Str), v.Wf →
    NumStop rest → (v.text ++ rest).length < fuel →
    scanValue lim fuel depth (v.text ++ rest) = verdict (v.dumpsError lim depth) (v, rest)
  | _, 0, _, _, _, _, h => by simp at h
  | .null, fuel + 1, depth, rest, _, _, _ =>
      scanValue_atom lim (by decide) (by decide) (by decide) fuel depth _
  | .bool true, fuel + 1, depth, rest, _, _, _ =>
      scanValue_atom lim (by decide) (by decide) (by decide) fuel depth _
  | .bool false, fuel + 1, depth, rest, _, _, _ =>
      scanValue_atom lim (by decide) (by decide) (by decide) fuel depth _
  | .int n, fuel + 1, depth, rest, _, hr, _ =>
      scanValue_number lim (wf_intTok n) hr (numberValue_intTok lim n) fuel depth
  | .float .nan, fuel + 1, depth, rest, _, _, _ =>
      scanValue_atom lim (by decide) (by decide) (by decide) fuel depth _
  | .float (.inf true), fuel + 1, depth, rest, _, _, _ =>
      scanValue_atom lim (by decide) (by decide) (by decide) fuel depth _
  | .float (.inf false), fuel + 1, depth, rest, _, _, _ =>
      scanValue_atom lim (by decide) (by decide) (by decide) fuel depth _
  | .float (.fin neg mag), fuel + 1, depth, rest, _, hr, _ =>
      scanValue_number (e := none) lim (wf_floatTok neg mag) hr (numberValue_floatTok lim neg mag)
        fuel depth
  | .str s, fuel + 1, depth, rest, _, _, _ => by
      simp only [Json.text, strText, List.cons_append, List.append_assoc, List.nil_append,
        scanValue]
      rw [scanBody_strText, andThen_ok]
      rfl
  | .arr [], _ + 1, 0, _, _, _, _ => rfl
  | .arr (_ :: _), _ + 1, 0, _, _, _, _ => rfl
  | .arr [], fuel + 1, depth + 1, rest, _, _, _ => by
      simp [Json.text, scanValue, skipWs, isSpace, Json.dumpsError, elemsError, verdict]
  | .arr (x :: xs), fuel + 1, depth + 1, rest, hwf, _, h => by
      simp only [Json.Wf, elemsWf] at hwf
      simp only [Json.text, List.cons_append, List.append_assoc, List.length_cons] at h ⊢
      have hx := scanValue_text lim x fuel depth (elemsText xs ++ rest) hwf.1
        (numStop_elemsText xs rest) (by omega)
      have hxs := scanElems_text lim xs fuel depth rest hwf.2
        (by simp only [List.length_append] at h ⊢; omega)
      obtain ⟨c, s, hc, -, hne⟩ := head_text x (elemsText xs ++ rest)
      rw [scanValue, skipWs_text]
      rw [hc] at hx ⊢
      split
      · rename_i hbracket
        exact absurd (List.cons.inj hbracket).1 hne
      · rw [hx, Json.dumpsError, elemsError]
        cases x.dumpsError lim depth with
        | some e => rfl
        | none =>
            simp only [verdict, andThen_ok, skipWs_elemsText, hxs, Option.none_or]
            cases elemsError lim depth xs <;> rfl
  | .obj [], _ + 1, 0, _, _, _, _ => rfl
  | .obj (_ :: _), _ + 1, 0, _, _, _, _ => rfl
  | .obj [], fuel + 1, depth + 1, rest, _, _, _ => by
      simp [Json.text, scanValue, skipWs, isSpace, Json.dumpsError, membersError, verdict]
  | .obj ((k, v) :: ms), fuel + 1, depth + 1, rest, hwf, _, h => by
      simp only [Json.Wf, membersWf] at hwf
      have hm := scanMember_text lim k v ms fuel depth rest hwf.2.1 hwf.2.2
        (by simpa [Json.text] using h)
      simp only [Json.text, List.cons_append, List.append_assoc, strText, List.nil_append] at hm ⊢
      rw [scanValue]
      simp only [show ∀ s, skipWs (34 :: s) = 34 :: s from fun _ => rfl, hm, Json.dumpsError]
      cases membersError lim depth ((k, v) :: ms) with
      | some e => rfl
      | none => simp only [verdict, andThen_ok, dictOf_of_nodup hwf.1]
termination_by structural _ fuel => fuel

theorem scanElems_text (lim : Limits) : ∀ (xs : List Json) (fuel depth : Nat) (rest : Str),
    elemsWf xs → (elemsText xs ++ rest).length < fuel →
    scanElems lim fuel depth (elemsText xs ++ rest) = verdict (elemsError lim depth xs) (xs, rest)
  | _, 0, _, _, _, h => by simp at h
  | [], fuel + 1, depth, rest, _, _ => by simp [elemsText, scanElems, elemsError, verdict]
  | x :: xs, fuel + 1, depth, rest, hwf, h => by
      simp only [elemsWf] at hwf
      simp only [elemsText, List.cons_append, List.append_assoc, List.length_cons] at h ⊢
      have hx := scanValue_text lim x fuel depth (elemsText xs ++ rest) hwf.1
        (numStop_elemsText xs rest) (by omega)
      have hxs := scanElems_text lim xs fuel depth rest hwf.2
        (by simp only [List.length_append] at h ⊢; omega)
      rw [scanElems, skipWs_text, hx, elemsError]
      cases x.dumpsError lim depth with
      | some e => rfl
      | none =>
          simp only [verdict, andThen_ok, skipWs_elemsText, hxs, Option.none_or]
          cases elemsError lim depth xs <;> rfl
termination_by structural _ fuel => fuel

theorem scanMember_text (lim : Limits) (k : Str) : ∀ (v : Json) (ms : List (Str × Json))
    (fuel depth : Nat) (rest : Str), v.Wf → membersWf ms →
    (strText k ++ 58 :: (v.text ++ (membersText ms ++ rest))).length < fuel →
    scanMember lim fuel depth (strText k ++ 58 :: (v.text ++ (membersText ms ++ rest)))
      = verdict (membersError lim depth ((k, v) :: ms)) ((k, v) :: ms, rest)
  | _, _, 0, _, _, _, _, h => by simp at h
  | v, ms, fuel + 1, depth, rest, hv, hms, h => by
      have hx := scanValue_text lim v fuel depth (membersText ms ++ rest) hv
        (numStop_membersText ms rest)
        (by simp only [List.length_append, List.length_cons] at h ⊢; omega)
      have hxs := scanMembers_text lim ms fuel depth rest hms
        (by simp only [List.length_append, List.length_cons] at h ⊢; omega)
      simp only [strText, List.cons_append, List.append_assoc, List.nil_append, scanMember]
      rw [scanBody_strText, andThen_ok, membersError]
      simp only [show ∀ s, skipWs (58 :: s) = 58 :: s from fun _ => rfl, skipWs_text, hx]
      cases v.dumpsError lim depth with
      | some e => rfl
      | none =>
          simp only [verdict, andThen_ok, skipWs_membersText, hxs, Option.none_or]
          cases membersError lim depth ms <;> rfl
termination_by structural _ _ fuel => fuel

theorem scanMembers_text (lim : Limits) : ∀ (ms : List (Str × Json)) (fuel depth : Nat)
    (rest : Str), membersWf ms → (membersText ms ++ rest).length < fuel →
    scanMembers lim fuel depth (membersText ms ++ rest)
      = verdict (membersError lim depth ms) (ms, rest)
  | _, 0, _, _, _, h => by simp at h
  | [], fuel + 1, depth, rest, _, _ => by simp [membersText, scanMembers, membersError, verdict]
  | (k, v) :: ms, fuel + 1, depth, rest, hwf, h => by
      simp only [membersWf] at hwf
      simp only [membersText, List.cons_append, List.append_assoc, List.length_cons] at h ⊢
      have hm := scanMember_text lim k v ms fuel depth rest hwf.1 hwf.2 (by omega)
      rw [scanMembers]
      simp only [strText, List.cons_append, show ∀ s, skipWs (34 :: s) = 34 :: s from fun _ => rfl]
        at hm ⊢
      exact hm
termination_by structural _ fuel => fuel

end

/-- Loading the text of a value gives the value, or the error that writing it under the loading
interpreter's limits would give. -/
theorem loads_text (lim : Limits) {v : Json} (hwf : v.Wf) :
    loads lim v.text =
      match v.dumpsError lim lim.loadsDepth with
      | some e => .error e
      | none => .ok v := by
  have hscan := scanValue_text lim v (v.text.length + 1) lim.loadsDepth [] hwf trivial (by simp)
  rw [List.append_nil] at hscan
  have hskip : skipWs v.text = v.text := by
    simpa using skipWs_text v []
  simp only [loads, if_neg (head_ne_bom v), scanDocument, hskip, hscan]
  cases v.dumpsError lim lim.loadsDepth <;> rfl

/-! ## The fuel suffices -/

/-- A scan of fewer than `n` characters that did not run out of fuel. -/
def Ends {α : Type} (n : Nat) (r : Except ScanError (α × Str)) : Prop :=
  r ≠ .error .fuel ∧ ∀ (a : α) (rest : Str), r = .ok (a, rest) → rest.length < n

theorem ends_ok {α : Type} {n : Nat} {a : α} {rest : Str} (h : rest.length < n) :
    Ends n (.ok (a, rest)) :=
  ⟨by simp, fun _ _ e => by cases e; exact h⟩

theorem ends_fail {α : Type} {n : Nat} {e : JsonError} :
    Ends n (.error (.fail e) : Except ScanError (α × Str)) :=
  ⟨by simp, fun _ _ h => by cases h⟩

theorem Ends.andThen {α β : Type} {n m : Nat} {r : Except ScanError (α × Str)}
    {f : α → Str → Except ScanError (β × Str)} (h : Ends n r)
    (hf : ∀ (a : α) (rest : Str), rest.length < n → Ends m (f a rest)) :
    Ends m (andThen r f) := by
  cases r with
  | ok p => exact hf p.1 p.2 (h.2 p.1 p.2 rfl)
  | error e =>
      cases e with
      | fuel => exact absurd rfl h.1
      | fail e => exact ends_fail

theorem Ends.mono {α : Type} {n m : Nat} {r : Except ScanError (α × Str)} (h : Ends n r)
    (hnm : n ≤ m) : Ends m r :=
  ⟨h.1, fun a rest e => Nat.lt_of_lt_of_le (h.2 a rest e) hnm⟩

theorem length_skipWs_le (s : Str) : (skipWs s).length ≤ s.length :=
  (List.dropWhile_sublist _).length_le

theorem length_scanLow {s rest : Str} {lo : Nat} (h : scanLow s = some (some (lo, rest))) :
    rest.length < s.length := by
  unfold scanLow at h
  split at h
  · split at h
    · cases h
    · split at h
      · cases h
        simp only [List.length_cons]
        omega
      · cases h
  · cases h

theorem length_scanItem_char {s rest : Str} {c : Nat} (h : scanItem s = .char c rest) :
    rest.length < s.length := by
  unfold scanItem at h
  split at h
  · cases h
  · cases h
  · split at h
    · cases h
    · split at h
      · split at h
        · cases h
        · cases h
          simp only [List.length_cons]
          omega
        · rename_i hlow
          injection h with _ hrest
          subst hrest
          have := length_scanLow hlow
          simp only [List.length_cons]
          omega
      · cases h
        simp only [List.length_cons]
        omega
  · split at h
    · cases h
    · cases h
      simp only [List.length_cons]
      omega
  · split at h
    · cases h
    · cases h
      simp

theorem length_scanItem_close {s rest : Str} (h : scanItem s = .close rest) :
    rest.length < s.length := by
  unfold scanItem at h
  split at h
  · cases h
  · cases h
    simp
  · split at h
    · cases h
    · split at h
      · split at h <;> cases h
      · cases h
  · split at h <;> cases h
  · split at h <;> cases h

theorem scanBody_ends : ∀ (fuel : Nat) (s : Str), s.length < fuel → Ends s.length (scanBody fuel s)
  | 0, _, h => absurd h (Nat.not_lt_zero _)
  | fuel + 1, s, h => by
      rw [scanBody]
      split
      · exact ends_fail
      · rename_i hclose
        exact ends_ok (length_scanItem_close hclose)
      · rename_i hchar
        have hlt := length_scanItem_char hchar
        exact (scanBody_ends fuel _ (by omega)).andThen fun _ _ hr => ends_ok (by omega)

theorem length_scanNumber {s rest : Str} {t : NumTok} (h : scanNumber s = some (t, rest)) :
    rest.length < s.length := by
  have hint : ∀ {s int r : Str}, scanInt s = some (int, r) → r.length < s.length := by
    intro s int r h
    unfold scanInt at h
    split at h
    · cases h
      simp
    · split at h
      · cases h
      · rename_i hne
        cases h
        have hsplit := congrArg List.length (List.takeWhile_append_dropWhile (p := isDigit) (l := s))
        have hpos := List.length_pos_of_ne_nil hne
        rw [List.length_append] at hsplit
        omega
  have hdrop : ∀ s : Str, (s.dropWhile isDigit).length ≤ s.length :=
    fun s => (List.dropWhile_sublist _).length_le
  have hfrac : ∀ s : Str, (scanFrac s).2.length ≤ s.length := by
    intro s
    unfold scanFrac
    split
    · rename_i r
      split
      · simp
      · have := hdrop r
        simp only [List.length_cons]
        omega
    · simp
  have hsign : ∀ s : Str, (scanSign s).2.length ≤ s.length := by
    intro s
    unfold scanSign
    split <;> simp
  have hexp : ∀ s : Str, (scanExp s).2.length ≤ s.length := by
    intro s
    unfold scanExp
    split
    · simp
    · rename_i c r
      split
      · split
        · simp
        · have h1 := hdrop (scanSign r).2
          have h2 := hsign r
          simp only [List.length_cons]
          omega
      · simp
  have hun : ∀ {neg : Bool} {s r : Str} {t : NumTok}, scanUnsigned neg s = some (t, r) →
      r.length < s.length := by
    intro neg s r t h
    unfold scanUnsigned at h
    split at h
    · cases h
    · rename_i int s₁ hi
      have h1 := hint hi
      have h2 := hfrac s₁
      have h3 := hexp (scanFrac s₁).2
      have hr : (scanExp (scanFrac s₁).2).2 = r := congrArg Prod.snd (Option.some.inj h)
      rw [← hr]
      omega
  unfold scanNumber at h
  split at h
  · have := hun h
    simp only [List.length_cons]
    omega
  · exact hun h

theorem scanAtom_ends (lim : Limits) (s : Str) : Ends s.length (scanAtom lim s) := by
  unfold scanAtom
  split
  · rename_i p hp
    have hstart := List.find?_some hp
    have hmem := List.mem_of_find?_eq_some hp
    have hlen := (List.isPrefixOf_iff_prefix.mp hstart).length_le
    have hpos : ∀ q ∈ constants, 0 < q.1.length := by
      simp [constants, lit]
    have := hpos p hmem
    refine ends_ok ?_
    rw [List.length_drop]
    omega
  · split
    · exact ends_fail
    · rename_i t rest ht
      have hlen := length_scanNumber ht
      unfold numberValue
      split_ifs
      · exact ends_fail
      · exact ends_ok hlen
      · exact ends_ok hlen

mutual

theorem scanValue_ends (lim : Limits) : ∀ (fuel depth : Nat) (s : Str), s.length < fuel →
    Ends s.length (scanValue lim fuel depth s)
  | 0, _, _, h => absurd h (Nat.not_lt_zero _)
  | fuel + 1, depth, s, h => by
      rw [scanValue.eq_def]
      split
      · rename_i heq
        cases heq
      · rename_i rest heq
        exact (scanBody_ends _ rest (by omega)).andThen fun _ _ hr =>
          ends_ok (by simp only [List.length_cons]; omega)
      · exact ends_fail
      · rename_i fuel' depth' rest heq
        cases heq
        simp only [List.length_cons] at h ⊢
        have hws := length_skipWs_le rest
        split
        · rename_i hb
          rw [hb] at hws
          exact ends_ok (by simp only [List.length_cons] at hws; omega)
        · refine (scanValue_ends lim fuel depth' (skipWs rest) (by omega)).andThen fun x r hr => ?_
          have hwr := length_skipWs_le r
          exact (scanElems_ends lim fuel depth' (skipWs r) (by omega)).andThen fun _ _ hr' =>
            ends_ok (by omega)
      · exact ends_fail
      · rename_i fuel' depth' rest heq
        cases heq
        simp only [List.length_cons] at h ⊢
        have hws := length_skipWs_le rest
        split
        · rename_i hb
          rw [hb] at hws
          exact ends_ok (by simp only [List.length_cons] at hws; omega)
        · exact (scanMember_ends lim fuel depth' (skipWs rest) (by omega)).andThen fun _ _ hr =>
            ends_ok (by omega)
      · exact scanAtom_ends lim _

theorem scanElems_ends (lim : Limits) : ∀ (fuel depth : Nat) (s : Str), s.length < fuel →
    Ends s.length (scanElems lim fuel depth s)
  | 0, _, _, h => absurd h (Nat.not_lt_zero _)
  | fuel + 1, depth, s, h => by
      rw [scanElems.eq_def]
      split
      · rename_i heq
        cases heq
      · exact ends_ok (by simp)
      · rename_i fuel' depth' rest heq
        cases heq
        simp only [List.length_cons] at h ⊢
        have hws := length_skipWs_le rest
        refine (scanValue_ends lim fuel _ (skipWs rest) (by omega)).andThen fun x r hr => ?_
        have hwr := length_skipWs_le r
        exact (scanElems_ends lim fuel _ (skipWs r) (by omega)).andThen fun _ _ hr' =>
          ends_ok (by omega)
      · exact ends_fail

theorem scanMember_ends (lim : Limits) : ∀ (fuel depth : Nat) (s : Str), s.length < fuel →
    Ends s.length (scanMember lim fuel depth s)
  | 0, _, _, h => absurd h (Nat.not_lt_zero _)
  | fuel + 1, depth, s, h => by
      rw [scanMember.eq_def]
      split
      · rename_i heq
        cases heq
      · rename_i fuel' depth' rest heq
        cases heq
        simp only [List.length_cons] at h ⊢
        refine (scanBody_ends _ rest (by omega)).andThen fun k r hr => ?_
        have hwr := length_skipWs_le r
        split
        · rename_i r' hb
          rw [hb] at hwr
          simp only [List.length_cons] at hwr
          have hws := length_skipWs_le r'
          refine (scanValue_ends lim fuel _ (skipWs r') (by omega)).andThen fun v r₂ hr₂ => ?_
          have hw₂ := length_skipWs_le r₂
          exact (scanMembers_ends lim fuel _ (skipWs r₂) (by omega)).andThen fun _ _ hr₃ =>
            ends_ok (by omega)
        · exact ends_fail
      · exact ends_fail

theorem scanMembers_ends (lim : Limits) : ∀ (fuel depth : Nat) (s : Str), s.length < fuel →
    Ends s.length (scanMembers lim fuel depth s)
  | 0, _, _, h => absurd h (Nat.not_lt_zero _)
  | fuel + 1, depth, s, h => by
      rw [scanMembers.eq_def]
      split
      · rename_i heq
        cases heq
      · exact ends_ok (by simp)
      · rename_i fuel' depth' rest heq
        cases heq
        simp only [List.length_cons] at h ⊢
        have hws := length_skipWs_le rest
        exact (scanMember_ends lim fuel _ (skipWs rest) (by omega)).mono (by omega)
      · exact ends_fail

end

/-- `loads` reports the scanner's own verdict. -/
theorem scanDocument_ne_fuel (lim : Limits) (s : Str) : scanDocument lim s ≠ .error .fuel := by
  have hws := length_skipWs_le s
  have h := scanValue_ends lim (s.length + 1) lim.loadsDepth (skipWs s) (by omega)
  unfold scanDocument
  split
  · rename_i e he
    intro hfuel
    cases hfuel
    exact h.1 he
  · split <;> simp

end Py
