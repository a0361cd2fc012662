/-
# `Python.Re` — `re.compile` and `fullmatch`

The reader of pattern texts, as the source's library reads them: one character
after another onto the items of the innermost open group, a repetition taking the
last item.  Literals, classes, groups, alternatives, repetitions and the two anchors
are read.  Backslashes, extension groups `(?…)` and possessive repetitions are not:
a text that uses them is `unread`, and nothing is said about what it matches.

A character that is special to the reader stands for something else than itself;
every other one is an item of its own (`scan_plain`).
-/
import UnifiedNamespace.Python.Str
import UnifiedNamespace.Lib.Regex

namespace Py

open Lib

/-- `re.error` and its like, or syntax that is not read here. -/
inductive ReFault where
  | bad
  | unread
  deriving DecidableEq

/-- What an item of a pattern is, for the repetition after it. -/
inductive ItemKind where
  | atom
  | anchor
  | repeated
  deriving DecidableEq

/-- An open group: the alternatives before, and the items of the current one. -/
structure Frame where
  branches : List (Regex Nat)
  items : List (ItemKind × Regex Nat)

namespace Frame

def empty : Frame := ⟨[], []⟩

def push (f : Frame) (kind : ItemKind) (r : Regex Nat) : Frame := ⟨f.branches, f.items ++ [(kind, r)]⟩

/-- `|`. -/
def branch (f : Frame) : Frame := ⟨f.branches ++ [Regex.seqOf (f.items.map Prod.snd)], []⟩

/-- The pattern of the group. -/
def close (f : Frame) : Regex Nat := f.branches.foldr .alt (Regex.seqOf (f.items.map Prod.snd))

end Frame

/-! ## Classes -/

/-- The rest of a class after `[` or `[^`; a bracket in the first place is a member. -/
def scanSet : Bool → Str → Except ReFault ((Nat → Bool) × Str)
  | _, [] => .error .bad
  | first, c :: 45 :: d :: s =>
      if c = 93 ∧ first = false then .ok (fun _ => false, 45 :: d :: s)
      else if c = 92 then .error .unread
      else if d = 93 then .ok (fun x => decide (x = c) || decide (x = 45), s)
      else if d = 92 then .error .unread
      else if d < c then .error .bad
      else (scanSet false s).map fun (p, rest) => (fun x => decide (c ≤ x ∧ x ≤ d) || p x, rest)
  | first, c :: s =>
      if c = 93 ∧ first = false then .ok (fun _ => false, s)
      else if c = 92 then .error .unread
      else (scanSet false s).map fun (p, rest) => (fun x => decide (x = c) || p x, rest)

/-! ## Repetitions -/

/-- `MAXREPEAT`. -/
def maxRepeat : Nat := 4294967295

/-- `r` from `lo` to `hi` times. -/
def repeatRange (r : Regex Nat) (lo : Nat) (hi : Option Nat) : Regex Nat :=
  match hi with
  | none => Regex.seqOf (List.replicate lo r ++ [.star r])
  | some hi => Regex.seqOf (List.replicate lo r ++ List.replicate (hi - lo) (.alt r .eps))

/-- The digits at the head of `s`, and what follows. -/
def digits (s : Str) : Str × Str := (s.takeWhile isDigit, s.dropWhile isDigit)

/-- `m`, `m,`, `,n` or `m,n` and a brace, after the opening one.  A text of another form leaves the
opening brace a literal. -/
def scanBraces (s : Str) : Option (Str × Str × Str) :=
  if s.head? = some 125 then none
  else
    match (digits s).2 with
    | 44 :: s' =>
        match (digits s').2 with
        | 125 :: rest => some ((digits s).1, (digits s').1, rest)
        | _ => none
    | 125 :: rest => some ((digits s).1, (digits s).1, rest)
    | _ => none

/-- The bounds of a repetition in braces. -/
def braceBounds (lo hi : Str) : Except ReFault (Nat × Option Nat) :=
  let low := ofDecimal lo
  match hi with
  | [] => if maxRepeat ≤ low then .error .bad else .ok (low, none)
  | _ =>
      let high := ofDecimal hi
      if maxRepeat ≤ low ∨ maxRepeat ≤ high ∨ high < low then .error .bad else .ok (low, some high)

/-- The last item repeated, and the text after the `?` of a lazy repetition. -/
def repeatLast (f : Frame) (lo : Nat) (hi : Option Nat) (s : Str) : Except ReFault (Frame × Str) :=
  match f.items.getLast? with
  | some (.atom, r) =>
      let repeated : Frame := ⟨f.branches, f.items.dropLast ++ [(.repeated, repeatRange r lo hi)]⟩
      match s with
      | 63 :: rest => .ok (repeated, rest)
      | 43 :: _ => .error .unread
      | _ => .ok (repeated, s)
  | _ => .error .bad

/-! ## The reader -/

/-- `.`: anything but a line feed. -/
def anyChar : Nat → Bool := fun c => decide (c ≠ 10)

/-- A character that stands for itself. -/
def literal (c : Nat) : Regex Nat := .set fun d => decide (d = c)

/-- The text from here on, with the open groups around the innermost one.  Each turn takes a character
at least, so `fuel` is the length of the text. -/
def scan : Nat → List Frame → Frame → Str → Except ReFault (Regex Nat)
  | _, [], frame, [] => .ok frame.close
  | _, _ :: _, _, [] => .error .bad
  | 0, _, _, _ :: _ => .error .bad
  | fuel + 1, stack, frame, c :: s =>
      let repeated (lo : Nat) (hi : Option Nat) (s : Str) : Except ReFault (Regex Nat) :=
        match repeatLast frame lo hi s with
        | .ok (frame, s) => scan fuel stack frame s
        | .error e => .error e
      match c with
      | 92 => .error .unread
      | 46 => scan fuel stack (frame.push .atom (.set anyChar)) s
      | 94 => scan fuel stack (frame.push .anchor .bos) s
      | 36 => scan fuel stack (frame.push .anchor (.eos fun d => decide (d = 10))) s
      | 124 => scan fuel stack frame.branch s
      | 42 => repeated 0 none s
      | 43 => repeated 1 none s
      | 63 => repeated 0 (some 1) s
      | 123 =>
          match scanBraces s with
          | none => scan fuel stack (frame.push .atom (literal 123)) s
          | some (lo, hi, s) =>
              match braceBounds lo hi with
              | .ok (low, high) => repeated low high s
              | .error e => .error e
      | 40 =>
          match s with
          | 63 :: _ => .error .unread
          | _ => scan fuel (frame :: stack) .empty s
      | 41 =>
          match stack with
          | [] => .error .bad
          | outer :: stack => scan fuel stack (outer.push .atom frame.close) s
      | 91 =>
          match s with
          | 94 :: s =>
              match scanSet true s with
              | .ok (p, s) => scan fuel stack (frame.push .atom (.set fun d => !p d)) s
              | .error e => .error e
          | _ =>
              match scanSet true s with
              | .ok (p, s) => scan fuel stack (frame.push .atom (.set p)) s
              | .error e => .error e
      | _ => scan fuel stack (frame.push .atom (literal c)) s

/-- `re.compile(text)`. -/
def compile (text : Str) : Except ReFault (Regex Nat) := scan text.length [] .empty text

/-- `bool(re.compile(text).fullmatch(s))`. -/
def fullmatch (text s : Str) : Except ReFault Bool := (compile text).map fun r => r.fullmatch s

/-! ## Plain text -/

/-- The characters the reader does not take as they are. -/
def specials : Str := lit "\\.^$|*+?\x7b()["

def isSpecial (c : Nat) : Bool := specials.contains c

/-- Every character of the text stands for itself: none is special, other than braces that open no
repetition. -/
def plainText : Str → Bool
  | [] => true
  | c :: s => (!isSpecial c || (decide (c = 123) && (scanBraces s).isNone)) && plainText s

/-- What may follow plain text so that neither is read into the other. -/
def Stops (s : Str) : Prop := ∀ c ∈ s.head?, c = 47 ∨ c = 40

def Frame.pushAll (f : Frame) (items : List (ItemKind × Regex Nat)) : Frame := ⟨f.branches, f.items ++ items⟩

theorem Frame.pushAll_pushAll (f : Frame) (xs ys : List (ItemKind × Regex Nat)) :
    (f.pushAll xs).pushAll ys = f.pushAll (xs ++ ys) := by
  simp only [Frame.pushAll, List.append_assoc]

theorem Frame.push_eq (f : Frame) (kind : ItemKind) (r : Regex Nat) : f.push kind r = f.pushAll [(kind, r)] := rfl

theorem scan_plain {c : Nat} (h : isSpecial c = false) (fuel : Nat) (stack : List Frame) (frame : Frame) (s : Str) :
    scan (fuel + 1) stack frame (c :: s) = scan fuel stack (frame.push .atom (literal c)) s := by
  have hne : ∀ d ∈ specials, c ≠ d := by
    rintro d hd rfl
    rw [isSpecial, List.contains_iff_mem.mpr hd] at h
    cases h
  rw [scan]
  all_goals exact hne _ (by decide)

theorem scan_brace {s : Str} (h : scanBraces s = none) (fuel : Nat) (stack : List Frame) (frame : Frame) :
    scan (fuel + 1) stack frame (123 :: s) = scan fuel stack (frame.push .atom (literal 123)) s := by
  simp only [scan, h]

theorem Stops.not_digit {s : Str} (h : Stops s) : ∀ c ∈ s.head?, isDigit c = false ∧ c ≠ 44 ∧ c ≠ 125 := by
  intro c hc
  rcases h c hc with rfl | rfl <;> decide

theorem digits_append {s rest : Str} (hrest : ∀ c ∈ rest.head?, isDigit c = false) :
    (digits (s ++ rest)).2 = (digits s).2 ++ rest := by
  induction s with
  | nil =>
      cases rest with
      | nil => rfl
      | cons c rest =>
          have hc : isDigit c = false := hrest c rfl
          simp only [digits, List.nil_append, List.dropWhile_nil, List.dropWhile_cons, hc, Bool.false_eq_true, if_false]
  | cons d s ih =>
      simp only [digits, List.cons_append, List.dropWhile_cons] at ih ⊢
      split
      · exact ih
      · rfl

/-- The digits of a repetition are followed by its end, or by a comma, digits and its end. -/
def Closes (s : Str) : Prop :=
  (∃ rest, s = 125 :: rest) ∨ ∃ s' rest, s = 44 :: s' ∧ (digits s').2 = 125 :: rest

theorem scanBraces_eq_none {s : Str} : scanBraces s = none ↔ s.head? = some 125 ∨ ¬ Closes (digits s).2 := by
  rw [scanBraces]
  split
  · next hhead => exact iff_of_true rfl (.inl hhead)
  · next hhead =>
      rw [or_iff_right hhead]
      split
      · next s' hcomma =>
          split
          · next rest hclose =>
              refine iff_of_false (fun h => (by cases h)) fun h => h (.inr ⟨s', rest, hcomma, hclose⟩)
          · next hopen =>
              refine iff_of_true rfl ?_
              rintro (⟨rest, h⟩ | ⟨s'', rest, h, hclose⟩)
              · rw [hcomma] at h
                cases h
              · rw [hcomma] at h
                cases h
                exact hopen rest hclose
      · next rest hclose => exact iff_of_false (fun h => (by cases h)) fun h => h (.inl ⟨rest, hclose⟩)
      · next hcomma hclose =>
          refine iff_of_true rfl ?_
          rintro (⟨rest, h⟩ | ⟨s', rest, h, -⟩)
          · exact hclose rest h
          · exact hcomma s' h

theorem Closes.of_append {s rest : Str} (hrest : Stops rest) (h : Closes (s ++ rest)) : Closes s := by
  rcases h with ⟨tail, h⟩ | ⟨s', tail, h, hclose⟩
  · cases s with
    | nil => exact absurd rfl (hrest.not_digit 125 (by rw [List.nil_append] at h; rw [h]; rfl)).2.2
    | cons c s =>
        obtain ⟨rfl, -⟩ := List.cons.inj h
        exact .inl ⟨s, rfl⟩
  · cases s with
    | nil => exact absurd rfl (hrest.not_digit 44 (by rw [List.nil_append] at h; rw [h]; rfl)).2.1
    | cons c s =>
        obtain ⟨rfl, htail⟩ := List.cons.inj h
        change s ++ rest = s' at htail
        rw [← htail, digits_append fun c hc => (hrest.not_digit c hc).1] at hclose
        cases hdigits : (digits s).2 with
        | nil =>
            rw [hdigits, List.nil_append] at hclose
            exact absurd rfl (hrest.not_digit 125 (by rw [hclose]; rfl)).2.2
        | cons d s' =>
            rw [hdigits] at hclose
            obtain ⟨rfl, -⟩ := List.cons.inj hclose
            exact .inr ⟨s, s', rfl, hdigits⟩

/-- A brace that opens no repetition in a text opens none when the text goes on. -/
theorem scanBraces_append {s rest : Str} (hrest : Stops rest) (h : scanBraces s = none) :
    scanBraces (s ++ rest) = none := by
  rw [scanBraces_eq_none] at h ⊢
  rcases h with h | h
  · refine .inl ?_
    rw [List.head?_append, h]
    rfl
  · refine .inr fun hcloses => h ?_
    rw [digits_append fun c hc => (hrest.not_digit c hc).1] at hcloses
    exact hcloses.of_append hrest

/-- Plain text is read character by character. -/
theorem scan_plainText {w rest : Str} (hw : plainText w = true) (hrest : Stops rest) {fuel : Nat} {stack : List Frame} :
    ∀ {frame : Frame}, scan (w.length + fuel) stack frame (w ++ rest) =
      scan fuel stack (frame.pushAll (w.map fun c => (.atom, literal c))) rest := by
  induction w with
  | nil =>
      intro frame
      rw [List.length_nil, Nat.zero_add, List.map_nil, Frame.pushAll, List.append_nil]
      rfl
  | cons c w ih =>
      intro frame
      rw [plainText, Bool.and_eq_true, Bool.or_eq_true, Bool.and_eq_true, Bool.not_eq_true', decide_eq_true_eq,
        Option.isNone_iff_eq_none] at hw
      have hstep : scan (w.length + fuel + 1) stack frame (c :: (w ++ rest)) =
          scan (w.length + fuel) stack (frame.push .atom (literal c)) (w ++ rest) := by
        rcases hw.1 with hplain | ⟨rfl, hbrace⟩
        · exact scan_plain hplain _ _ _ _
        · exact scan_brace (scanBraces_append hrest hbrace) _ _ _
      rw [List.length_cons, Nat.add_right_comm, List.cons_append, hstep, ih hw.2, Frame.push_eq, Frame.pushAll_pushAll,
        List.map_cons, List.singleton_append]

/-! ## Repeated items -/

theorem repeatLast_push {frame : Frame} {r : Regex Nat} {lo : Nat} {hi : Option Nat} {s : Str} (h : Stops s) :
    repeatLast (frame.push .atom r) lo hi s = .ok (frame.push .repeated (repeatRange r lo hi), s) := by
  simp only [repeatLast, Frame.push, List.getLast?_concat, List.dropLast_concat]
  cases s with
  | nil => rfl
  | cons c s => rcases h c rfl with rfl | rfl <;> rfl

/-- An item repeated without bounds is a star. -/
theorem mem_rests_repeated {total : Nat} {r : Regex Nat} {s t : Str} :
    t ∈ Regex.rests total (repeatRange r 0 none) s ↔ t ∈ Regex.rests total (.star r) s :=
  Regex.mem_rests_seqOf_singleton

/-- A pattern without alternatives is its items in a row. -/
theorem close_pushAll (items : List (ItemKind × Regex Nat)) :
    (Frame.empty.pushAll items).close = Regex.seqOf (items.map Prod.snd) := by
  simp only [Frame.close, Frame.pushAll, Frame.empty, List.nil_append, List.foldr_nil]

end Py
