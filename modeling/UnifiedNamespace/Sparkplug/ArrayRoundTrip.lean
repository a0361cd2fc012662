/-
# `Sparkplug.ArrayRoundTrip` — what an array setter packs is read again

Integers are packed with a fixed width, booleans as the bits of bytes after their number, texts
as the hex digits of their UTF-8 with a null after each.  `array_round_trip` says of every list
of an array datatype that the bytes that are written read as the list, and that bytes are
written unless the number of booleans does not fit into four bytes or a text does not encode.
-/
import UnifiedNamespace.Sparkplug.Setters

namespace Uns.Sparkplug

open Py

/-! ## Packed elements -/

theorem length_littleEndian (k n : Nat) : (littleEndian k n).length = k := by
  induction k generalizing n with
  | zero => rfl
  | succ k ih => rw [littleEndian, List.length_cons, ih]

theorem ofLittleEndian_littleEndian (k n : Nat) : ofLittleEndian (littleEndian k n) = n % 256 ^ k := by
  induction k generalizing n with
  | zero => exact (Nat.mod_one n).symm
  | succ k ih =>
      have hcons : ofLittleEndian (littleEndian (k + 1) n) =
          (UInt8.ofNat n).toNat + 256 * ofLittleEndian (littleEndian k (n / 256)) := rfl
      rw [hcons, ih, UInt8.toNat_ofNat', pow_succ' 256, Nat.mod_mul]

theorem mapM_eq_map {α β : Type} {f : α → Option β} {g : α → β} {xs : List α} (h : ∀ x ∈ xs, f x = some (g x)) :
    xs.mapM f = some (xs.map g) := by
  induction xs with
  | nil => rfl
  | cons x xs ih =>
      obtain ⟨hx, hxs⟩ := List.forall_mem_cons.mp h
      rw [List.mapM_cons, hx, ih hxs]
      rfl

section

variable {k : Nat}

/-- Chunks of one length are found again. -/
theorem toChunks_flatten (hk : 0 < k) {chunks : List Bytes} (h : ∀ c ∈ chunks, c.length = k) :
    chunks.flatten.toChunks k = chunks := by
  -- a chunk is read up to `rest`, and the chunks after it are still to be read
  have hgo : ∀ (chunks : List Bytes), (∀ c ∈ chunks, c.length = k) → ∀ (rest : Bytes) (acc : Array UInt8)
      (done : Array Bytes), acc.size + rest.length = k →
      List.toChunks.go k (rest ++ chunks.flatten) acc done = done.toList ++ (acc.toList ++ rest) :: chunks := by
    intro chunks
    induction chunks with
    | nil =>
        intro _ rest
        induction rest with
        | nil =>
            intro acc done hlen
            simp [List.toChunks.go]
        | cons b rest ih =>
            intro acc done hlen
            have hne : ¬ (acc.size == k) = true := by
              rw [beq_iff_eq]
              rw [List.length_cons] at hlen
              omega
            rw [List.cons_append, List.toChunks.go, if_neg hne, ih]
            · simp
            · rw [Array.size_push]
              rw [List.length_cons] at hlen
              omega
    | cons c chunks ihc =>
        intro h rest
        obtain ⟨hc, hchunks⟩ := List.forall_mem_cons.mp h
        induction rest with
        | nil =>
            intro acc done hlen
            cases c with
            | nil =>
                rw [List.length_nil] at hc
                omega
            | cons b c =>
                have heq : (acc.size == k) = true := by
                  rw [beq_iff_eq]
                  rw [List.length_nil] at hlen
                  omega
                rw [List.nil_append, List.flatten_cons, List.cons_append, List.toChunks.go, if_pos heq, ihc hchunks]
                · simp
                · rw [List.length_cons] at hc
                  simp
                  omega
        | cons b rest ih =>
            intro acc done hlen
            have hne : ¬ (acc.size == k) = true := by
              rw [beq_iff_eq]
              rw [List.length_cons] at hlen
              omega
            rw [List.cons_append, List.toChunks.go, if_neg hne, ih]
            · simp
            · rw [Array.size_push]
              rw [List.length_cons] at hlen
              omega
  cases chunks with
  | nil =>
      cases k with
      | zero => rfl
      | succ k => rfl
  | cons c chunks =>
      obtain ⟨hc, hchunks⟩ := List.forall_mem_cons.mp h
      cases c with
      | nil =>
          rw [List.length_nil] at hc
          omega
      | cons b c =>
          cases k with
          | zero => exact absurd hk (lt_irrefl _)
          | succ k =>
              refine (hgo chunks hchunks c #[b] #[] ?_).trans rfl
              rw [List.length_cons] at hc
              change 1 + c.length = k + 1
              omega

/-- What is packed element by element is unpacked again. -/
theorem unpackArray_packArray (hk : 0 < k) {pack : Value → Option Bytes} {element : Nat → Value} {xs : List Value}
    (h : ∀ x ∈ xs, ∃ c, pack x = some c ∧ c.length = k ∧ element (ofLittleEndian c) = x) :
    ∃ b, packArray pack xs = some b ∧ unpackArray k element b = some xs := by
  have hpacked : ∃ chunks : List Bytes, xs.mapM pack = some chunks ∧ (∀ c ∈ chunks, c.length = k) ∧
      chunks.map (fun c => element (ofLittleEndian c)) = xs := by
    induction xs with
    | nil => exact ⟨[], rfl, fun c hc => absurd hc List.not_mem_nil, rfl⟩
    | cons x xs ih =>
        obtain ⟨⟨c, hc, hlen, hread⟩, hxs⟩ := List.forall_mem_cons.mp h
        obtain ⟨chunks, hchunks, hlens, hreads⟩ := ih hxs
        refine ⟨c :: chunks, ?_, List.forall_mem_cons.mpr ⟨hlen, hlens⟩, ?_⟩
        · rw [List.mapM_cons, hc, hchunks]
          rfl
        · rw [List.map_cons, hread, hreads]
  obtain ⟨chunks, hchunks, hlens, hreads⟩ := hpacked
  have hlength : chunks.flatten.length % k = 0 := by
    have hall : chunks.map List.length = List.replicate chunks.length k := by
      refine List.eq_replicate_iff.mpr ⟨List.length_map _, fun n hn => ?_⟩
      obtain ⟨c, hc, rfl⟩ := List.mem_map.mp hn
      exact hlens c hc
    rw [List.length_flatten, hall, List.sum_replicate, smul_eq_mul, Nat.mul_mod_left]
  refine ⟨chunks.flatten, ?_, ?_⟩
  · rw [packArray, hchunks]
    rfl
  · rw [unpackArray, if_pos hlength, toChunks_flatten hk hlens, hreads]

end

/-- An integer from `low` on and below `high`. -/
def IsInteger (low high : Int) (v : Value) : Prop := ∃ n, v = .int n ∧ low ≤ n ∧ n < high

section

variable {k : Nat} {xs : List Value}

theorem unsigned_round_trip (hk : 0 < k) (h : ∀ x ∈ xs, IsInteger 0 (2 ^ (8 * k)) x) :
    ∃ b, packArray (packUnsigned k) xs = some b ∧ unpackArray k (fun n => .int n) b = some xs := by
  refine unpackArray_packArray hk fun x hx => ?_
  obtain ⟨n, rfl, h0, hn⟩ := h x hx
  refine ⟨littleEndian k n.toNat, if_pos ⟨h0, hn⟩, length_littleEndian k _, ?_⟩
  have hlt : n.toNat < 256 ^ k := by
    rw [Int.toNat_lt h0, show 256 = 2 ^ 8 from rfl, ← pow_mul]
    exact_mod_cast hn
  rw [ofLittleEndian_littleEndian, Nat.mod_eq_of_lt hlt, Int.toNat_of_nonneg h0]

/-- The remainder of a signed integer is read as that integer. -/
theorem signed_toNat_emod {m : Nat} (hm : 0 < m) {n : Int} (hlow : -2 ^ (m - 1) ≤ n) (hhigh : n < 2 ^ (m - 1)) :
    signed m (n % 2 ^ m).toNat = n := by
  have hdouble : (2 : Int) ^ m = 2 * 2 ^ (m - 1) := by
    conv_lhs => rw [← Nat.sub_add_cancel hm, pow_succ']
  have hcast : ((2 ^ (m - 1) : Nat) : Int) = 2 ^ (m - 1) := by norm_cast
  have hmod : n % 2 ^ m = if n < 0 then n + 2 ^ m else n := by
    split
    · next hneg =>
        rw [← Int.add_emod_right]
        exact Int.emod_eq_of_lt (by omega) (by omega)
    · exact Int.emod_eq_of_lt (by omega) (by omega)
  rw [hmod, signed]
  split <;> split <;> omega

theorem signed_round_trip (hk : 0 < k) (h : ∀ x ∈ xs, IsInteger (-2 ^ (8 * k - 1)) (2 ^ (8 * k - 1)) x) :
    ∃ b, packArray (packSigned k) xs = some b ∧ unpackArray k (fun n => .int (signed (8 * k) n)) b = some xs := by
  refine unpackArray_packArray hk fun x hx => ?_
  obtain ⟨n, rfl, hlow, hhigh⟩ := h x hx
  refine ⟨littleEndian k (n % 2 ^ (8 * k)).toNat, if_pos ⟨hlow, hhigh⟩, length_littleEndian k _, ?_⟩
  have hpos : (0 : Int) < 2 ^ (8 * k) := by positivity
  have hlt : (n % 2 ^ (8 * k)).toNat < 256 ^ k := by
    rw [Int.toNat_lt (Int.emod_nonneg _ hpos.ne'), show 256 = 2 ^ 8 from rfl, ← pow_mul]
    exact_mod_cast Int.emod_lt_of_pos n hpos
  rw [ofLittleEndian_littleEndian, Nat.mod_eq_of_lt hlt, signed_toNat_emod (by omega) hlow hhigh]

end

/-! ## Booleans -/

/-- The `j`-th bit, from the highest of the first byte on. -/
def bitAt (packed : Bytes) (j : Nat) : Bool := (packed.getD (j / 8) 0).toNat.testBit (7 - j % 8)

/-- The byte of the `i`-th bit with that bit set or left. -/
def byteWith (packed : Bytes) (i : Nat) (b : Bool) : Nat :=
  (packed.getD (i / 8) 0).toNat ||| (if b then 1 else 0) <<< (7 - i % 8)

theorem byteWith_lt (packed : Bytes) (i : Nat) (b : Bool) : byteWith packed i b < 256 := by
  refine Nat.or_lt_two_pow (n := 8) (packed.getD (i / 8) 0).toNat_lt ?_
  rw [Nat.shiftLeft_eq]
  have hle : 2 ^ (7 - i % 8) ≤ 2 ^ 7 := Nat.pow_le_pow_right (by decide) (Nat.sub_le 7 _)
  split <;> omega

theorem testBit_byteWith (packed : Bytes) (i j : Nat) (b : Bool) (h : j / 8 = i / 8) :
    (byteWith packed i b).testBit (7 - j % 8) = (bitAt packed j || (b && decide (j = i))) := by
  have hj := Nat.mod_lt j (y := 8) (by decide)
  have hi := Nat.mod_lt i (y := 8) (by decide)
  have hbit : ((if b then 1 else 0) <<< (7 - i % 8) : Nat).testBit (7 - j % 8) = (b && decide (j = i)) := by
    cases b with
    | false => simp
    | true =>
        rw [if_pos rfl, Nat.one_shiftLeft, Nat.testBit_two_pow, Bool.true_and, decide_eq_decide]
        omega
  rw [byteWith, Nat.testBit_or, hbit, bitAt, h]

/-- Setting one bit leaves the others. -/
theorem bitAt_set {packed : Bytes} {i : Nat} (hi : i / 8 < packed.length) (b : Bool) (j : Nat) :
    bitAt (packed.set (i / 8) (UInt8.ofNat (byteWith packed i b))) j = (bitAt packed j || (b && decide (j = i))) := by
  rcases eq_or_ne (j / 8) (i / 8) with heq | hne
  · have hget : (packed.set (i / 8) (UInt8.ofNat (byteWith packed i b))).getD (j / 8) 0 =
        UInt8.ofNat (byteWith packed i b) := by
      rw [heq, List.getD_eq_getElem?_getD, List.getElem?_set_self hi]
      rfl
    rw [bitAt, hget, UInt8.toNat_ofNat_of_lt' (byteWith_lt packed i b), testBit_byteWith packed i j b heq]
  · have hget : (packed.set (i / 8) (UInt8.ofNat (byteWith packed i b))).getD (j / 8) 0 = packed.getD (j / 8) 0 := by
      rw [List.getD_eq_getElem?_getD, List.getElem?_set_ne hne.symm, List.getD_eq_getElem?_getD]
    have hji : j ≠ i := fun hji => hne (congrArg (· / 8) hji)
    rw [bitAt, hget, decide_eq_false hji, Bool.and_false, Bool.or_false, bitAt]

/-- The bits from `i` on become the booleans, the others stay. -/
theorem orBits_booleans (bs : List Bool) : ∀ (packed : Bytes) (i : Nat), i + bs.length ≤ 8 * packed.length →
    (∀ j, i ≤ j → bitAt packed j = false) → ∃ out, orBits packed i (bs.map .bool) = some out ∧
      out.length = packed.length ∧ ∀ j, bitAt out j = if j < i then bitAt packed j else bs.getD (j - i) false := by
  induction bs with
  | nil =>
      intro packed i _ hzero
      refine ⟨packed, rfl, rfl, fun j => ?_⟩
      split
      · rfl
      · next hj => exact hzero j (by omega)
  | cons b bs ih =>
      intro packed i hroom hzero
      rw [List.length_cons] at hroom
      have hi : i / 8 < packed.length := by omega
      obtain ⟨out, hout, hlen, hbits⟩ := ih (packed.set (i / 8) (UInt8.ofNat (byteWith packed i b))) (i + 1)
        (by rw [List.length_set]; omega) (fun j hj => by
          rw [bitAt_set hi, hzero j (by omega), decide_eq_false (by omega), Bool.and_false]
          rfl)
      refine ⟨out, ?_, hlen.trans List.length_set, fun j => ?_⟩
      · have hstep : orBits packed i ((b :: bs).map .bool) = (index (.bool b)).bind fun n =>
            if 0 ≤ n ∧ ((packed.getD (i / 8) 0).toNat ||| n.toNat <<< (7 - i % 8)) < 256 then
              orBits (packed.set (i / 8) (UInt8.ofNat
                ((packed.getD (i / 8) 0).toNat ||| n.toNat <<< (7 - i % 8)))) (i + 1) (bs.map .bool)
            else none := rfl
        have hbyte : ((packed.getD (i / 8) 0).toNat ||| (if b then 1 else 0 : Int).toNat <<< (7 - i % 8)) =
            byteWith packed i b := by cases b <;> rfl
        rw [hstep, index, Option.bind_some, hbyte]
        exact (if_pos ⟨by cases b <;> decide, byteWith_lt packed i b⟩).trans hout
      · rw [hbits, bitAt_set hi]
        rcases lt_trichotomy j i with hj | rfl | hj
        · rw [if_pos (by omega), if_pos hj, decide_eq_false hj.ne, Bool.and_false, Bool.or_false]
        · rw [if_pos (by omega), if_neg (lt_irrefl _), hzero j le_rfl, decide_eq_true rfl, Nat.sub_self]
          exact Bool.and_true b
        · rw [if_neg (by omega), if_neg (by omega), show j - i = j - (i + 1) + 1 by omega]
          rfl

theorem bitAt_zeros (n j : Nat) : bitAt (List.replicate n 0) j = false := by
  have hget : (List.replicate n (0 : UInt8)).getD (j / 8) 0 = 0 := by
    rw [List.getD_eq_getElem?_getD, List.getElem?_replicate]
    split <;> rfl
  rw [bitAt, hget]
  exact Nat.zero_testBit _

def IsBoolean (v : Value) : Prop := ∃ b, v = .bool b

theorem map_bool_of_forall {xs : List Value} (h : ∀ x ∈ xs, IsBoolean x) : ∃ bs : List Bool, xs = bs.map .bool := by
  induction xs with
  | nil => exact ⟨[], rfl⟩
  | cons x xs ih =>
      obtain ⟨⟨b, rfl⟩, hxs⟩ := List.forall_mem_cons.mp h
      obtain ⟨bs, rfl⟩ := ih hxs
      exact ⟨b :: bs, rfl⟩

/-- Booleans are written where their number fits into four bytes. -/
theorem booleanArrayToBytes_booleans (bs : List Bool) : ∃ packed : Bytes, packed.length = (bs.length + 7) / 8 ∧
    (∀ i, bitAt packed i = bs.getD i false) ∧ booleanArrayToBytes (bs.map .bool) =
      if bs.length < 2 ^ 32 then some (littleEndian 4 bs.length ++ packed) else none := by
  obtain ⟨packed, hpacked, hlen, hbits⟩ := orBits_booleans bs (List.replicate ((bs.length + 7) / 8) 0) 0
    (by rw [List.length_replicate]; omega) (fun j _ => bitAt_zeros _ j)
  rw [List.length_replicate] at hlen
  have hcount : packUnsigned 4 (.int bs.length) = if bs.length < 2 ^ 32 then some (littleEndian 4 bs.length) else none := by
    rw [packUnsigned, index, Option.bind_some]
    refine if_congr ⟨fun h => by omega, fun h => by omega⟩ ?_ rfl
    rw [Int.toNat_natCast]
  refine ⟨packed, hlen, fun i => (hbits i).trans (if_neg (Nat.not_lt_zero i)), ?_⟩
  rw [booleanArrayToBytes, List.length_map, hpacked, Option.bind_some, hcount]
  split <;> rfl

/-- The bits are read behind the four bytes of their number. -/
theorem bytesToBooleanArray_packed {bs : List Bool} (hfits : bs.length < 2 ^ 32) {packed : Bytes}
    (hlen : packed.length = (bs.length + 7) / 8) (hbits : ∀ i, bitAt packed i = bs.getD i false) :
    bytesToBooleanArray (littleEndian 4 bs.length ++ packed) = some (bs.map .bool) := by
  have hfour : (littleEndian 4 bs.length).length = 4 := length_littleEndian 4 _
  have htake : (littleEndian 4 bs.length ++ packed).take 4 = littleEndian 4 bs.length := by
    rw [List.take_append_of_le_length hfour.ge, List.take_of_length_le hfour.le]
  have hlong : ¬ (littleEndian 4 bs.length ++ packed).length < 4 := by
    rw [List.length_append, hfour]
    omega
  have hread : ∀ i ∈ List.range bs.length, ((littleEndian 4 bs.length ++ packed)[4 + i / 8]?).map
      (fun c => Value.bool (c.toNat.testBit (7 - i % 8))) = some (.bool (bs.getD i false)) := by
    intro i hi
    rw [List.mem_range] at hi
    have hbyte : i / 8 < packed.length := by omega
    have hbit := hbits i
    rw [bitAt, List.getD_eq_getElem _ _ hbyte] at hbit
    rw [List.getElem?_append_right (by omega), hfour, Nat.add_sub_cancel_left, List.getElem?_eq_getElem hbyte,
      Option.map_some, hbit]
  rw [bytesToBooleanArray, if_neg hlong, htake, ofLittleEndian_littleEndian,
    Nat.mod_eq_of_lt (lt_of_lt_of_eq hfits (by norm_num)), mapM_eq_map hread]
  refine congrArg some (List.ext_getElem ?_ fun i h1 h2 => ?_)
  · rw [List.length_map, List.length_range, List.length_map]
  · have hi : i < bs.length := by rwa [List.length_map] at h2
    rw [List.getElem_map, List.getElem_range, List.getElem_map, List.getD_eq_getElem _ _ hi]

/-- Booleans are written where their number fits into four bytes, and read again. -/
theorem boolean_round_trip {xs : List Value} (h : ∀ x ∈ xs, IsBoolean x) :
    if xs.length < 2 ^ 32 then ∃ b, booleanArrayToBytes xs = some b ∧ bytesToBooleanArray b = some xs
    else booleanArrayToBytes xs = none := by
  obtain ⟨bs, rfl⟩ := map_bool_of_forall h
  obtain ⟨packed, hlen, hbits, hwritten⟩ := booleanArrayToBytes_booleans bs
  rw [hwritten, List.length_map]
  split
  · next hfits => exact ⟨_, rfl, bytesToBooleanArray_packed hfits hlen hbits⟩
  · rfl

/-! ## Texts -/

theorem utf8EncodeChar_ascii {c : Nat} (h : c < 128) : String.utf8EncodeChar (Char.ofNat c) = [UInt8.ofNat c] := by
  interval_cases c <;> rfl

theorem utf8Encode_ascii {s : Str} (h : ∀ c ∈ s, c < 128) : utf8Encode s = some (s.map UInt8.ofNat) := by
  have hscalar : s.all isScalar = true := by
    refine List.all_eq_true.mpr fun c hc => decide_eq_true (.inl ?_)
    have hc := h c hc
    omega
  rw [utf8Encode, if_pos hscalar, List.flatMap_map]
  refine congrArg some ?_
  induction s with
  | nil => rfl
  | cons c s ih =>
      obtain ⟨hc, hs⟩ := List.forall_mem_cons.mp h
      rw [List.flatMap_cons, utf8EncodeChar_ascii hc, ih hs (List.all_eq_true.mpr fun d hd =>
        List.all_eq_true.mp hscalar d (List.mem_cons_of_mem _ hd))]
      rfl

theorem hexDigit_lt {n : Nat} (h : n < 16) : hexDigit n < 128 := by
  rw [hexDigit]
  split <;> omega

theorem hexValue_hexDigit {n : Nat} (h : n < 16) : hexValue (hexDigit n) = some n := by
  interval_cases n <;> rfl

theorem isAsciiSpace_hexDigit {n : Nat} (h : n < 16) : isAsciiSpace (hexDigit n) = false := by
  interval_cases n <;> rfl

theorem fromHex_hex (b : Bytes) : fromHex (hex b) = some b := by
  induction b with
  | nil => rfl
  | cons c b ih =>
      have hc := c.toNat_lt
      have hhigh : c.toNat / 16 < 16 := by omega
      have hlow : c.toNat % 16 < 16 := Nat.mod_lt _ (by decide)
      have hcons : hex (c :: b) = hexDigit (c.toNat / 16) :: hexDigit (c.toNat % 16) :: hex b := rfl
      rw [hcons, fromHex, isAsciiSpace_hexDigit hhigh, hexValue_hexDigit hhigh, hexValue_hexDigit hlow, ih]
      have hbyte : 16 * (c.toNat / 16) + c.toNat % 16 = c.toNat := Nat.div_add_mod _ _
      simp only [Option.bind_eq_bind, Option.bind_some, hbyte, UInt8.ofNat_toNat, Bool.false_eq_true, if_false]

theorem hexDigit_pos (n : Nat) : 0 < hexDigit n := by
  rw [hexDigit]
  split <;> omega

/-- The digits are ASCII, and none is the null. -/
theorem mem_hex {b : Bytes} {d : Nat} (h : d ∈ hex b) : 0 < d ∧ d < 128 := by
  obtain ⟨c, -, hd⟩ := List.mem_flatMap.mp h
  have hc := c.toNat_lt
  rcases List.mem_cons.mp hd with rfl | hd
  · exact ⟨hexDigit_pos _, hexDigit_lt (by omega)⟩
  · rw [List.mem_singleton.mp hd]
    exact ⟨hexDigit_pos _, hexDigit_lt (Nat.mod_lt _ (by decide))⟩

def IsText (v : Value) : Prop := ∃ s, v = .str s

/-- A text that encodes is written as the digits of its bytes. -/
theorem nullTerminated_str {s : Str} {b : Bytes} (h : utf8Encode s = some b) :
    nullTerminated (.str s) = some ((hex b).map UInt8.ofNat ++ [0]) := by
  rw [nullTerminated, h, Option.bind_some, utf8Encode_ascii fun d hd => (mem_hex hd).2]
  rfl

theorem zero_notMem_hex (b : Bytes) : (0 : UInt8) ∉ (hex b).map UInt8.ofNat := by
  intro hmem
  obtain ⟨d, hd, hzero⟩ := List.mem_map.mp hmem
  obtain ⟨hpos, hlt⟩ := mem_hex hd
  have hnat := congrArg UInt8.toNat hzero
  rw [UInt8.toNat_ofNat_of_lt' (lt_trans hlt (by decide))] at hnat
  exact absurd hnat hpos.ne'

/-- How one text is read between the nulls. -/
def readText (s : Bytes) : Option Value := do
  let digits ← utf8Decode s
  let bytes ← fromHex digits
  (utf8Decode bytes).map .str

theorem readText_hex {s : Str} {b : Bytes} (h : utf8Encode s = some b) :
    readText ((hex b).map UInt8.ofNat) = some (.str s) := by
  have hdigits : utf8Decode ((hex b).map UInt8.ofNat) = some (hex b) :=
    utf8Decode_encode (utf8Encode_ascii fun d hd => (mem_hex hd).2)
  rw [readText, hdigits, Option.bind_eq_bind, Option.bind_some, fromHex_hex, Option.bind_eq_bind, Option.bind_some,
    utf8Decode_encode h]
  rfl

/-- The texts between the nulls, none with a null of its own. -/
theorem mapM_nullTerminated {ss : List Str} (h : ∀ s ∈ ss, s.all isScalar = true) : ∃ texts : List Bytes,
    (ss.map Value.str).mapM nullTerminated = some (texts.map (· ++ [0])) ∧ (∀ t ∈ texts, (0 : UInt8) ∉ t) ∧
      texts.mapM readText = some (ss.map .str) := by
  induction ss with
  | nil => exact ⟨[], rfl, fun t ht => absurd ht List.not_mem_nil, rfl⟩
  | cons s ss ih =>
      obtain ⟨hs, hss⟩ := List.forall_mem_cons.mp h
      obtain ⟨texts, htexts, hzero, hread⟩ := ih hss
      obtain ⟨b, hencode⟩ : ∃ b, utf8Encode s = some b := ⟨_, if_pos hs⟩
      refine ⟨(hex b).map UInt8.ofNat :: texts, ?_, List.forall_mem_cons.mpr ⟨zero_notMem_hex b, hzero⟩, ?_⟩
      · rw [List.map_cons, List.mapM_cons, nullTerminated_str hencode, htexts]
        rfl
      · rw [List.mapM_cons, readText_hex hencode, hread]
        rfl

/-- Splitting at the nulls finds the texts, and nothing behind the last. -/
theorem splitOn_flatten {texts : List Bytes} (h : ∀ t ∈ texts, (0 : UInt8) ∉ t) :
    ((texts.map (· ++ [(0 : UInt8)])).flatten).splitOn 0 = texts ++ [[]] := by
  induction texts with
  | nil => rfl
  | cons t texts ih =>
      obtain ⟨ht, htexts⟩ := List.forall_mem_cons.mp h
      rw [List.map_cons, List.flatten_cons, List.append_assoc, List.singleton_append,
        List.splitOn_append_cons_self_of_not_mem ht, ih htexts, List.cons_append]

/-- Texts that encode are written, and read again. -/
theorem string_round_trip {ss : List Str} (h : ∀ s ∈ ss, s.all isScalar = true) :
    ∃ b, stringArrayToBytes (ss.map .str) = some b ∧ bytesToStringArray b = some (ss.map .str) := by
  obtain ⟨texts, htexts, hzero, hread⟩ := mapM_nullTerminated h
  refine ⟨(texts.map (· ++ [0])).flatten, ?_, ?_⟩
  · rw [stringArrayToBytes, packArray, htexts]
    rfl
  · rw [bytesToStringArray, splitOn_flatten hzero, List.dropLast_concat]
    exact hread

theorem map_str_of_forall {xs : List Value} (h : ∀ x ∈ xs, IsText x) : ∃ ss : List Str, xs = ss.map .str := by
  induction xs with
  | nil => exact ⟨[], rfl⟩
  | cons x xs ih =>
      obtain ⟨⟨s, rfl⟩, hxs⟩ := List.forall_mem_cons.mp h
      obtain ⟨ss, rfl⟩ := ih hxs
      exact ⟨s :: ss, rfl⟩

/-- A text that does not encode raises. -/
theorem stringArrayToBytes_none {ss : List Str} {s : Str} (hs : s ∈ ss) (h : ¬ s.all isScalar = true) :
    stringArrayToBytes (ss.map .str) = none := by
  have hnone : nullTerminated (.str s) = none := by
    rw [nullTerminated, utf8Encode, if_neg h]
    rfl
  have hmap : (ss.map Value.str).mapM nullTerminated = none := by
    induction ss with
    | nil => cases hs
    | cons s' ss ih =>
        rw [List.map_cons, List.mapM_cons]
        rcases List.mem_cons.mp hs with rfl | hs
        · rw [hnone]
          rfl
        · rw [ih hs]
          cases nullTerminated (.str s') <;> rfl
  rw [stringArrayToBytes, packArray, hmap]
  rfl

/-! ## The array datatypes -/

/-- What the elements of an array of integers, booleans or texts are. -/
def arrayElement : Nat → Option (Value → Prop)
  | 22 => some (IsInteger (-2 ^ 7) (2 ^ 7))
  | 23 => some (IsInteger (-2 ^ 15) (2 ^ 15))
  | 24 => some (IsInteger (-2 ^ 31) (2 ^ 31))
  | 25 => some (IsInteger (-2 ^ 63) (2 ^ 63))
  | 26 => some (IsInteger 0 (2 ^ 8))
  | 27 => some (IsInteger 0 (2 ^ 16))
  | 28 => some (IsInteger 0 (2 ^ 32))
  | 29 => some (IsInteger 0 (2 ^ 64))
  | 32 => some IsBoolean
  | 33 => some IsText
  | 34 => some (IsInteger (-2 ^ 63) (2 ^ 63))
  | _ => none

/-- The number of booleans fits into four bytes; the characters of a text can be encoded. -/
def Writable (n : Nat) (xs : List Value) : Prop :=
  (n = 32 → xs.length < 2 ^ 32) ∧ (n = 33 → ∀ s, .str s ∈ xs → s.all isScalar = true)

/-- The bytes that are written read as the list, and they are written exactly for a writable list. -/
def RoundTrips (runtime : Runtime) (n : Nat) (xs : List Value) : Prop :=
  (∀ content, setValue runtime n (.value (.list xs)) = some content → getValueFrom n content = some (.list xs)) ∧
    ((setValue runtime n (.value (.list xs))).isSome ↔ Writable n xs)

section

variable (runtime : Runtime) {n : Nat} {xs : List Value} {pack : List Value → Option Bytes}
  {getter : Bytes → Option (List Value)}

theorem setValue_array (hset : setValue runtime n (.value (.list xs)) =
    (pack xs).bind fun b => runtime.assign .bytes (.bytes b)) :
    setValue runtime n (.value (.list xs)) = (pack xs).map .bytes := by
  rw [hset]
  cases pack xs with
  | none => rfl
  | some b => exact runtime.assign_bytes b

theorem roundTrips_of_written
    (hset : setValue runtime n (.value (.list xs)) = (pack xs).bind fun b => runtime.assign .bytes (.bytes b))
    (hget : ∀ b, getValueFrom n (.bytes b) = (getter b).map .list) (hwritable : Writable n xs)
    (h : ∃ b, pack xs = some b ∧ getter b = some xs) : RoundTrips runtime n xs := by
  obtain ⟨b, hb, hread⟩ := h
  have hwritten := setValue_array runtime hset
  rw [hb] at hwritten
  refine ⟨fun content hcontent => ?_, ?_⟩
  · cases hwritten.symm.trans hcontent
    rw [hget, hread]
    rfl
  · rw [hwritten]
    exact ⟨fun _ => hwritable, fun _ => rfl⟩

theorem roundTrips_of_refused
    (hset : setValue runtime n (.value (.list xs)) = (pack xs).bind fun b => runtime.assign .bytes (.bytes b))
    (hwritable : ¬ Writable n xs) (h : pack xs = none) : RoundTrips runtime n xs := by
  have hwritten := setValue_array runtime hset
  rw [h] at hwritten
  refine ⟨fun content hcontent => ?_, ?_⟩
  · cases hwritten.symm.trans hcontent
  · rw [hwritten]
    exact ⟨fun hsome => (by cases hsome), fun hw => absurd hw hwritable⟩

/-- Other lists than those of booleans and texts are all writable. -/
theorem roundTrips_of_plain
    (hset : setValue runtime n (.value (.list xs)) = (pack xs).bind fun b => runtime.assign .bytes (.bytes b))
    (hget : ∀ b, getValueFrom n (.bytes b) = (getter b).map .list) (hboolean : n ≠ 32) (htext : n ≠ 33)
    (h : ∃ b, pack xs = some b ∧ getter b = some xs) : RoundTrips runtime n xs :=
  roundTrips_of_written runtime hset hget ⟨fun hn => absurd hn hboolean, fun hn => absurd hn htext⟩ h

/-- A list of any array of integers, booleans or texts is read again from the bytes that are written. -/
theorem array_round_trip {element : Value → Prop} (hn : arrayElement n = some element) (hxs : ∀ x ∈ xs, element x) :
    RoundTrips runtime n xs := by
  unfold arrayElement at hn
  split at hn
  case h_1 =>
    cases hn
    exact roundTrips_of_plain runtime rfl (fun _ => rfl) (by decide) (by decide)
      (signed_round_trip (k := 1) (by decide) hxs)
  case h_2 =>
    cases hn
    exact roundTrips_of_plain runtime rfl (fun _ => rfl) (by decide) (by decide)
      (signed_round_trip (k := 2) (by decide) hxs)
  case h_3 =>
    cases hn
    exact roundTrips_of_plain runtime rfl (fun _ => rfl) (by decide) (by decide)
      (signed_round_trip (k := 4) (by decide) hxs)
  case h_4 =>
    cases hn
    exact roundTrips_of_plain runtime rfl (fun _ => rfl) (by decide) (by decide)
      (signed_round_trip (k := 8) (by decide) hxs)
  case h_5 =>
    cases hn
    exact roundTrips_of_plain runtime rfl (fun _ => rfl) (by decide) (by decide)
      (unsigned_round_trip (k := 1) (by decide) hxs)
  case h_6 =>
    cases hn
    exact roundTrips_of_plain runtime rfl (fun _ => rfl) (by decide) (by decide)
      (unsigned_round_trip (k := 2) (by decide) hxs)
  case h_7 =>
    cases hn
    exact roundTrips_of_plain runtime rfl (fun _ => rfl) (by decide) (by decide)
      (unsigned_round_trip (k := 4) (by decide) hxs)
  case h_8 =>
    cases hn
    exact roundTrips_of_plain runtime rfl (fun _ => rfl) (by decide) (by decide)
      (unsigned_round_trip (k := 8) (by decide) hxs)
  case h_9 =>
    cases hn
    have hbooleans := boolean_round_trip hxs
    have hwritable : Writable 32 xs ↔ xs.length < 2 ^ 32 := ⟨fun h => h.1 rfl, fun h =>
      ⟨fun _ => h, fun h => absurd h (by decide)⟩⟩
    split at hbooleans
    · next hfits => exact roundTrips_of_written runtime rfl (fun _ => rfl) (hwritable.mpr hfits) hbooleans
    · next hfits => exact roundTrips_of_refused runtime rfl (fun hw => hfits (hwritable.mp hw)) hbooleans
  case h_10 =>
    cases hn
    obtain ⟨ss, rfl⟩ := map_str_of_forall hxs
    by_cases hall : ∀ s ∈ ss, s.all isScalar = true
    · refine roundTrips_of_written runtime rfl (fun _ => rfl) ⟨fun h => absurd h (by decide), fun _ s hs => ?_⟩
        (string_round_trip hall)
      obtain ⟨t, ht, heq⟩ := List.mem_map.mp hs
      cases heq
      exact hall s ht
    · obtain ⟨s, hs, hscalar⟩ : ∃ s ∈ ss, ¬ s.all isScalar = true := by
        by_contra hnone
        exact hall fun s hs => by_contra fun hscalar => hnone ⟨s, hs, hscalar⟩
      exact roundTrips_of_refused runtime rfl (fun hw => hscalar (hw.2 rfl s (List.mem_map_of_mem hs)))
        (stringArrayToBytes_none hs hscalar)
  case h_11 =>
    cases hn
    exact roundTrips_of_plain runtime rfl (fun _ => rfl) (by decide) (by decide)
      (signed_round_trip (k := 8) (by decide) hxs)
  case h_12 => cases hn

end

/-- Nine booleans, which take two bytes. -/
theorem array_round_trip_nine : RoundTrips plainRuntime 32 (List.replicate 9 (.bool true)) :=
  array_round_trip plainRuntime (n := 32) rfl fun _ hx => ⟨true, List.eq_of_mem_replicate hx⟩

end Uns.Sparkplug
