import Mathlib.Algebra.Group.Nat.Defs
import Mathlib.Tactic.Common
import RoughCut.Text.Utf8

/-!
Text that has been encoded is decoded to itself. Each character is cut off the
front of its bytes, whatever bytes follow. What is decoded of bytes that are no text
has no character of one byte but those whose bytes are there.
-/

namespace RoughCut.Text.Utf8

/-- Listing the bytes of an array from a place on goes on after those listed so far. -/
theorem toList_loop (bytes : ByteArray) (i : Nat) (listed : List UInt8) :
    ByteArray.toList.loop bytes i listed = listed.reverse ++ bytes.data.toList.drop i := by
  fun_induction ByteArray.toList.loop bytes i listed with
  | case1 i listed hInside ih =>
      have hPlace : i < bytes.data.toList.length := hInside
      have hByte : bytes.get! i = bytes.data.toList[i] := by
        simp [ByteArray.get!, hInside]
      rw [ih, List.drop_eq_getElem_cons hPlace, hByte]
      simp
  | case2 i listed hOutside =>
      have hPlace : bytes.data.toList.length ≤ i := Nat.le_of_not_lt hOutside
      rw [List.drop_eq_nil_of_le hPlace, List.append_nil]

/-- The bytes of a text are those of its characters in order. -/
theorem encode_ofList (cs : List Char) :
    encode (String.ofList cs) = cs.flatMap String.utf8EncodeChar := by
  have hBytes : (String.ofList cs).toUTF8 = (cs.flatMap String.utf8EncodeChar).toByteArray := rfl
  rw [encode, hBytes, ByteArray.toList, toList_loop, List.toList_data_toByteArray]
  rfl

/-- A text is encoded character by character, one behind the other. -/
theorem encode_eq (s : String) : encode s = s.toList.flatMap String.utf8EncodeChar := by
  rw [← encode_ofList, String.ofList_toList]

/-- Two texts one behind the other are encoded one behind the other. -/
theorem encode_append (s t : String) : encode (s ++ t) = encode s ++ encode t := by
  rw [encode_eq, encode_eq, encode_eq, String.toList_append, List.flatMap_append]

theorem toNat_ofNat {n : Nat} (h : n < 256) : (UInt8.ofNat n).toNat = n := by
  rw [UInt8.toNat_ofNat', Nat.mod_eq_of_lt h]

/-! What a byte starts, by its number. -/

section Start

variable {n : Nat}

/-- Bytes that are given by a number are compared as the numbers, as the ranges of a
decoder need it. -/
theorem ofNat_lt_iff (h : n < 256) (b : UInt8) : UInt8.ofNat n < b ↔ n < b.toNat := by
  rw [UInt8.lt_iff_toNat_lt, toNat_ofNat h]

theorem ofNat_eq_iff (h : n < 256) (b : UInt8) : UInt8.ofNat n = b ↔ n = b.toNat := by
  rw [← UInt8.toNat_inj, toNat_ofNat h]

theorem start_of_one (h : n < 128) : start (UInt8.ofNat n) = .complete (Char.ofNat n) := by
  have hByte : n < 256 := by omega
  simp only [start, ofNat_lt_iff hByte, toNat_ofNat hByte, UInt8.reduceToNat]
  rw [if_pos h]

/-- The first of two bytes opens a character that misses one byte. The two such bytes
that could only begin a longer form of one byte are none of these. -/
theorem start_of_two (hLow : 2 ≤ n) (hHigh : n < 32) :
    start (UInt8.ofNat (n + 192)) = .opens ⟨n, 1, 0x80, 0xBF⟩ := by
  have hByte : n + 192 < 256 := by omega
  have hBits : (n + 192) % 32 = n := by omega
  simp only [start, ofNat_lt_iff hByte, toNat_ofNat hByte, UInt8.reduceToNat, hBits]
  rw [if_neg (by omega), if_neg (by omega), if_pos (by omega)]

/-- The first of three bytes narrows the range of the second, so that no longer form of
two bytes and no surrogate gets through. -/
theorem start_of_three (h : n < 16) :
    start (UInt8.ofNat (n + 224)) =
      .opens ⟨n, 2, if n = 0 then 0xA0 else 0x80, if n = 13 then 0x9F else 0xBF⟩ := by
  have hByte : n + 224 < 256 := by omega
  have hBits : (n + 224) % 16 = n := by omega
  have hFirst : n + 224 = 224 ↔ n = 0 := by omega
  have hSurrogates : n + 224 = 237 ↔ n = 13 := by omega
  simp only [start, ofNat_lt_iff hByte, ofNat_eq_iff hByte, toNat_ofNat hByte,
    UInt8.reduceToNat, hBits, hFirst, hSurrogates]
  rw [if_neg (by omega), if_neg (by omega), if_neg (by omega), if_pos (by omega)]

/-- The first of four bytes narrows the range of the second, so that no longer form of
three bytes and nothing above the last character gets through. -/
theorem start_of_four (h : n < 5) :
    start (UInt8.ofNat (n + 240)) =
      .opens ⟨n, 3, if n = 0 then 0x90 else 0x80, if n = 4 then 0x8F else 0xBF⟩ := by
  have hByte : n + 240 < 256 := by omega
  have hBits : (n + 240) % 8 = n := by omega
  have hFirst : n + 240 = 240 ↔ n = 0 := by omega
  have hLast : n + 240 = 244 ↔ n = 4 := by omega
  simp only [start, ofNat_lt_iff hByte, ofNat_eq_iff hByte, toNat_ofNat hByte,
    UInt8.reduceToNat, hBits, hFirst, hLast]
  rw [if_neg (by omega), if_neg (by omega), if_neg (by omega), if_neg (by omega),
    if_pos (by omega)]

end Start

theorem unitsFrom_opens {b : UInt8} {p : Partial} (h : start b = .opens p) (bytes : List UInt8) :
    unitsFrom none (b :: bytes) = unitsFrom (some p) bytes := by
  rw [unitsFrom, h]

section Continue

variable {value d : Nat} {low high : UInt8}

/-- A byte in the range that a partial character asks for gives it six more bits. -/
theorem unitsFrom_continue (missing : Nat) (bytes : List UInt8) (hd : d < 64)
    (hLow : low.toNat ≤ d + 128) (hHigh : d + 128 ≤ high.toNat) :
    unitsFrom (some ⟨value, missing, low, high⟩) (UInt8.ofNat (d + 128) :: bytes) =
      if missing = 1 then some (Char.ofNat (value * 64 + d)) :: unitsFrom none bytes
      else unitsFrom (some ⟨value * 64 + d, missing - 1, 0x80, 0xBF⟩) bytes := by
  have hByte := toNat_ofNat (n := d + 128) (by omega)
  have hRange : low ≤ UInt8.ofNat (d + 128) ∧ UInt8.ofNat (d + 128) ≤ high := by
    rw [UInt8.le_iff_toNat_le, UInt8.le_iff_toNat_le, hByte]
    exact ⟨hLow, hHigh⟩
  have hBits : (d + 128) % 64 = d := by omega
  rw [unitsFrom, if_pos hRange, hByte, hBits]

/-- The second and later bytes of a character but the last. -/
theorem unitsFrom_more (missing : Nat) (bytes : List UInt8) (hd : d < 64)
    (hLow : low.toNat ≤ d + 128) (hHigh : d + 128 ≤ high.toNat) :
    unitsFrom (some ⟨value, missing + 2, low, high⟩) (UInt8.ofNat (d + 128) :: bytes) =
      unitsFrom (some ⟨value * 64 + d, missing + 1, 0x80, 0xBF⟩) bytes := by
  rw [unitsFrom_continue _ _ hd hLow hHigh, if_neg (by omega)]
  rfl

/-- With its last byte a character is complete, and the next byte begins anew. -/
theorem unitsFrom_last (bytes : List UInt8) (hd : d < 64) (hLow : low.toNat ≤ d + 128)
    (hHigh : d + 128 ≤ high.toNat) :
    unitsFrom (some ⟨value, 1, low, high⟩) (UInt8.ofNat (d + 128) :: bytes) =
      some (Char.ofNat (value * 64 + d)) :: unitsFrom none bytes := by
  rw [unitsFrom_continue _ _ hd hLow hHigh, if_pos rfl]

end Continue

/-- A character is cut off its bytes. Surrogates are no characters, which is why
the narrower ranges of some second bytes miss none. -/
theorem unitsFrom_utf8EncodeChar (c : Char) (bytes : List UInt8) :
    unitsFrom none (String.utf8EncodeChar c ++ bytes) = some c :: unitsFrom none bytes := by
  have hChar : Char.ofNat c.val.toNat = c := Char.ofNat_toNat c
  have hValid : c.val.toNat < 0xD800 ∨ 0xDFFF < c.val.toNat ∧ c.val.toNat < 0x110000 := c.valid
  have hLow (d : Nat) : (0x80 : UInt8).toNat ≤ d + 128 := Nat.le_add_left 128 d
  have hHigh {d : Nat} (h : d < 64) : d + 128 ≤ (0xBF : UInt8).toNat :=
    Nat.le_of_lt_succ (Nat.add_lt_add_right h 128)
  rw [String.utf8EncodeChar]
  generalize c.val.toNat = n at hChar hValid
  have hLast : n % 64 < 64 := Nat.mod_lt _ (by decide)
  have hMiddle : n / 64 % 64 < 64 := Nat.mod_lt _ (by decide)
  have hFront : n / 4096 % 64 < 64 := Nat.mod_lt _ (by decide)
  split_ifs with hOne hTwo hThree
  · rw [List.singleton_append, unitsFrom, start_of_one (by omega), hChar]
  · have hBits : n / 64 % 32 * 64 + n % 64 = n := by omega
    simp only [List.cons_append, List.nil_append]
    rw [unitsFrom_opens (start_of_two (by omega) (by omega)),
      unitsFrom_last _ hLast (hLow _) (hHigh hLast), hBits, hChar]
  · have hBits : (n / 4096 % 16 * 64 + n / 64 % 64) * 64 + n % 64 = n := by omega
    simp only [List.cons_append, List.nil_append]
    rw [unitsFrom_opens (start_of_three (by omega)),
      unitsFrom_more 0 _ hMiddle (by split_ifs <;> simp; omega) (by split_ifs <;> simp <;> omega),
      unitsFrom_last _ hLast (hLow _) (hHigh hLast), hBits, hChar]
  · have hBits : ((n / 262144 % 8 * 64 + n / 4096 % 64) * 64 + n / 64 % 64) * 64 + n % 64 = n := by
      omega
    simp only [List.cons_append, List.nil_append]
    rw [unitsFrom_opens (start_of_four (by omega)),
      unitsFrom_more 1 _ hFront (by split_ifs <;> simp; omega) (by split_ifs <;> simp <;> omega),
      unitsFrom_more 0 _ hMiddle (hLow _) (hHigh hMiddle),
      unitsFrom_last _ hLast (hLow _) (hHigh hLast), hBits, hChar]

/-- What was encoded is decoded character by character, and no byte of it is a fault. -/
theorem units_flatMap_utf8EncodeChar (cs : List Char) :
    units (cs.flatMap String.utf8EncodeChar) = cs.map some := by
  induction cs with
  | nil => rfl
  | cons c cs ih =>
      rw [List.flatMap_cons, units, unitsFrom_utf8EncodeChar, ← units, ih, List.map_cons]

theorem decode?_flatMap_utf8EncodeChar (cs : List Char) :
    decode? (cs.flatMap String.utf8EncodeChar) = some (String.ofList cs) := by
  have hChars : cs.mapM some = some cs := by
    simpa using List.mapM_pure (m := Option) (l := cs) (f := id)
  rw [decode?, units_flatMap_utf8EncodeChar, List.mapM_map]
  exact congrArg (Option.map String.ofList) hChars

/-- Text that has been encoded is decoded to itself. -/
theorem decode?_encode (s : String) : decode? (encode s) = some s := by
  rw [encode_eq, decode?_flatMap_utf8EncodeChar, String.ofList_toList]

/-! Bytes in parts. -/

/-- Whether a byte can only go on with a character. -/
def Continues (b : UInt8) : Prop :=
  0x80 ≤ b ∧ b ≤ 0xBF

/-- A partial character asks for bytes that go on. -/
def Partial.Asks (p : Partial) : Prop :=
  0x80 ≤ p.low ∧ p.high ≤ 0xBF

/-- A character that was opened asks for a byte that could begin no other. -/
theorem asks_of_start {b : UInt8} {p : Partial} (h : start b = .opens p) : p.Asks := by
  have hAsks {value missing : Nat} {low high : UInt8} (hLow : 0x80 ≤ low) (hHigh : high ≤ 0xBF) :
      Partial.Asks ⟨value, missing, low, high⟩ := ⟨hLow, hHigh⟩
  unfold start at h
  split_ifs at h <;> cases h <;> exact hAsks (by decide) (by decide)

/-- A byte that does not go on ends a partial character and is looked at again. -/
theorem unitsFrom_refused {p : Partial} {b : UInt8} (h : ¬ (p.low ≤ b ∧ b ≤ p.high))
    (bytes : List UInt8) :
    unitsFrom (some p) (b :: bytes) = none :: unitsFrom none (b :: bytes) := by
  conv_lhs => rw [unitsFrom, if_neg h]
  rw [unitsFrom]

/-- At a byte that starts a character or none the bytes can be parted. A character that
was left partial before it is one fault, with or without the rest. -/
theorem unitsFrom_append {rest : List UInt8} (hRest : ∀ b ∈ rest.head?, ¬ Continues b)
    (p : Option Partial) (bytes : List UInt8) (hAsks : ∀ q ∈ p, q.Asks) :
    unitsFrom p (bytes ++ rest) = unitsFrom p bytes ++ unitsFrom none rest := by
  induction bytes generalizing p with
  | nil =>
      cases p with
      | none => simp [unitsFrom]
      | some q =>
          cases rest with
          | nil => simp [unitsFrom]
          | cons b rest =>
              have hRefused : ¬ (q.low ≤ b ∧ b ≤ q.high) := fun hRange =>
                hRest b rfl ⟨UInt8.le_trans (hAsks q rfl).1 hRange.1,
                  UInt8.le_trans hRange.2 (hAsks q rfl).2⟩
              rw [List.nil_append, unitsFrom_refused hRefused]
              simp [unitsFrom]
  | cons b bytes ih =>
      have hStart : unitsFrom none (b :: bytes ++ rest) =
          unitsFrom none (b :: bytes) ++ unitsFrom none rest := by
        rw [List.cons_append, unitsFrom, unitsFrom]
        cases hByte : start b with
        | complete c => rw [ih none nofun, List.cons_append]
        | opens q => exact ih (some q) (by rintro _ ⟨⟩; exact asks_of_start hByte)
        | fault => rw [ih none nofun, List.cons_append]
      cases p with
      | none => exact hStart
      | some q =>
          by_cases hRange : q.low ≤ b ∧ b ≤ q.high
          · rw [List.cons_append, unitsFrom, unitsFrom, if_pos hRange, if_pos hRange]
            dsimp only
            split_ifs
            · rw [ih none nofun, List.cons_append]
            · exact ih _ (by rintro _ ⟨⟩; exact ⟨UInt8.le_refl _, UInt8.le_refl _⟩)
          · rw [unitsFrom_refused hRange, List.cons_append, unitsFrom_refused hRange,
              ← List.cons_append, hStart, List.cons_append]

theorem start_of_continues {b : UInt8} (h : Continues b) : start b = .fault := by
  have hNext : (0xBF : UInt8) < 0xC2 := by decide
  rw [start, if_neg (UInt8.not_lt.mpr h.1), if_pos (UInt8.lt_of_le_of_lt h.2 hNext)]

/-- An encoded text can be cut off what stands before it. -/
theorem not_continues_of_encode (s : String) : ∀ b ∈ (encode s).head?, ¬ Continues b := by
  rw [encode_eq]
  intro b hMem hContinues
  cases hChars : s.toList with
  | nil =>
      rw [hChars] at hMem
      cases hMem
  | cons c cs =>
      rw [hChars, List.flatMap_cons] at hMem
      have hUnits := unitsFrom_utf8EncodeChar c []
      cases hBytes : String.utf8EncodeChar c with
      | nil =>
          rw [hBytes] at hUnits
          cases hUnits
      | cons first bytes =>
          rw [hBytes] at hMem hUnits
          obtain rfl := Option.some.inj hMem
          have hFault : unitsFrom none (first :: bytes) = none :: unitsFrom none bytes := by
            rw [unitsFrom, start_of_continues hContinues]
          rw [List.append_nil, hFault] at hUnits
          cases hUnits

/-- Whatever bytes come before a text, the text is decoded as if they did not. A
character that they leave open ends as a fault. -/
theorem units_append_encode (bytes : List UInt8) (s : String) :
    units (bytes ++ encode s) = units bytes ++ s.toList.map some := by
  rw [units, unitsFrom_append (not_continues_of_encode s) none bytes nofun, ← units, ← units,
    encode_eq, units_flatMap_utf8EncodeChar]

/-- Whatever bytes follow a text, the text is decoded as if they did not. Its last
character is complete, so no later byte can belong to it. -/
theorem units_encode_append (s : String) (bytes : List UInt8) :
    units (encode s ++ bytes) = s.toList.map some ++ units bytes := by
  rw [encode_eq]
  induction s.toList with
  | nil => rfl
  | cons c cs ih =>
      rw [List.flatMap_cons, List.append_assoc, units, unitsFrom_utf8EncodeChar, ← units, ih,
        List.map_cons, List.cons_append]

/-- Lossy decoding loses nothing of what was encoded. -/
theorem decodeLossy_encode (s : String) : decodeLossy (encode s) = s := by
  rw [decodeLossy, encode_eq, units_flatMap_utf8EncodeChar]
  simp [Function.comp_def]

/-- No two texts are encoded alike. -/
theorem encode_inj {s t : String} : encode s = encode t ↔ s = t := by
  refine ⟨fun h => ?_, congrArg encode⟩
  rw [← decodeLossy_encode s, h, decodeLossy_encode]

/-- The bytes encode a text. -/
def IsText (bytes : List UInt8) : Prop :=
  ∃ s, bytes = encode s

/-- Text around other bytes is decoded by itself, even where these are no text. -/
theorem decodeLossy_around (before after : String) (bytes : List UInt8) :
    (decodeLossy (encode before ++ bytes ++ encode after)).toList =
      before.toList ++ (decodeLossy bytes).toList ++ after.toList := by
  rw [decodeLossy, decodeLossy, String.toList_ofList, String.toList_ofList, units_append_encode,
    units_encode_append]
  simp [Function.comp_def]

/-! Characters of one byte. -/

/-- A character below 128 is encoded as the byte with its number. -/
theorem utf8EncodeChar_of_lt {c : Char} (h : c.toNat < 128) :
    String.utf8EncodeChar c = [UInt8.ofNat c.toNat] := by
  have hOne : c.val.toNat ≤ 127 := Nat.le_of_lt_succ h
  rw [String.utf8EncodeChar, if_pos hOne]
  rfl

/-- A byte below 128 is all that stands for its character. -/
theorem toNat_of_mem_utf8EncodeChar {c : Char} {b : UInt8} (hLow : b.toNat < 128)
    (h : b ∈ String.utf8EncodeChar c) : b.toNat = c.toNat := by
  rw [String.utf8EncodeChar] at h
  change _ = c.val.toNat
  generalize c.val.toNat = n at *
  have hOther {m : Nat} (hMore : 128 ≤ m) (hMost : m < 256) : b ≠ UInt8.ofNat m := by
    rintro rfl
    rw [toNat_ofNat hMost] at hLow
    omega
  split_ifs at h with hOne hTwo hThree
  · rw [List.mem_singleton.mp h, toNat_ofNat (by omega)]
  all_goals
    simp only [List.mem_cons, List.not_mem_nil, or_false] at h
    exfalso
  · rcases h with h | h <;> exact hOther (by omega) (by omega) h
  · rcases h with h | h | h <;> exact hOther (by omega) (by omega) h
  · rcases h with h | h | h | h <;> exact hOther (by omega) (by omega) h

/-- A partial character that comes to no character of one byte, whatever goes on with it. -/
def Partial.IsFar (p : Partial) : Prop :=
  p.Asks ∧ 128 ≤ (p.value * 64 + (p.low.toNat - 128)) * 64 ^ (p.missing - 1)

/-- The overlong forms are left out, so what is opened leads beyond the characters of one
byte. -/
theorem isFar_of_start {b : UInt8} {p : Partial} (h : start b = .opens p) : p.IsFar := by
  refine ⟨asks_of_start h, ?_⟩
  have hThree : b = 0xE0 ↔ b.toNat = 224 := UInt8.toNat_inj.symm
  have hFour : b = 0xF0 ↔ b.toNat = 240 := UInt8.toNat_inj.symm
  unfold start at h
  simp only [UInt8.lt_iff_toNat_lt, UInt8.reduceToNat, hThree, hFour] at h
  split_ifs at h <;> cases h <;> simp <;> omega

namespace Partial.IsFar

variable {p : Partial} {b : UInt8}

/-- Bytes in the ranges that were asked for make no character below 128. Such a
character has one byte, and no longer form. -/
theorem le_value (h : p.IsFar) (hRange : p.low ≤ b ∧ b ≤ p.high) :
    128 ≤ (p.value * 64 + b.toNat % 64) * 64 ^ (p.missing - 1) := by
  obtain ⟨⟨hLow, hHigh⟩, hFar⟩ := h
  have hBits : p.low.toNat - 128 ≤ b.toNat % 64 := by
    simp only [UInt8.le_iff_toNat_le, UInt8.reduceToNat] at hLow hHigh hRange
    omega
  exact Nat.le_trans hFar (Nat.mul_le_mul_right _ (Nat.add_le_add_left hBits _))

/-- It stays so with each byte that goes on with it. -/
theorem next (h : p.IsFar) (hRange : p.low ≤ b ∧ b ≤ p.high) :
    IsFar ⟨p.value * 64 + b.toNat % 64, p.missing - 1, 0x80, 0xBF⟩ := by
  refine ⟨⟨UInt8.le_refl _, UInt8.le_refl _⟩, ?_⟩
  have hNothing : (0x80 : UInt8).toNat - 128 = 0 := rfl
  rw [hNothing, Nat.add_zero, Nat.mul_assoc, ← Nat.pow_succ']
  have hLeft : p.missing - 1 ≤ p.missing - 1 - 1 + 1 := by omega
  exact Nat.le_trans (h.le_value hRange)
    (Nat.mul_le_mul_left _ (Nat.pow_le_pow_right (by decide) hLeft))

end Partial.IsFar

/-- A number that is no character stands for the first of all characters, the one with
the number zero. -/
theorem toNat_charOfNat (n : Nat) : (Char.ofNat n).toNat = n ∨ (Char.ofNat n).toNat = 0 := by
  by_cases hValid : n.isValidChar
  · exact Or.inl (by rw [Char.ofNat, dif_pos hValid]; rfl)
  · exact Or.inr (by rw [Char.ofNat, dif_neg hValid]; rfl)

section OneByte

variable {c : Char} (hPos : 0 < c.toNat) (hOne : c.toNat < 128)

include hPos hOne

/-- A character of one byte is read from that byte and from no others. -/
theorem mem_of_mem_unitsFrom {bytes : List UInt8} (p : Option Partial) (hFar : ∀ q ∈ p, q.IsFar)
    (h : some c ∈ unitsFrom p bytes) : UInt8.ofNat c.toNat ∈ bytes := by
  induction bytes generalizing p with
  | nil => cases p <;> simp [unitsFrom] at h
  | cons b bytes ih =>
      have hStart (h : some c ∈ unitsFrom none (b :: bytes)) :
          UInt8.ofNat c.toNat ∈ b :: bytes := by
        rw [unitsFrom] at h
        cases hByte : start b with
        | complete d =>
            rw [hByte] at h
            rcases List.mem_cons.mp h with hSame | hRest
            · unfold start at hByte
              split_ifs at hByte
              cases hByte
              cases hSame
              rcases toNat_charOfNat b.toNat with hSame | hZero
              · rw [hSame, UInt8.ofNat_toNat]
                exact List.mem_cons_self
              · omega
            · exact List.mem_cons_of_mem b (ih none nofun hRest)
        | opens q =>
            rw [hByte] at h
            exact List.mem_cons_of_mem b (ih (some q) (by rintro _ ⟨⟩; exact isFar_of_start hByte) h)
        | fault =>
            rw [hByte] at h
            exact List.mem_cons_of_mem b (ih none nofun (by simpa using h))
      cases p with
      | none => exact hStart h
      | some q =>
          by_cases hRange : q.low ≤ b ∧ b ≤ q.high
          · have hFar := hFar q rfl
            rw [unitsFrom, if_pos hRange] at h
            dsimp only at h
            split_ifs at h with hLast
            · rcases List.mem_cons.mp h with hSame | hRest
              · have hValue := hFar.le_value hRange
                rw [hLast, Nat.sub_self, Nat.pow_zero] at hValue
                rw [Option.some.inj hSame] at hPos hOne
                rcases toNat_charOfNat (q.value * 64 + b.toNat % 64) with hSame | hZero <;> omega
              · exact List.mem_cons_of_mem b (ih none nofun hRest)
            · exact List.mem_cons_of_mem b (ih _ (by rintro _ ⟨⟩; exact hFar.next hRange) h)
          · rw [unitsFrom_refused hRange] at h
            exact hStart (by simpa using h)

/-- A character of one byte that is read from bytes, even from bytes that are no text,
has its byte among them. -/
theorem mem_of_mem_decodeLossy {bytes : List UInt8} (h : c ∈ (decodeLossy bytes).toList) :
    UInt8.ofNat c.toNat ∈ bytes := by
  rw [decodeLossy, String.toList_ofList] at h
  obtain ⟨u, hUnit, rfl⟩ := List.mem_map.mp h
  cases u with
  | some d => exact mem_of_mem_unitsFrom hPos hOne none nofun hUnit
  | none => exact absurd hOne (by decide)

end OneByte

end RoughCut.Text.Utf8
