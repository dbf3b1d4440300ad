import RoughCut.Proofs.Text.Utf8
import RoughCut.Json.Literal

/-!
Quoted texts that have been written are read back. Each character has its own
way through its escape, and no byte of a character that is written as it is
means anything to the reader.
-/

namespace RoughCut.Json.Literal

variable {acc s : List UInt8}

/-- Bytes that mean nothing inside a quoted text. -/
def IsPlain (b : UInt8) : Prop :=
  b ≠ Byte.quote ∧ b ≠ Byte.backslash ∧ ¬ b < 0x20

/-- Plain bytes in a string are kept as they are. -/
theorem content_of_plain {bytes : List UInt8} (h : ∀ b ∈ bytes, IsPlain b) :
    content .plain acc (bytes ++ s) = content .plain (bytes.reverse ++ acc) s := by
  induction bytes generalizing acc with
  | nil => rfl
  | cons b bytes ih =>
      obtain ⟨hQuote, hBackslash, hControl⟩ := h b List.mem_cons_self
      rw [List.cons_append, content, if_neg hQuote, if_neg hBackslash, if_neg hControl,
        ih fun x hx => h x (List.mem_cons_of_mem b hx)]
      simp

/-- The numbers of the bytes that mean nothing. -/
theorem isPlain_ofNat {n : Nat} (hByte : n < 256) (hQuote : n ≠ 34) (hBackslash : n ≠ 92)
    (hControl : 32 ≤ n) : IsPlain (UInt8.ofNat n) := by
  refine ⟨?_, ?_, ?_⟩
  · rw [Ne, Text.Utf8.ofNat_eq_iff hByte]
    exact hQuote
  · rw [Ne, Text.Utf8.ofNat_eq_iff hByte]
    exact hBackslash
  · rw [Text.Utf8.ofNat_lt_iff hByte]
    exact Nat.not_lt.mpr hControl

/-- All bytes of a character are plain that needs no escape, those of longer characters
as well. -/
theorem isPlain_of_mem_utf8EncodeChar {c : Char} {b : UInt8} (hQuote : c ≠ '"')
    (hBackslash : c ≠ '\\') (hControl : ¬ c.toNat < 0x20) (hb : b ∈ String.utf8EncodeChar c) :
    IsPlain b := by
  have hQuote : c.val.toNat ≠ 34 := fun h => hQuote (Char.toNat_inj.mp h)
  have hBackslash : c.val.toNat ≠ 92 := fun h => hBackslash (Char.toNat_inj.mp h)
  have hControl : 32 ≤ c.val.toNat := Nat.not_lt.mp hControl
  rw [String.utf8EncodeChar] at hb
  generalize c.val.toNat = n at *
  -- all bytes of a character beyond ASCII lie beyond ASCII
  have hBeyond (m : Nat) (hLow : 128 ≤ m) (hHigh : m < 256) : IsPlain (UInt8.ofNat m) :=
    isPlain_ofNat hHigh (by omega) (by omega) (by omega)
  split_ifs at hb with hOne hTwo hThree
  · obtain rfl := List.mem_singleton.mp hb
    exact isPlain_ofNat (by omega) hQuote hBackslash hControl
  · simp only [List.mem_cons, List.not_mem_nil, or_false] at hb
    rcases hb with rfl | rfl <;> exact hBeyond _ (by omega) (by omega)
  · simp only [List.mem_cons, List.not_mem_nil, or_false] at hb
    rcases hb with rfl | rfl | rfl <;> exact hBeyond _ (by omega) (by omega)
  · simp only [List.mem_cons, List.not_mem_nil, or_false] at hb
    rcases hb with rfl | rfl | rfl | rfl <;> exact hBeyond _ (by omega) (by omega)

/-- An escape with a letter of its own. -/
theorem content_of_escape {b c : UInt8} (hUnit : b ≠ 0x75) (hEscaped : escaped b = some c) :
    content .plain acc (Byte.backslash :: b :: s) = content .plain (c :: acc) s := by
  have hQuote : Byte.backslash ≠ Byte.quote := by decide
  rw [content, if_neg hQuote, if_pos rfl, content, if_neg hUnit, hEscaped]

/-- An escape with four digits, of which the first two are zeros. -/
theorem content_of_unit {b c : UInt8} {high low : Nat} (hHigh : hexValue b = some high)
    (hLow : hexValue c = some low) (hControl : high * 16 + low < 0x20) :
    content .plain acc (Byte.backslash :: 0x75 :: 0x30 :: 0x30 :: b :: c :: s) =
      content .plain ((charBytes (high * 16 + low)).reverse ++ acc) s := by
  have hQuote : Byte.backslash ≠ Byte.quote := by decide
  have hZero : hexValue 0x30 = some 0 := by decide
  have hFinish : finishUnit (high * 16 + low) none =
      .ok (.plain, charBytes (high * 16 + low)) := by
    rw [finishUnit, if_neg (by omega), if_neg (by omega)]
  rw [content, if_neg hQuote, if_pos rfl, content, if_pos rfl, if_neg (by simp)]
  simp only [content, hZero, hHigh, hLow, Nat.zero_mul, Nat.zero_add, hFinish]
  rfl

/-- The byte of a hexadecimal digit. -/
theorem hexValue_digitChar {n : Nat} (h : n < 16) :
    ∃ b, String.utf8EncodeChar (Nat.digitChar n) = [b] ∧ hexValue b = some n := by
  have hDigits : ∀ n < 16, String.utf8EncodeChar (Nat.digitChar n) =
      [UInt8.ofNat (Nat.digitChar n).toNat] ∧
        hexValue (UInt8.ofNat (Nat.digitChar n).toNat) = some n := by
    decide
  exact ⟨_, hDigits n h⟩

/-- A character that has been written is read as its bytes. It may be written as itself,
as an escape with a letter, or as one with four digits. -/
theorem content_charText (c : Char) :
    content .plain acc ((charText c).flatMap String.utf8EncodeChar ++ s) =
      content .plain ((String.utf8EncodeChar c).reverse ++ acc) s := by
  unfold charText
  split
  · exact content_of_escape (by decide) (by decide)
  · exact content_of_escape (by decide) (by decide)
  · exact content_of_escape (by decide) (by decide)
  · exact content_of_escape (by decide) (by decide)
  · exact content_of_escape (by decide) (by decide)
  · exact content_of_escape (by decide) (by decide)
  · exact content_of_escape (by decide) (by decide)
  · next hQuote hBackslash _ _ _ _ _ =>
    split_ifs with hControl
    · obtain ⟨b, hb, hHigh⟩ := hexValue_digitChar (n := c.toNat / 16) (by omega)
      obtain ⟨d, hd, hLow⟩ := hexValue_digitChar (n := c.toNat % 16) (by omega)
      have hNumber : c.toNat / 16 * 16 + c.toNat % 16 = c.toNat := Nat.div_add_mod' _ _
      have hText : ['\\', 'u', '0', '0', Nat.digitChar (c.toNat / 16),
          Nat.digitChar (c.toNat % 16)].flatMap String.utf8EncodeChar =
            [Byte.backslash, 0x75, 0x30, 0x30, b, d] := by
        simp only [List.flatMap_cons, List.flatMap_nil, hb, hd]
        rfl
      rw [hText]
      refine (content_of_unit hHigh hLow (by omega)).trans ?_
      rw [hNumber, charBytes, Char.ofNat_toNat]
      rfl
    · rw [List.flatMap_singleton]
      exact content_of_plain fun b hb =>
        isPlain_of_mem_utf8EncodeChar hQuote hBackslash hControl hb

/-- What was written into a string is read out of it, whether it was written as it is or
as an escape. -/
theorem content_flatMap_charText (cs : List Char) :
    content .plain acc ((cs.flatMap charText).flatMap String.utf8EncodeChar ++ s) =
      content .plain ((cs.flatMap String.utf8EncodeChar).reverse ++ acc) s := by
  induction cs generalizing acc with
  | nil => rfl
  | cons c cs ih =>
      rw [List.flatMap_cons, List.flatMap_append, List.append_assoc, content_charText, ih,
        List.flatMap_cons, List.reverse_append, List.append_assoc]

/-- A text that has been written is read back, from after its opening quote. -/
theorem read_written (t : String) (r : List UInt8) :
    read ((t.toList.flatMap charText).flatMap String.utf8EncodeChar ++ Byte.quote :: r) =
      .ok (t, r) := by
  have hContent : content .plain [] ((t.toList.flatMap charText).flatMap String.utf8EncodeChar ++
      Byte.quote :: r) = .ok (t.toList.flatMap String.utf8EncodeChar, r) := by
    rw [content_flatMap_charText, content, if_pos rfl, List.append_nil, List.reverse_reverse]
  rw [read, hContent]
  simp only [bind, Except.bind, Text.Utf8.decode?_flatMap_utf8EncodeChar, String.ofList_toList]

theorem flatMap_chars (t : String) :
    (chars t).flatMap String.utf8EncodeChar =
      Byte.quote :: ((t.toList.flatMap charText).flatMap String.utf8EncodeChar ++ [Byte.quote]) := by
  rw [chars, List.cons_append, List.flatMap_cons, List.flatMap_append]
  rfl

end RoughCut.Json.Literal
