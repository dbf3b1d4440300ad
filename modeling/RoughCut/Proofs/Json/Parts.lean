import Mathlib.Data.List.Forall2
import RoughCut.Proofs.Json.Layout
import RoughCut.Proofs.Json.Trailing

/-!
Texts that are put together from other texts. An array whose items can be read is
read as these, and an object whose keys and values can be read as these members,
with blanks anywhere between the parts.
-/

namespace RoughCut.Json

/-- Nothing but blanks. -/
def IsBlank (text : String) : Prop :=
  ∀ b ∈ Text.Utf8.encode text, Byte.isBlank b = true

/-- The text `u` is the text `t` with blanks around it. -/
def Padded (t u : String) : Prop :=
  ∃ before after, IsBlank before ∧ IsBlank after ∧ u = before ++ t ++ after

/-- The parts with commas between them and the given marks around them, with
blanks inside the marks and around them. -/
def Enclosed (opening closing : String) (parts : List String) (text : String) : Prop :=
  ∃ inside, Padded (",".intercalate parts) inside ∧ Padded (opening ++ inside ++ closing) text

/-- A member of an object in the text: the name, and how this and the value are written. -/
structure MemberText where
  name : String
  key : String
  value : String

def MemberText.text (m : MemberText) : String :=
  m.key ++ ":" ++ m.value

/-- The text is an array, and its items are how `as` are written. -/
def IsArray {α : Type} (IsItem : α → String → Prop) (as : List α) (text : String) : Prop :=
  ∃ items, List.Forall₂ IsItem as items ∧ Enclosed "[" "]" items text

/-- Reads a text that is one value with at most so many levels of arrays and objects. -/
def Value.readWithin (levels : Nat) (text : String) : Except Fault Value := do
  let (v, s) ← readDeep levels (Text.Utf8.encode text)
  if Reader.skipBlanks s = [] then .ok v else .error .malformed

/-! The bytes of texts that are put together. -/

/-- The parts after the first, each with its comma. -/
def followingBytes (parts : List String) : List UInt8 :=
  parts.flatMap fun part => Byte.comma :: Text.Utf8.encode part

theorem followingBytes_cons (part : String) (parts : List String) :
    followingBytes (part :: parts) =
      Byte.comma :: (Text.Utf8.encode part ++ followingBytes parts) :=
  List.flatMap_cons

/-- Parts with commas between them are the first part, followed by the others with a
comma before each. -/
theorem encode_intercalate (part : String) (parts : List String) :
    Text.Utf8.encode (",".intercalate (part :: parts)) =
      Text.Utf8.encode part ++ followingBytes parts := by
  have hComma : Text.Utf8.encode "," = [Byte.comma] := by decide +kernel
  induction parts generalizing part with
  | nil => rw [String.intercalate_singleton, followingBytes, List.flatMap_nil, List.append_nil]
  | cons next parts ih =>
      rw [String.intercalate_cons_cons, Text.Utf8.encode_append, Text.Utf8.encode_append, ih, hComma,
        followingBytes_cons, List.append_assoc, List.singleton_append]

/-- The bytes of parts between marks: the blanks, the mark, what is inside, the
other mark and blanks again. -/
theorem Enclosed.encode_eq {opening closing : String} {parts : List String} {text : String}
    (h : Enclosed opening closing parts text) :
    ∃ g h i j, (∀ b ∈ g, Byte.isBlank b = true) ∧ (∀ b ∈ h, Byte.isBlank b = true) ∧
      (∀ b ∈ i, Byte.isBlank b = true) ∧ (∀ b ∈ j, Byte.isBlank b = true) ∧
      Text.Utf8.encode text = g ++ (Text.Utf8.encode opening ++
        (h ++ (Text.Utf8.encode (",".intercalate parts) ++
          (i ++ (Text.Utf8.encode closing ++ j))))) := by
  obtain ⟨inside, ⟨h, i, hh, hi, rfl⟩, g, j, hg, hj, rfl⟩ := h
  refine ⟨_, _, _, _, hg, hh, hi, hj, ?_⟩
  simp only [Text.Utf8.encode_append, List.append_assoc]

section Blank

variable {g s t r x : List UInt8} {first : Bool} {depth : Nat} {v : Value}

/-- Where nothing is left when blanks are skipped there was nothing but blanks. -/
theorem isBlank_of_skipBlanks (h : Reader.skipBlanks s = []) : ∀ b ∈ s, Byte.isBlank b = true :=
  List.dropWhile_eq_nil_iff.mp h

/-- Nothing that follows a part belongs to a number. -/
theorem ends_following (hBlank : ∀ b ∈ g, Byte.isBlank b = true) {mark : UInt8}
    (hMark : mark = Byte.closeBracket ∨ mark = Byte.closeBrace) (parts : List String) :
    Number.Ends (followingBytes parts ++ (g ++ mark :: x)) := by
  cases parts with
  | nil =>
      rw [followingBytes, List.flatMap_nil, List.nil_append]
      refine Number.Ends.append hBlank ?_
      intro b hb
      obtain rfl : mark = b := Option.some.inj hb
      rcases hMark with rfl | rfl <;> decide
  | cons part parts =>
      rw [followingBytes_cons]
      intro b hb
      obtain rfl : Byte.comma = b := Option.some.inj hb
      decide

section Grammar

variable {α : Type} {Part : α → List UInt8 → List UInt8 → Prop}
  (hBlank : ∀ b ∈ g, Byte.isBlank b = true)
include hBlank

theorem Items.blanks {as : List α} (h : Items Part first as s r) :
    Items Part first as (g ++ s) r := by
  have hNext : Reader.nextItem first (g ++ s) = Reader.nextItem first s := by
    rw [Reader.nextItem, skipBlanks_append hBlank, ← Reader.nextItem]
  cases h with
  | close hClose hEnd => exact .close (hNext.trans hClose) hEnd
  | item hMore hItem rest => exact .item (hNext.trans hMore) hItem rest

theorem Members.blanks {ms : List (String × α)} (h : Members Part first ms s r) :
    Members Part first ms (g ++ s) r := by
  have hNext : Reader.nextMember first (g ++ s) = Reader.nextMember first s := by
    rw [Reader.nextMember, skipBlanks_append hBlank, ← Reader.nextMember]
  cases h with
  | close hClose => exact .close (hNext.trans hClose)
  | member hMore hKey hColon hValue rest => exact .member (hNext.trans hMore) hKey hColon hValue rest

end Grammar

end Blank

/-! Reading what is put together. -/

namespace Value

variable {levels : Nat} {text : String} {v : Value}

theorem parse_eq_readWithin (text : String) : parse text = readWithin depthLimit text :=
  rfl

/-- A text is a value if it begins with one that is not too deep and has only blanks
behind it. -/
theorem readWithin_eq_ok_iff :
    readWithin levels text = .ok v ↔
      ∃ r, readDeep levels (Text.Utf8.encode text) = .ok (v, r) ∧
        ∀ b ∈ r, Byte.isBlank b = true := by
  constructor
  · intro h
    obtain ⟨⟨w, r⟩, hRead, h⟩ := bind_eq_ok_iff.mp h
    simp only at h
    split_ifs at h with hBlank
    cases h
    exact ⟨r, hRead, isBlank_of_skipBlanks hBlank⟩
  · rintro ⟨r, hRead, hBlank⟩
    exact bind_eq_ok_iff.mpr ⟨_, hRead, if_pos (List.dropWhile_eq_nil_iff.mpr hBlank)⟩

/-- What is neither array nor object is read within any number of levels. -/
theorem readWithin_of_parse (h : parse text = .ok v) (hArray : ∀ vs, v ≠ .array vs)
    (hObject : ∀ ms, v ≠ .object ms) (levels : Nat) : readWithin levels text = .ok v := by
  rw [parse_eq_readWithin] at h
  obtain ⟨r, hRead, hBlank⟩ := readWithin_eq_ok_iff.mp h
  obtain ⟨o, t, hOpening, hRest⟩ := rest_of_readDeep hRead
  refine readWithin_eq_ok_iff.mpr ⟨r, readDeep_of_rest hOpening ?_, hBlank⟩
  cases hRest with
  | null => exact .null
  | boolean => exact .boolean
  | number hNumber => exact .number hNumber
  | text hText => exact .text hText
  | array => exact absurd rfl (hArray _)
  | object => exact absurd rfl (hObject _)

/-- A value is read after blanks, and blanks after it are left over. So a text of a
value may stand as a part of another text. -/
theorem readDeep_part {u : String} {x : List UInt8} (h : readWithin levels u = .ok v)
    (hx : Number.Ends x) :
    ∃ r, (∀ b ∈ r, Byte.isBlank b = true) ∧
      readDeep levels (Text.Utf8.encode u ++ x) = .ok (v, r ++ x) := by
  obtain ⟨r, hRead, hBlank⟩ := readWithin_eq_ok_iff.mp h
  exact ⟨r, hBlank, readDeep_trailing hRead hx⟩

/-- Where a text begins with a mark, the value is what follows the mark. -/
theorem readWithin_of_opening {g t j : List UInt8} {mark : UInt8} {o : Opening}
    (hg : ∀ b ∈ g, Byte.isBlank b = true) (hj : ∀ b ∈ j, Byte.isBlank b = true)
    (hText : Text.Utf8.encode text = g ++ mark :: t)
    (hOpening : Opening.read (mark :: t) = .ok (o, t)) (hRest : Rest levels o v t j) :
    readWithin levels text = .ok v := by
  refine readWithin_eq_ok_iff.mpr ⟨j, ?_, hj⟩
  rw [hText, ← readDeep_skipBlanks, skipBlanks_append hg, readDeep_skipBlanks]
  exact readDeep_of_rest hOpening hRest

section Array

variable {g r : List UInt8} {vs : List Value} {parts : List String}

/-- Items that can be read by themselves can be read behind one another, where a comma
comes before each. -/
theorem items_following (hBlank : ∀ b ∈ g, Byte.isBlank b = true)
    (h : List.Forall₂ (fun v part => readWithin levels part = .ok v) vs parts) :
    Items (fun v s r => readDeep levels s = .ok (v, r)) false vs
      (followingBytes parts ++ (g ++ Byte.closeBracket :: r)) r := by
  induction h with
  | nil => exact Items.last hBlank false r
  | @cons v part vs parts hPart _ ih =>
      obtain ⟨t, hRest, hRead⟩ :=
        readDeep_part hPart (ends_following hBlank (Or.inl rfl) parts (x := r))
      have hNone : ∀ b ∈ ([] : List UInt8), Byte.isBlank b = true := by simp
      rw [followingBytes_cons, List.cons_append, List.append_assoc]
      exact Items.cons_next (g := []) hNone hRead (Items.blanks hRest ih)

/-- Parts that can be read by themselves, with commas between them and brackets around
them, are read as an array of what they are. -/
theorem readWithin_array
    (hItems : List.Forall₂ (fun v part => readWithin levels part = .ok v) vs parts)
    (h : Enclosed "[" "]" parts text) : readWithin (levels + 1) text = .ok (.array vs) := by
  obtain ⟨g, h, i, j, hg, hh, hi, hj, hText⟩ := h.encode_eq
  have hOpen : Text.Utf8.encode "[" = [Byte.openBracket] := by decide +kernel
  have hClose : Text.Utf8.encode "]" = [Byte.closeBracket] := by decide +kernel
  rw [hOpen, hClose] at hText
  simp only [List.singleton_append] at hText
  refine readWithin_of_opening hg hj hText (o := .array) rfl (.array ?_)
  cases hItems with
  | nil =>
      have hEmpty : Text.Utf8.encode (",".intercalate []) = [] := by decide +kernel
      rw [hEmpty]
      exact Items.blanks hh (Items.last hi true j)
  | @cons v part vs parts hPart hParts =>
      obtain ⟨t, hRest, hRead⟩ :=
        readDeep_part hPart (ends_following hi (Or.inl rfl) parts (x := j))
      rw [encode_intercalate, List.append_assoc]
      exact Items.cons_first hh hRead (Items.blanks hRest (items_following hi hParts))

end Array

section Object

variable {g r : List UInt8} {ms : List (String × Value)} {members : List MemberText}

/-- The member is written as its text tells. -/
def IsMember (levels : Nat) (m : String × Value) (u : MemberText) : Prop :=
  m.1 = u.name ∧ parse u.key = .ok (.text u.name) ∧ readWithin levels u.value = .ok m.2

/-- The first byte of a key is its quote. -/
theorem key_of_parse {key k : String} (h : parse key = .ok (.text k)) :
    ∃ w t, Reader.skipBlanks (Text.Utf8.encode key) = Byte.quote :: w ∧
      Literal.read w = .ok (k, t) ∧ ∀ b ∈ t, Byte.isBlank b = true := by
  rw [parse_eq_readWithin] at h
  obtain ⟨r, hRead, hBlank⟩ := readWithin_eq_ok_iff.mp h
  obtain ⟨o, t, hOpening, hRest⟩ := rest_of_readDeep hRead
  obtain ⟨b, u, hSkip, hBegins⟩ := Opening.begins_of_read hOpening
  cases hRest with
  | text hText =>
      cases hBegins with
      | text hByte => exact ⟨_, r, hByte ▸ hSkip, hText, hBlank⟩

/-- A member is read after what leads to its key. -/
theorem members_cons {first : Bool} {m : String × Value} {u : MemberText} {s x : List UInt8}
    (hMember : IsMember levels m u) (hx : Number.Ends x)
    (hNext : ∀ w, Reader.skipBlanks (Text.Utf8.encode u.text ++ x) = Byte.quote :: w →
      Reader.nextMember first s = .ok (true, w))
    (rest : Members (fun v s r => readDeep levels s = .ok (v, r)) false ms x r) :
    Members (fun v s r => readDeep levels s = .ok (v, r)) first (m :: ms) s r := by
  obtain ⟨k, v⟩ := m
  obtain ⟨rfl, hKey, hValue⟩ := hMember
  obtain ⟨w, t, hQuote, hName, ht⟩ := key_of_parse hKey
  obtain ⟨y, hy, hRead⟩ := readDeep_part hValue hx
  have hColon : Text.Utf8.encode ":" = [Byte.colon] := by decide +kernel
  have hText : Text.Utf8.encode u.text ++ x =
      Text.Utf8.encode u.key ++ Byte.colon :: (Text.Utf8.encode u.value ++ x) := by
    rw [MemberText.text, Text.Utf8.encode_append, Text.Utf8.encode_append, hColon]
    simp
  rw [hText, Reader.skipBlanks_trailing hQuote] at hNext
  refine .member (hNext _ rfl) (Literal.read_trailing hName _) ?_ hRead (Members.blanks hy rest)
  rw [Reader.colon, skipBlanks_append ht]
  rfl

/-- Members that can be read by themselves can be read behind one another, where a comma
comes before each. -/
theorem members_following (hBlank : ∀ b ∈ g, Byte.isBlank b = true)
    (h : List.Forall₂ (IsMember levels) ms members) :
    Members (fun v s r => readDeep levels s = .ok (v, r)) false ms
      (followingBytes (members.map MemberText.text) ++ (g ++ Byte.closeBrace :: r)) r := by
  induction h with
  | nil => exact Members.last hBlank false r
  | @cons m u ms members hMember _ ih =>
      have hEnds := ends_following hBlank (Or.inr rfl) (members.map MemberText.text) (x := r)
      refine members_cons hMember hEnds ?_ ih
      intro w hQuote
      have hBytes : followingBytes ((u :: members).map MemberText.text) ++
          (g ++ Byte.closeBrace :: r) = Byte.comma :: (Text.Utf8.encode u.text ++
            (followingBytes (members.map MemberText.text) ++ (g ++ Byte.closeBrace :: r))) := by
        rw [List.map_cons, followingBytes_cons, List.cons_append, List.append_assoc]
      have hComma (s : List UInt8) : Reader.skipBlanks (Byte.comma :: s) = Byte.comma :: s := rfl
      rw [hBytes, Reader.nextMember, hComma]
      simp only [hQuote]
      rfl

/-- Members that can be read by themselves, with commas between them and braces around
them, are read as an object of what they are. -/
theorem readWithin_object (hMembers : List.Forall₂ (IsMember levels) ms members)
    (h : Enclosed "\x7b" "\x7d" (members.map MemberText.text) text) :
    readWithin (levels + 1) text = .ok (.object ms) := by
  obtain ⟨g, h, i, j, hg, hh, hi, hj, hText⟩ := h.encode_eq
  have hOpen : Text.Utf8.encode "\x7b" = [Byte.openBrace] := by decide +kernel
  have hClose : Text.Utf8.encode "\x7d" = [Byte.closeBrace] := by decide +kernel
  rw [hOpen, hClose] at hText
  simp only [List.singleton_append] at hText
  refine readWithin_of_opening hg hj hText (o := .object) rfl (.object ?_)
  refine Members.blanks hh ?_
  cases hMembers with
  | nil =>
      have hEmpty : Text.Utf8.encode (",".intercalate []) = [] := by decide +kernel
      rw [List.map_nil, hEmpty]
      exact Members.last hi true j
  | @cons m u ms members hMember hRest =>
      have hEnds := ends_following hi (Or.inr rfl) (members.map MemberText.text) (x := j)
      rw [List.map_cons, encode_intercalate, List.append_assoc]
      refine members_cons hMember hEnds ?_ (members_following hi hRest)
      intro w hQuote
      rw [Reader.nextMember]
      simp only [hQuote]
      rfl

end Object

end Value

end RoughCut.Json
