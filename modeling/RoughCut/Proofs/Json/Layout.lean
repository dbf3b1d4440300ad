import RoughCut.Proofs.Json.Literals
import RoughCut.Proofs.Json.WrittenNumbers

/-!
Values with blanks between their parts. The compact and the pretty text of a value
differ in these blanks alone, and a value that is laid out is read as what its
numbers and texts are read as, whatever the blanks.
-/

namespace RoughCut.Json

/-- The blanks of a text: those before an item, a member or what closes them, with
the level this stands at, and those after a colon. -/
structure Layout where
  line : Nat → List Char
  space : List Char
  blank_line : ∀ level, ∀ c ∈ line level, c = ' ' ∨ c = '\n'
  blank_space : ∀ c ∈ space, c = ' ' ∨ c = '\n'

namespace Layout

def compact : Layout := ⟨fun _ => [], [], by simp, by simp⟩

def pretty : Layout where
  line := Value.newLine
  space := [' ']
  blank_line := by
    intro level c hc
    rcases List.mem_cons.mp hc with rfl | hBlank
    · exact Or.inr rfl
    · exact Or.inl (List.eq_of_mem_replicate hBlank)
  blank_space := by simp

mutual

/-- The value laid out, its first line at the given level. -/
def chars (l : Layout) (level : Nat) : Value → List Char
  | .null => "null".toList
  | .boolean b => (if b then "true" else "false").toList
  | .number n => n.chars
  | .text s => Literal.chars s
  | .array [] => ['[', ']']
  | .array (v :: vs) => '[' :: l.line (level + 1) ++ l.chars (level + 1) v ++ l.itemChars level vs
  | .object [] => ['\x7b', '\x7d']
  | .object ((k, v) :: ms) =>
    '\x7b' :: l.line (level + 1) ++ Literal.chars k ++ ':' :: l.space ++ l.chars (level + 1) v ++
      l.memberChars level ms

/-- The items after the first with the closing bracket. -/
def itemChars (l : Layout) (level : Nat) : List Value → List Char
  | [] => l.line level ++ [']']
  | v :: vs => ',' :: l.line (level + 1) ++ l.chars (level + 1) v ++ l.itemChars level vs

/-- The members after the first with the closing brace. -/
def memberChars (l : Layout) (level : Nat) : List (String × Value) → List Char
  | [] => l.line level ++ ['\x7d']
  | (k, v) :: ms =>
    ',' :: l.line (level + 1) ++ Literal.chars k ++ ':' :: l.space ++ l.chars (level + 1) v ++
      l.memberChars level ms

end

mutual

/-- Written without spaces and lines a value is its compact text. -/
theorem chars_compact : (level : Nat) → (v : Value) → compact.chars level v = v.compact
  | _, .null => rfl
  | _, .boolean _ => rfl
  | _, .number _ => rfl
  | _, .text _ => rfl
  | _, .array [] => rfl
  | level, .array (v :: vs) => by
    rw [chars, chars_compact, itemChars_compact, Value.compact]
    rfl
  | _, .object [] => rfl
  | level, .object ((k, v) :: ms) => by
    rw [chars, chars_compact, memberChars_compact, Value.compact]
    simp [compact]

theorem itemChars_compact : (level : Nat) → (vs : List Value) →
    compact.itemChars level vs = Value.compactItems vs
  | _, [] => rfl
  | level, v :: vs => by
    rw [itemChars, chars_compact, itemChars_compact, Value.compactItems]
    rfl

theorem memberChars_compact : (level : Nat) → (ms : List (String × Value)) →
    compact.memberChars level ms = Value.compactMembers ms
  | _, [] => rfl
  | level, (k, v) :: ms => by
    rw [memberChars, chars_compact, memberChars_compact, Value.compactMembers]
    simp [compact]

end

mutual

/-- Written with a line for each item and member a value is its pretty text. -/
theorem chars_pretty : (level : Nat) → (v : Value) → pretty.chars level v = v.pretty level
  | _, .null => rfl
  | _, .boolean _ => rfl
  | _, .number _ => rfl
  | _, .text _ => rfl
  | _, .array [] => rfl
  | level, .array (v :: vs) => by
    rw [chars, chars_pretty, itemChars_pretty, Value.pretty]
    rfl
  | _, .object [] => rfl
  | level, .object ((k, v) :: ms) => by
    rw [chars, chars_pretty, memberChars_pretty, Value.pretty]
    simp [pretty]

theorem itemChars_pretty : (level : Nat) → (vs : List Value) →
    pretty.itemChars level vs = Value.prettyItems level vs
  | _, [] => rfl
  | level, v :: vs => by
    rw [itemChars, chars_pretty, itemChars_pretty, Value.prettyItems]
    rfl

theorem memberChars_pretty : (level : Nat) → (ms : List (String × Value)) →
    pretty.memberChars level ms = Value.prettyMembers level ms
  | _, [] => rfl
  | level, (k, v) :: ms => by
    rw [memberChars, chars_pretty, memberChars_pretty, Value.prettyMembers]
    simp [pretty]

end

end Layout

/-! Bytes with blanks before them. -/

section Blank

variable {g s t r : List UInt8} {depth : Nat} {v : Value}

theorem isBlank_of_mem {cs : List Char} (h : ∀ c ∈ cs, c = ' ' ∨ c = '\n') :
    ∀ b ∈ cs.flatMap String.utf8EncodeChar, Byte.isBlank b = true := by
  intro b hb
  obtain ⟨c, hc, hb⟩ := List.mem_flatMap.mp hb
  rcases h c hc with rfl | rfl
  · obtain rfl := List.mem_singleton.mp (show b ∈ [0x20] from hb)
    rfl
  · obtain rfl := List.mem_singleton.mp (show b ∈ [0x0A] from hb)
    rfl

/-- A reader skips whatever a layout puts between the tokens of a text, for it is blank.
-/
theorem skipBlanks_append (hBlank : ∀ b ∈ g, Byte.isBlank b = true) (s : List UInt8) :
    Reader.skipBlanks (g ++ s) = Reader.skipBlanks s :=
  List.dropWhile_append_of_pos hBlank

/-- No number goes on with a blank. -/
theorem Number.Ends.append (hBlank : ∀ b ∈ g, Byte.isBlank b = true) (h : Number.Ends s) :
    Number.Ends (g ++ s) := by
  cases g with
  | nil => exact h
  | cons c g =>
      intro b hb
      obtain rfl : c = b := by simpa using hb
      have hBlank := hBlank c List.mem_cons_self
      simp only [Byte.isBlank, Bool.or_eq_true, beq_iff_eq] at hBlank
      rcases hBlank with ((rfl | rfl) | rfl) | rfl <;> decide

/-- A value that can be read does not begin with a closing bracket. -/
theorem skipBlanks_of_readDeep (h : Value.readDeep depth s = .ok (v, r)) :
    ∃ b u, Reader.skipBlanks s = b :: u ∧ b ≠ Byte.closeBracket := by
  obtain ⟨o, t, hOpening, _⟩ := Value.rest_of_readDeep h
  obtain ⟨b, u, hSkip, hBegins⟩ := Opening.begins_of_read hOpening
  refine ⟨b, u, hSkip, ?_⟩
  rintro rfl
  cases hBegins <;> contradiction

namespace Items

variable {vs : List Value} (hBlank : ∀ b ∈ g, Byte.isBlank b = true)
include hBlank

/-- Items may end with blanks before the bracket, whether or not there were any. -/
theorem last (first : Bool) (r : List UInt8) :
    Items (fun v s r => Value.readDeep depth s = .ok (v, r)) first []
      (g ++ Byte.closeBracket :: r) r := by
  refine .close (t := Byte.closeBracket :: r) ?_ rfl
  rw [Reader.nextItem, skipBlanks_append hBlank]
  rfl

variable (hRead : Value.readDeep depth s = .ok (v, t))
  (rest : Items (fun v s r => Value.readDeep depth s = .ok (v, r)) false vs t r)
include hRead rest

theorem cons_first :
    Items (fun v s r => Value.readDeep depth s = .ok (v, r)) true (v :: vs) (g ++ s) r := by
  obtain ⟨b, u, hSkip, hByte⟩ := skipBlanks_of_readDeep hRead
  rw [← Value.readDeep_skipBlanks, hSkip] at hRead
  refine .item ?_ hRead rest
  rw [Reader.nextItem, skipBlanks_append hBlank, hSkip]
  exact if_neg hByte

/-- Each later item follows a comma, and may have blanks before it. -/
theorem cons_next :
    Items (fun v s r => Value.readDeep depth s = .ok (v, r)) false (v :: vs)
      (Byte.comma :: g ++ s) r := by
  obtain ⟨b, u, hSkip, hByte⟩ := skipBlanks_of_readDeep hRead
  rw [← Value.readDeep_skipBlanks, hSkip] at hRead
  have hComma : Reader.skipBlanks (Byte.comma :: g ++ s) = Byte.comma :: (g ++ s) := rfl
  refine .item ?_ hRead rest
  rw [Reader.nextItem, hComma]
  simp only [skipBlanks_append hBlank, hSkip, if_neg hByte]
  rfl

end Items

/-- A key that is written is read after its opening quote. -/
theorem key_bytes (k : String) (u : List UInt8) :
    ∃ w, (Literal.chars k).flatMap String.utf8EncodeChar ++ u = Byte.quote :: w ∧
      Literal.read w = .ok (k, u) := by
  refine ⟨_, ?_, Literal.read_written k u⟩
  rw [Literal.flatMap_chars]
  simp

namespace Members

variable {ms : List (String × Value)} {h : List UInt8} (hBlank : ∀ b ∈ g, Byte.isBlank b = true)
include hBlank

theorem last (first : Bool) (r : List UInt8) :
    Members (fun v s r => Value.readDeep depth s = .ok (v, r)) first []
      (g ++ Byte.closeBrace :: r) r := by
  refine .close ?_
  rw [Reader.nextMember, skipBlanks_append hBlank]
  rfl

variable (hSpace : ∀ b ∈ h, Byte.isBlank b = true)
  (hRead : Value.readDeep depth s = .ok (v, t))
  (rest : Members (fun v s r => Value.readDeep depth s = .ok (v, r)) false ms t r)
include hSpace hRead rest

/-- The first member may have blanks before its key and before its value. -/
theorem cons_first (k : String) :
    Members (fun v s r => Value.readDeep depth s = .ok (v, r)) true ((k, v) :: ms)
      (g ++ ((Literal.chars k).flatMap String.utf8EncodeChar ++ Byte.colon :: (h ++ s))) r := by
  obtain ⟨w, hQuote, hKey⟩ := key_bytes k (Byte.colon :: (h ++ s))
  rw [← Value.readDeep_skipBlanks, ← skipBlanks_append hSpace, Value.readDeep_skipBlanks] at hRead
  rw [hQuote]
  refine .member ?_ hKey rfl hRead rest
  rw [Reader.nextMember, skipBlanks_append hBlank]
  rfl

theorem cons_next (k : String) :
    Members (fun v s r => Value.readDeep depth s = .ok (v, r)) false ((k, v) :: ms)
      (Byte.comma :: g ++
        ((Literal.chars k).flatMap String.utf8EncodeChar ++ Byte.colon :: (h ++ s))) r := by
  obtain ⟨w, hQuote, hKey⟩ := key_bytes k (Byte.colon :: (h ++ s))
  rw [← Value.readDeep_skipBlanks, ← skipBlanks_append hSpace, Value.readDeep_skipBlanks] at hRead
  rw [hQuote]
  refine .member ?_ hKey rfl hRead rest
  have hComma (u : List UInt8) : Reader.skipBlanks (Byte.comma :: u) = Byte.comma :: u := rfl
  rw [Reader.nextMember, List.cons_append, hComma]
  simp only [skipBlanks_append hBlank]
  rfl

end Members

end Blank

/-! Reading what is laid out. -/

namespace Value

variable {depth : Nat} {s t r : List UInt8} {o : Opening} {v : Value}

/-- A reader that gathers items at the front has them in reverse at the end, and refuses
none. -/
theorem foldlM_cons (vs before : List Value) :
    vs.foldlM (fun vs v => (.ok (v :: vs) : Except Mismatch _)) before =
      .ok (vs.reverse ++ before) := by
  induction vs generalizing before with
  | nil => rfl
  | cons v vs ih =>
      rw [List.foldlM_cons, ok_bind, ih]
      simp

theorem foldlM_cons_members (ms before : List (String × Value)) :
    ms.foldlM (fun ms (k, v) => (.ok ((k, v) :: ms) : Except Mismatch _)) before =
      .ok (ms.reverse ++ before) := by
  induction ms generalizing before with
  | nil => rfl
  | cons m ms ih =>
      rw [List.foldlM_cons, ok_bind, ih]
      simp

/-- A value is read once its kind is known and the rest of it follows. So a layout only
has to be looked at behind the byte with which a value opens. -/
theorem readDeep_of_rest (hOpening : Opening.read s = .ok (o, t)) (hRest : Rest depth o v t r) :
    readDeep depth s = .ok (v, r) := by
  cases hRest with
  | null => cases depth <;> exact Reader.byKind_of_opening _ hOpening
  | boolean => cases depth <;> exact Reader.byKind_of_opening _ hOpening
  | number hRead =>
      cases depth <;>
        exact (Reader.byKind_of_opening _ hOpening).trans (bind_eq_ok_iff.mpr ⟨_, hRead, rfl⟩)
  | text hRead =>
      cases depth <;>
        exact (Reader.byKind_of_opening _ hOpening).trans (bind_eq_ok_iff.mpr ⟨_, hRead, rfl⟩)
  | @array depth vs _ _ hItems =>
      have hClock := hItems.length_lt fun v s r => length_lt_of_readDeep
      refine (Reader.byKind_of_opening _ hOpening).trans (bind_eq_ok_iff.mpr
        ⟨_, hItems.run ?_ (by omega) (foldlM_cons vs []), by simp; rfl⟩)
      intro v before after u w hHere hStep
      cases hStep
      exact bind_eq_ok_iff.mpr ⟨_, hHere, rfl⟩
  | @object depth ms _ _ hMembers =>
      have hInside := hMembers.length_lt fun v s r => length_lt_of_readDeep
      have hClock : ms.length < t.length := by omega
      refine (Reader.byKind_of_opening _ hOpening).trans
        (bind_eq_ok_iff.mpr ⟨(ms.reverse ++ [], r), ?_, by simp; rfl⟩)
      refine hMembers.run (fun _ _ _ h => h)
        (fun k v before after t u w hColon hHere
          (hStep : Except.ok ((k, v) :: before) = Except.ok after) => ?_)
        hClock (foldlM_cons_members ms [])
      cases hStep
      exact bind_eq_ok_iff.mpr ⟨_, hColon, bind_eq_ok_iff.mpr ⟨_, hHere, rfl⟩⟩

end Value

namespace Layout

variable {l : Layout} {depth level : Nat}

/-- Wherever the value `v` is laid out, it is read as the value `w`. -/
def Reads (l : Layout) (depth : Nat) (v w : Value) : Prop :=
  ∀ level r, Number.Ends r →
    Value.readDeep depth ((l.chars level v).flatMap String.utf8EncodeChar ++ r) = .ok (w, r)

theorem reads_null : l.Reads depth .null .null :=
  fun _ _ _ => Value.readDeep_of_rest rfl .null

theorem reads_text (s : String) : l.Reads depth (.text s) (.text s) := by
  intro level r _
  obtain ⟨w, hQuote, hText⟩ := key_bytes s r
  rw [chars, hQuote]
  exact Value.readDeep_of_rest rfl (.text hText)

/-- A whole number of a machine word is read as itself, in every layout. It has no
fraction and no exponent, so it is not taken for a time. -/
theorem reads_integer {n : Nat} (h : n ≤ Number.gatherLimit) :
    l.Reads depth (.number (.integer n)) (.number (.integer n)) := by
  intro level r hr
  have hValid := Number.wholeSpelling_valid n
  rw [chars, Number.flatMap_chars_integer]
  refine Value.readDeep_of_rest (Number.Spelling.opening_bytes hValid r) (.number ?_)
  rw [Number.Spelling.read_bytes hValid hr, Number.number_wholeSpelling h]
  rfl

/-- How a time is read depends on its shortest digits and its sign, and not on where it
is written. -/
theorem reads_decimal {x y : Seconds} (hFinite : x.isFinite = true)
    (h : x.shortest.spelling.number x.isNegative = .ok (.decimal y)) :
    l.Reads depth (.number (.decimal x)) (.number (.decimal y)) := by
  intro level r hr
  rw [chars]
  refine Value.readDeep_of_rest (Seconds.opening_chars hFinite r) (.number ?_)
  rw [Seconds.read_chars hFinite hr, h]
  rfl

/-- The bytes of the blanks before an item. -/
def lineBytes (l : Layout) (level : Nat) : List UInt8 :=
  (l.line level).flatMap String.utf8EncodeChar

def spaceBytes (l : Layout) : List UInt8 :=
  l.space.flatMap String.utf8EncodeChar

theorem isBlank_lineBytes (l : Layout) (level : Nat) : ∀ b ∈ l.lineBytes level, Byte.isBlank b = true :=
  isBlank_of_mem (l.blank_line level)

theorem isBlank_spaceBytes (l : Layout) : ∀ b ∈ l.spaceBytes, Byte.isBlank b = true :=
  isBlank_of_mem l.blank_space

/-- Nothing that follows an item belongs to a number. -/
theorem ends_itemChars (l : Layout) (vs : List Value) (level : Nat) (r : List UInt8) :
    Number.Ends ((l.itemChars level vs).flatMap String.utf8EncodeChar ++ r) := by
  cases vs with
  | nil =>
      rw [itemChars, List.flatMap_append, List.append_assoc]
      refine Number.Ends.append (l.isBlank_lineBytes level) ?_
      intro b hb
      obtain rfl : Byte.closeBracket = b := Option.some.inj hb
      decide
  | cons v vs =>
      intro b hb
      rw [itemChars] at hb
      obtain rfl : Byte.comma = b := Option.some.inj hb
      decide

/-- Behind the number of a member comes a byte that cannot belong to the number. It is a
comma, a blank or a bracket, whatever the layout is. -/
theorem ends_memberChars (l : Layout) (ms : List (String × Value)) (level : Nat) (r : List UInt8) :
    Number.Ends ((l.memberChars level ms).flatMap String.utf8EncodeChar ++ r) := by
  cases ms with
  | nil =>
      rw [memberChars, List.flatMap_append, List.append_assoc]
      refine Number.Ends.append (l.isBlank_lineBytes level) ?_
      intro b hb
      obtain rfl : Byte.closeBrace = b := Option.some.inj hb
      decide
  | cons m ms =>
      intro b hb
      rw [memberChars] at hb
      obtain rfl : Byte.comma = b := Option.some.inj hb
      decide

/-- The items after the first are read one by one. -/
theorem items_itemChars {vs ws : List Value} (h : List.Forall₂ (l.Reads depth) vs ws)
    (level : Nat) (r : List UInt8) :
    Items (fun v s r => Value.readDeep depth s = .ok (v, r)) false ws
      ((l.itemChars level vs).flatMap String.utf8EncodeChar ++ r) r := by
  induction h with
  | nil =>
      rw [itemChars, List.flatMap_append, List.append_assoc]
      exact Items.last (l.isBlank_lineBytes level) false r
  | @cons v w vs ws hFirst _ ih =>
      have hEnds := l.ends_itemChars vs level r
      have hItems := Items.cons_next (l.isBlank_lineBytes (level + 1)) (hFirst (level + 1) _ hEnds) ih
      have hComma : String.utf8EncodeChar ',' = [Byte.comma] := by decide
      rw [itemChars]
      simpa [lineBytes, hComma] using hItems

/-- An array is read as its items are. -/
theorem reads_array {vs ws : List Value} (h : List.Forall₂ (l.Reads depth) vs ws) :
    l.Reads (depth + 1) (.array vs) (.array ws) := by
  intro level r _
  cases h with
  | nil =>
      have hNone : ∀ b ∈ ([] : List UInt8), Byte.isBlank b = true := by simp
      exact Value.readDeep_of_rest rfl (.array (Items.last hNone true r))
  | @cons v w vs ws hFirst hRest =>
      have hEnds := l.ends_itemChars vs level r
      have hItems := Items.cons_first (l.isBlank_lineBytes (level + 1))
        (hFirst (level + 1) _ hEnds) (items_itemChars hRest level r)
      have hOpen : String.utf8EncodeChar '[' = [Byte.openBracket] := by decide
      rw [chars, List.cons_append, List.cons_append, List.flatMap_cons, hOpen]
      refine Value.readDeep_of_rest (o := .array) rfl (.array ?_)
      simpa [lineBytes] using hItems

/-- A member is read under its key. -/
def ReadsMember (l : Layout) (depth : Nat) (m n : String × Value) : Prop :=
  n.1 = m.1 ∧ l.Reads depth m.2 n.2

theorem keys_eq {ms ns : List (String × Value)} (h : List.Forall₂ (l.ReadsMember depth) ms ns) :
    ns.map Prod.fst = ms.map Prod.fst := by
  induction h with
  | nil => rfl
  | cons hPair _ ih => simp [hPair.1, ih]

/-- The members after the first are read one after the other, each as the member that it
is read as by itself. -/
theorem members_memberChars {ms ns : List (String × Value)}
    (h : List.Forall₂ (l.ReadsMember depth) ms ns) (level : Nat) (r : List UInt8) :
    Members (fun v s r => Value.readDeep depth s = .ok (v, r)) false ns
      ((l.memberChars level ms).flatMap String.utf8EncodeChar ++ r) r := by
  induction h with
  | nil =>
      rw [memberChars, List.flatMap_append, List.append_assoc]
      exact Members.last (l.isBlank_lineBytes level) false r
  | @cons m n ms ns hFirst _ ih =>
      obtain ⟨_, v⟩ := m
      obtain ⟨k, w⟩ := n
      obtain ⟨rfl, hFirst⟩ := hFirst
      have hEnds := l.ends_memberChars ms level r
      have hMembers := Members.cons_next (l.isBlank_lineBytes (level + 1)) l.isBlank_spaceBytes
        (hFirst (level + 1) _ hEnds) ih k
      have hComma : String.utf8EncodeChar ',' = [Byte.comma] := by decide
      have hColon : String.utf8EncodeChar ':' = [Byte.colon] := by decide
      rw [memberChars]
      simpa [lineBytes, spaceBytes, hComma, hColon] using hMembers

/-- An object is read as its members are, each under its own key. -/
theorem reads_object {ms ns : List (String × Value)}
    (h : List.Forall₂ (l.ReadsMember depth) ms ns) :
    l.Reads (depth + 1) (.object ms) (.object ns) := by
  intro level r _
  cases h with
  | nil =>
      have hNone : ∀ b ∈ ([] : List UInt8), Byte.isBlank b = true := by simp
      exact Value.readDeep_of_rest rfl (.object (Members.last hNone true r))
  | @cons m n ms ns hFirst hRest =>
      obtain ⟨_, v⟩ := m
      obtain ⟨k, w⟩ := n
      obtain ⟨rfl, hFirst⟩ := hFirst
      have hEnds := l.ends_memberChars ms level r
      have hMembers := Members.cons_first (l.isBlank_lineBytes (level + 1)) l.isBlank_spaceBytes
        (hFirst (level + 1) _ hEnds) (members_memberChars hRest level r) k
      have hColon : String.utf8EncodeChar ':' = [Byte.colon] := by decide
      have hOpen : String.utf8EncodeChar '\x7b' = [Byte.openBrace] := by decide
      simp only [chars, List.cons_append, List.flatMap_cons, hOpen]
      refine Value.readDeep_of_rest (o := .object) rfl (.object ?_)
      simpa [lineBytes, spaceBytes, hColon] using hMembers

end Layout

end RoughCut.Json
