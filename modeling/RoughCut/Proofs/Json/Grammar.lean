import Mathlib.Data.List.DropRight
import RoughCut.Json.Literal

/-!
The outline of JSON texts. `Opening` is what tells the kind of a value, and
`byKind_eq` says that every reader by kind looks at nothing else before it
goes its own way. `Items` and `Members` are the grammar of arrays and of
objects; their readers are runs through it, each with a step of its own for an
item or a member.
-/

namespace RoughCut.Json

/-- One reading after another succeeds where the first does and the second does with
what the first has found. -/
theorem bind_eq_ok_iff {ε α β : Type} {x : Except ε α} {f : α → Except ε β} {b : β} :
    x >>= f = .ok b ↔ ∃ a, x = .ok a ∧ f a = .ok b := by
  cases x <;> simp [bind, Except.bind]

/-- What tells the kind of a value. -/
inductive Opening where
  | null
  | boolean (b : Bool)
  | number (negative : Bool)
  | text
  | array
  | object

/-- Reads what tells the kind, to where the reader of that kind begins. -/
def Opening.read : Reader Opening :=
  Reader.byKind {
    null := .ok .null
    boolean := fun b => .ok (.boolean b)
    number := fun negative s => .ok (.number negative, s)
    text := fun s => .ok (.text, s)
    array := fun s => .ok (.array, s)
    object := fun s => .ok (.object, s) }

/-- Goes on with the reader of the kind that has been found. -/
def Reader.Kinds.after {α : Type} (k : Kinds α) : Opening → Reader α
  | .null => fun s => k.null.map fun a => (a, s)
  | .boolean b => fun s => (k.boolean b).map fun a => (a, s)
  | .number negative => k.number negative
  | .text => k.text
  | .array => k.array
  | .object => k.object

namespace Reader

variable {s t r : List UInt8} {first : Bool}

/-- To read by kinds is to read how something opens and to go on with that. -/
theorem byKind_eq {α : Type} (k : Kinds α) (s : List UInt8) :
    byKind k s = Opening.read s >>= fun (o, t) => k.after o t := by
  unfold Opening.read byKind
  cases skipBlanks s with
  | nil => rfl
  | cons b t =>
      simp only
      split_ifs
      · rfl
      · rfl
      · rfl
      · rfl
      · rfl
      · cases word nullTail t <;> rfl
      · cases word trueTail t <;> rfl
      · cases word falseTail t <;> rfl
      · rfl

/-- Once it is known how something opens, only the reader for that kind matters. So
proofs about readers by kinds are made one kind at a time. -/
theorem byKind_of_opening {α : Type} (k : Kinds α) {o : Opening}
    (h : Opening.read s = .ok (o, t)) : byKind k s = k.after o t := by
  rw [byKind_eq, h]
  rfl

/-- What was read by kinds has opened in some way, and the reader for that way has read
it. -/
theorem byKind_eq_ok {α : Type} {k : Kinds α} {a : α} (h : byKind k s = .ok (a, r)) :
    ∃ o t, Opening.read s = .ok (o, t) ∧ k.after o t = .ok (a, r) := by
  rw [byKind_eq] at h
  obtain ⟨⟨o, t⟩, hOpening, hAfter⟩ := bind_eq_ok_iff.mp h
  exact ⟨o, t, hOpening, hAfter⟩

theorem skipBlanks_skipBlanks (s : List UInt8) : skipBlanks (skipBlanks s) = skipBlanks s :=
  List.dropWhile_idempotent _ _

/-- Blanks before something that is read by kinds make no difference. -/
theorem byKind_skipBlanks {α : Type} (k : Kinds α) (s : List UInt8) :
    byKind k (skipBlanks s) = byKind k s := by
  rw [byKind, skipBlanks_skipBlanks, ← byKind]

theorem length_skipBlanks_le (s : List UInt8) : (skipBlanks s).length ≤ s.length :=
  List.length_dropWhile_le _ _

/-- Another item follows where the next byte is no closing bracket, and then
what leads to it has been read. -/
theorem nextItem_cases {more : Bool} (h : nextItem first s = .ok (more, t)) :
    (more = false ∧ ∃ u, skipBlanks s = Byte.closeBracket :: u ∧ t = Byte.closeBracket :: u) ∨
      (more = true ∧ (∃ b u, skipBlanks s = b :: u ∧ b ≠ Byte.closeBracket) ∧
        t.length + (if first then 0 else 1) ≤ s.length) := by
  have hLength := length_skipBlanks_le s
  unfold nextItem at h
  split at h
  · cases h
  · next b u hSkip =>
    rw [hSkip] at hLength
    by_cases hClose : b = Byte.closeBracket
    · rw [if_pos hClose] at h
      cases h
      exact Or.inl ⟨rfl, u, by rw [hSkip, hClose], by rw [hClose]⟩
    · rw [if_neg hClose] at h
      refine Or.inr ?_
      cases first with
      | true =>
          cases h
          exact ⟨rfl, ⟨b, u, hSkip, hClose⟩, by simpa using hLength⟩
      | false =>
          simp only [Bool.false_eq_true, if_false] at h
          split at h
          · have hInner := length_skipBlanks_le u
            split at h
            · cases h
            · next c v hComma =>
              rw [hComma] at hInner
              split at h
              · cases h
              · cases h
                refine ⟨rfl, ⟨b, u, hSkip, hClose⟩, ?_⟩
                simp only [List.length_cons, Bool.false_eq_true, if_false] at hLength hInner ⊢
                omega
          · cases h

/-- At the end of an array it makes no difference whether an item has been read. -/
theorem nextItem_of_end (h : nextItem first s = .ok (false, t)) (again : Bool) :
    nextItem again t = .ok (false, t) := by
  rcases nextItem_cases h with ⟨_, u, _, rfl⟩ | ⟨hMore, _⟩
  · rfl
  · cases hMore

/-- A closing bracket can be read as soon as no item follows. -/
theorem closeItems_of_end (h : nextItem first s = .ok (false, t)) :
    closeItems s = closeItems t := by
  rcases nextItem_cases h with ⟨_, u, hSkip, rfl⟩ | ⟨hMore, _⟩
  · rw [closeItems, hSkip]
    rfl
  · cases hMore

/-- Where another item follows an array cannot be closed. -/
theorem closeItems_of_item (h : nextItem first s = .ok (true, t)) :
    closeItems s = .error .malformed := by
  rcases nextItem_cases h with ⟨hEnd, _⟩ | ⟨_, ⟨b, u, hSkip, hClose⟩, _⟩
  · cases hEnd
  · rw [closeItems, hSkip]
    exact if_neg hClose

/-- To read a byte uses up one at least. All that follows about lengths is there so that
clocks do not run out. -/
theorem length_lt_of_byte {c : UInt8}
    (h : (match skipBlanks s with
      | [] => .error .ended
      | b :: r => if b = c then .ok ((), r) else .error .malformed) =
        (.ok ((), r) : Except Fault (Unit × List UInt8))) : r.length < s.length := by
  have hLength := length_skipBlanks_le s
  split at h
  · cases h
  · next b u hSkip =>
    rw [hSkip] at hLength
    split at h
    · cases h
      exact hLength
    · cases h

theorem length_lt_of_closeItems (h : closeItems s = .ok ((), r)) : r.length < s.length :=
  length_lt_of_byte h

theorem length_lt_of_colon (h : colon s = .ok ((), r)) : r.length < s.length :=
  length_lt_of_byte h

theorem length_lt_of_nextMember {more : Bool} (h : nextMember first s = .ok (more, t)) :
    t.length < s.length := by
  have hLength := length_skipBlanks_le s
  unfold nextMember at h
  split at h
  · cases h
  · next b u hSkip =>
    rw [hSkip] at hLength
    split at h
    · cases h
      exact hLength
    · split at h
      · split at h
        · cases h
          exact hLength
        · cases h
      · split at h
        · have hInner := length_skipBlanks_le u
          split at h
          · cases h
          · next c v hComma =>
            rw [hComma] at hInner
            split at h
            · cases h
              simp only [List.length_cons] at hLength hInner
              omega
            · cases h
        · cases h

theorem length_of_word {w : List UInt8} (h : word w s = .ok ((), r)) :
    r.length + w.length = s.length := by
  induction w generalizing s with
  | nil =>
      cases h
      rfl
  | cons c w ih =>
      cases s with
      | nil => cases h
      | cons b s =>
          unfold word at h
          split at h
          · have hRest := ih h
            simp only [List.length_cons]
            omega
          · cases h

end Reader

/-- How a value of each kind begins: `b` is its first byte, the bytes `u` follow,
and its reader goes on from `t`. -/
inductive Opening.Begins (b : UInt8) (u : List UInt8) : Opening → List UInt8 → Prop where
  | null {t : List UInt8} (hByte : b = 0x6E)
      (hWord : Reader.word Reader.nullTail u = .ok ((), t)) : Begins b u .null t
  | true {t : List UInt8} (hByte : b = 0x74)
      (hWord : Reader.word Reader.trueTail u = .ok ((), t)) : Begins b u (.boolean true) t
  | false {t : List UInt8} (hByte : b = 0x66)
      (hWord : Reader.word Reader.falseTail u = .ok ((), t)) : Begins b u (.boolean false) t
  | minus (hByte : b = Byte.minus) : Begins b u (.number true) u
  | digit (hByte : Byte.isDigit b = true) : Begins b u (.number false) (b :: u)
  | text (hByte : b = Byte.quote) : Begins b u .text u
  | array (hByte : b = Byte.openBracket) : Begins b u .array u
  | object (hByte : b = Byte.openBrace) : Begins b u .object u

/-- How something opens is told by its first byte that is not blank. -/
theorem Opening.begins_of_read {o : Opening} {s t : List UInt8} (h : read s = .ok (o, t)) :
    ∃ b u, Reader.skipBlanks s = b :: u ∧ Begins b u o t := by
  unfold read Reader.byKind at h
  split at h
  · cases h
  · next b u hSkip =>
    refine ⟨b, u, hSkip, ?_⟩
    split_ifs at h with hText hArray hObject hMinus hDigit hNull hTrue hFalse
    · cases h
      exact .text hText
    · cases h
      exact .array hArray
    · cases h
      exact .object hObject
    · cases h
      exact .minus hMinus
    · cases h
      exact .digit hDigit
    · obtain ⟨⟨_, r⟩, hWord, hSame⟩ := bind_eq_ok_iff.mp h
      cases hSame
      exact .null hNull hWord
    · obtain ⟨⟨_, r⟩, hWord, hSame⟩ := bind_eq_ok_iff.mp h
      cases hSame
      exact .true hTrue hWord
    · obtain ⟨⟨_, r⟩, hWord, hSame⟩ := bind_eq_ok_iff.mp h
      cases hSame
      exact .false hFalse hWord

/-- Nothing else begins as null does. -/
theorem Opening.Begins.null_iff {b : UInt8} {u t : List UInt8} {o : Opening}
    (h : Begins b u o t) : b = 0x6E ↔ o = .null := by
  cases h with
  | null hByte hWord => exact iff_of_true hByte rfl
  | digit hByte =>
      refine iff_of_false ?_ (by simp)
      rintro rfl
      exact absurd hByte (by decide)
  | true hByte hWord => subst hByte; exact iff_of_false (by decide) (by simp)
  | false hByte hWord => subst hByte; exact iff_of_false (by decide) (by simp)
  | minus hByte => subst hByte; exact iff_of_false (by decide) (by simp)
  | text hByte => subst hByte; exact iff_of_false (by decide) (by simp)
  | array hByte => subst hByte; exact iff_of_false (by decide) (by simp)
  | object hByte => subst hByte; exact iff_of_false (by decide) (by simp)

/-- No byte has been read only before a number that has no minus. -/
theorem Opening.length_of_read {o : Opening} {s t : List UInt8} (h : read s = .ok (o, t)) :
    t.length < s.length ∨ (o = .number false ∧ t.length ≤ s.length) := by
  obtain ⟨b, u, hSkip, hBegins⟩ := begins_of_read h
  have hLength := Reader.length_skipBlanks_le s
  rw [hSkip, List.length_cons] at hLength
  cases hBegins with
  | null hByte hWord =>
      have hWord := Reader.length_of_word hWord
      exact Or.inl (by omega)
  | true hByte hWord =>
      have hWord := Reader.length_of_word hWord
      exact Or.inl (by omega)
  | false hByte hWord =>
      have hWord := Reader.length_of_word hWord
      exact Or.inl (by omega)
  | digit hByte => exact Or.inr ⟨rfl, hLength⟩
  | minus hByte => exact Or.inl hLength
  | text hByte => exact Or.inl hLength
  | array hByte => exact Or.inl hLength
  | object hByte => exact Or.inl hLength

namespace Literal

theorem length_lt_of_content {place : Place} {acc bytes s r : List UInt8}
    (h : content place acc s = .ok (bytes, r)) : r.length < s.length := by
  induction s generalizing place acc with
  | nil => cases place <;> cases h
  | cons b s ih =>
      have hNext {place : Place} {acc : List UInt8} (h : content place acc s = .ok (bytes, r)) :
          r.length < (b :: s).length := Nat.lt_succ_of_lt (ih h)
      cases place with
      | plain =>
          unfold content at h
          split_ifs at h
          · cases h
            exact Nat.lt_succ_self _
          · exact hNext h
          · exact hNext h
      | escape =>
          unfold content at h
          split_ifs at h
          · exact hNext h
          · split at h
            · exact hNext h
            · cases h
      | unit missing value half =>
          unfold content at h
          split at h
          · cases h
          · split at h
            · obtain ⟨⟨place, unit⟩, _, h⟩ := bind_eq_ok_iff.mp h
              exact hNext h
            · exact hNext h
      | pair half =>
          unfold content at h
          split_ifs at h
          exact hNext h
      | pairEscape half =>
          unfold content at h
          split_ifs at h
          exact hNext h

theorem length_lt_of_read {text : String} {s r : List UInt8} (h : read s = .ok (text, r)) :
    r.length < s.length := by
  obtain ⟨⟨bytes, t⟩, hContent, h⟩ := bind_eq_ok_iff.mp h
  simp only at h
  split at h
  · cases h
    exact length_lt_of_content hContent
  · cases h

end Literal

/-! Arrays and objects, told by what their items and values are. -/

/-- The bytes `s` are the items of an array up to and with the closing bracket,
and `r` follows. -/
inductive Items {α : Type} (Item : α → List UInt8 → List UInt8 → Prop) :
    Bool → List α → List UInt8 → List UInt8 → Prop where
  | close {first : Bool} {s t r : List UInt8} (hNext : Reader.nextItem first s = .ok (false, t))
      (hClose : Reader.closeItems t = .ok ((), r)) : Items Item first [] s r
  | item {first : Bool} {a : α} {as : List α} {s t u r : List UInt8}
      (hNext : Reader.nextItem first s = .ok (true, t)) (hItem : Item a t u)
      (rest : Items Item false as u r) : Items Item first (a :: as) s r

/-- The bytes `s` are the members of an object up to and with the closing brace,
and `r` follows. -/
inductive Members {α : Type} (Member : α → List UInt8 → List UInt8 → Prop) :
    Bool → List (String × α) → List UInt8 → List UInt8 → Prop where
  | close {first : Bool} {s r : List UInt8} (hNext : Reader.nextMember first s = .ok (false, r)) :
      Members Member first [] s r
  | member {first : Bool} {k : String} {a : α} {ms : List (String × α)}
      {s t u v w r : List UInt8} (hNext : Reader.nextMember first s = .ok (true, t))
      (hKey : Literal.read t = .ok (k, u)) (hColon : Reader.colon u = .ok ((), v))
      (hValue : Member a v w) (rest : Members Member false ms w r) :
      Members Member first ((k, a) :: ms) s r

namespace Items

variable {α : Type} {Item : α → List UInt8 → List UInt8 → Prop} {first : Bool} {as : List α}
  {s r : List UInt8}

/-- Every item takes a byte, and so does the bracket. -/
theorem length_lt (hItem : ∀ a s r, Item a s r → r.length < s.length)
    (h : Items Item first as s r) : as.length + r.length < s.length := by
  induction h with
  | close hNext hClose =>
      rw [← Reader.closeItems_of_end hNext] at hClose
      simpa using Reader.length_lt_of_closeItems hClose
  | @item first a as s t u r hNext hHere _ ih =>
      have hHere := hItem a t u hHere
      rcases Reader.nextItem_cases hNext with ⟨hEnd, _⟩ | ⟨_, _, hLength⟩
      · cases hEnd
      · simp only [List.length_cons]
        omega

/-- Items may be read in another way, so long as that way agrees on the bytes that are
there. -/
theorem imp {Other : α → List UInt8 → List UInt8 → Prop}
    (hItem : ∀ a s r, Item a s r → r.length < s.length) (h : Items Item first as s r)
    (hImp : ∀ a u w, u.length ≤ s.length → Item a u w → Other a u w) :
    Items Other first as s r := by
  induction h with
  | close hNext hClose => exact .close hNext hClose
  | @item first a as s t u r hNext hHere _ ih =>
      have hShorter := hItem a t u hHere
      rcases Reader.nextItem_cases hNext with ⟨hEnd, _⟩ | ⟨_, _, hLength⟩
      · cases hEnd
      · exact .item hNext (hImp a t u (by omega) hHere)
          (ih fun a v w hv hOther => hImp a v w (by omega) hOther)

/-- A reader that gathers items reads them in the grammar. -/
theorem of_items {read : Reader α} {clock : List UInt8} {acc found : List α}
    (h : Reader.items (fun as s => do
      let (a, s) ← read s
      return (a :: as, s)) clock first acc s = .ok (found, r)) :
    ∃ as, found = as.reverse ++ acc ∧ Items (fun a s r => read s = .ok (a, r)) first as s r := by
  induction clock generalizing first acc s with
  | nil => cases h
  | cons tick clock ih =>
      unfold Reader.items at h
      obtain ⟨⟨more, t⟩, hNext, h⟩ := bind_eq_ok_iff.mp h
      cases more with
      | true =>
          obtain ⟨⟨_, u⟩, hItem, h⟩ := bind_eq_ok_iff.mp h
          obtain ⟨⟨a, _⟩, hRead, hSame⟩ := bind_eq_ok_iff.mp hItem
          cases hSame
          obtain ⟨as, rfl, hRest⟩ := ih h
          exact ⟨a :: as, by simp, .item hNext hRead hRest⟩
      | false =>
          obtain ⟨⟨_, u⟩, hClose, hSame⟩ := bind_eq_ok_iff.mp h
          cases hSame
          exact ⟨[], rfl, .close hNext hClose⟩

section Run

variable {σ : Type} {item : σ → Reader σ} {step : σ → α → Except Mismatch σ}
  {clock : List UInt8} {acc acc' : σ}

/-- A reader that takes a step for each item goes through all of them. What it gathers
is what the steps come to in the order of the items. -/
theorem run (h : Items Item first as s r)
    (hItem : ∀ a acc acc' u w, Item a u w → step acc a = .ok acc' → item acc u = .ok (acc', w))
    (hClock : as.length < clock.length) (hSteps : as.foldlM step acc = .ok acc') :
    Reader.items item clock first acc s = .ok (acc', r) := by
  induction h generalizing clock acc with
  | close hNext hClose =>
      cases hSteps
      cases clock with
      | nil => cases hClock
      | cons tick clock =>
          rw [Reader.items, hNext]
          simp only [bind, Except.bind, Bool.false_eq_true, if_false, hClose]
          rfl
  | item hNext hHere _ ih =>
      obtain ⟨acc₁, hStep, hSteps⟩ := bind_eq_ok_iff.mp hSteps
      cases clock with
      | nil => cases hClock
      | cons tick clock =>
          rw [Reader.items, hNext]
          simp only [bind, Except.bind, if_true, hItem _ _ _ _ _ hHere hStep]
          exact ih (Nat.lt_of_succ_lt_succ hClock) hSteps

/-- If it succeeds, each step does, and it ends where the items do. -/
theorem of_run (h : Items Item first as s r) {r' : List UInt8}
    (hRun : Reader.items item clock first acc s = .ok (acc', r'))
    (hItem : ∀ a acc acc' u w w', Item a u w → item acc u = .ok (acc', w') →
      w' = w ∧ step acc a = .ok acc') :
    r' = r ∧ as.foldlM step acc = .ok acc' := by
  induction h generalizing clock acc with
  | close hNext hClose =>
      cases clock with
      | nil => cases hRun
      | cons tick clock =>
          rw [Reader.items, hNext] at hRun
          simp only [bind, Except.bind, Bool.false_eq_true, if_false, hClose] at hRun
          cases hRun
          exact ⟨rfl, rfl⟩
  | @item first a as s t u r hNext hHere _ ih =>
      cases clock with
      | nil => cases hRun
      | cons tick clock =>
          rw [Reader.items, hNext] at hRun
          simp only [bind, Except.bind, if_true] at hRun
          obtain ⟨⟨acc₁, u'⟩, hRead, hRun⟩ := bind_eq_ok_iff.mp hRun
          obtain ⟨rfl, hStep⟩ := hItem _ _ _ _ _ _ hHere hRead
          obtain ⟨hEnd, hSteps⟩ := ih hRun
          exact ⟨hEnd, bind_eq_ok_iff.mpr ⟨acc₁, hStep, hSteps⟩⟩

end Run

end Items

namespace Members

variable {α : Type} {Member : α → List UInt8 → List UInt8 → Prop} {first : Bool}
  {ms : List (String × α)} {s r : List UInt8}

/-- What a reader gathers of an object is told by the grammar of members, with the last
member in front. -/
theorem of_members {read : Reader α} {clock : List UInt8} {acc found : List (String × α)}
    (h : Reader.members Literal.read (fun ms k s => do
      let ((), s) ← Reader.colon s
      let (a, s) ← read s
      return ((k, a) :: ms, s)) clock first acc s = .ok (found, r)) :
    ∃ ms, found = ms.reverse ++ acc ∧
      Members (fun a s r => read s = .ok (a, r)) first ms s r := by
  induction clock generalizing first acc s with
  | nil => cases h
  | cons tick clock ih =>
      unfold Reader.members at h
      obtain ⟨⟨more, t⟩, hNext, h⟩ := bind_eq_ok_iff.mp h
      cases more with
      | true =>
          obtain ⟨⟨k, u⟩, hKey, h⟩ := bind_eq_ok_iff.mp h
          obtain ⟨⟨_, w⟩, hMember, h⟩ := bind_eq_ok_iff.mp h
          obtain ⟨⟨_, v⟩, hColon, hMember⟩ := bind_eq_ok_iff.mp hMember
          obtain ⟨⟨a, _⟩, hRead, hSame⟩ := bind_eq_ok_iff.mp hMember
          cases hSame
          obtain ⟨ms, rfl, hRest⟩ := ih h
          exact ⟨(k, a) :: ms, by simp, .member hNext hKey hColon hRead hRest⟩
      | false =>
          cases h
          exact ⟨[], rfl, .close hNext⟩

/-- There are fewer members than bytes that they use up, so a clock of as many ticks as
bytes is long enough. -/
theorem length_lt (hMember : ∀ a s r, Member a s r → r.length < s.length)
    (h : Members Member first ms s r) : ms.length + r.length < s.length := by
  induction h with
  | close hNext => simpa using Reader.length_lt_of_nextMember hNext
  | member hNext hKey hColon hHere _ ih =>
      have hNext := Reader.length_lt_of_nextMember hNext
      have hKey := Literal.length_lt_of_read hKey
      have hColon := Reader.length_lt_of_colon hColon
      have hHere := hMember _ _ _ hHere
      simp only [List.length_cons]
      omega

/-- Members may be read in another way, so long as that way agrees on the bytes that are
there. -/
theorem imp {Other : α → List UInt8 → List UInt8 → Prop}
    (hMember : ∀ a s r, Member a s r → r.length < s.length) (h : Members Member first ms s r)
    (hImp : ∀ a u w, u.length < s.length → Member a u w → Other a u w) :
    Members Other first ms s r := by
  induction h with
  | close hNext => exact .close hNext
  | member hNext hKey hColon hHere _ ih =>
      have hNext' := Reader.length_lt_of_nextMember hNext
      have hKey' := Literal.length_lt_of_read hKey
      have hColon' := Reader.length_lt_of_colon hColon
      have hShorter := hMember _ _ _ hHere
      exact .member hNext hKey hColon (hImp _ _ _ (by omega) hHere)
        (ih fun a u w hu hOther => hImp a u w (by omega) hOther)

section Run

variable {κ σ : Type} {key : Reader κ} {label : String → κ} {member : σ → κ → Reader σ}
  {step : σ → String → α → Except Mismatch σ} {clock : List UInt8} {acc acc' : σ}

theorem run (h : Members Member first ms s r)
    (hKey : ∀ t k u, Literal.read t = .ok (k, u) → key t = .ok (label k, u))
    (hMember : ∀ k a acc acc' t u w, Reader.colon t = .ok ((), u) → Member a u w →
      step acc k a = .ok acc' → member acc (label k) t = .ok (acc', w))
    (hClock : ms.length < clock.length)
    (hSteps : ms.foldlM (fun acc (k, a) => step acc k a) acc = .ok acc') :
    Reader.members key member clock first acc s = .ok (acc', r) := by
  induction h generalizing clock acc with
  | close hNext =>
      cases hSteps
      cases clock with
      | nil => cases hClock
      | cons tick clock =>
          rw [Reader.members, hNext]
          rfl
  | member hNext hName hColon hHere _ ih =>
      obtain ⟨acc₁, hStep, hSteps⟩ := bind_eq_ok_iff.mp hSteps
      cases clock with
      | nil => cases hClock
      | cons tick clock =>
          rw [Reader.members, hNext]
          simp only [bind, Except.bind, if_true, hKey _ _ _ hName,
            hMember _ _ _ _ _ _ _ hColon hHere hStep]
          exact ih (Nat.lt_of_succ_lt_succ hClock) hSteps

end Run

theorem of_run {σ : Type} {member : σ → String → Reader σ}
    {step : σ → String → α → Except Mismatch σ} {clock : List UInt8} {acc acc' : σ}
    (h : Members Member first ms s r) {r' : List UInt8}
    (hRun : Reader.members Literal.read member clock first acc s = .ok (acc', r'))
    (hMember : ∀ k a acc acc' t u w w', Reader.colon t = .ok ((), u) → Member a u w →
      member acc k t = .ok (acc', w') → w' = w ∧ step acc k a = .ok acc') :
    r' = r ∧ ms.foldlM (fun acc (k, a) => step acc k a) acc = .ok acc' := by
  induction h generalizing clock acc with
  | close hNext =>
      cases clock with
      | nil => cases hRun
      | cons tick clock =>
          rw [Reader.members, hNext] at hRun
          cases hRun
          exact ⟨rfl, rfl⟩
  | member hNext hName hColon hHere _ ih =>
      cases clock with
      | nil => cases hRun
      | cons tick clock =>
          rw [Reader.members, hNext] at hRun
          simp only [bind, Except.bind, if_true, hName] at hRun
          obtain ⟨⟨acc₁, w'⟩, hRead, hRun⟩ := bind_eq_ok_iff.mp hRun
          obtain ⟨rfl, hStep⟩ := hMember _ _ _ _ _ _ _ _ hColon hHere hRead
          obtain ⟨hEnd, hSteps⟩ := ih hRun
          exact ⟨hEnd, bind_eq_ok_iff.mpr ⟨acc₁, hStep, hSteps⟩⟩

end Members

end RoughCut.Json
