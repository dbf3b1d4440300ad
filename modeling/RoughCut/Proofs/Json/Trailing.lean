import RoughCut.Proofs.Json.Digits

/-!
Readers with more bytes after those they have seen. What a reader comes to, a value or a
fault, it comes to with more bytes after them as well, as long as no number goes on in
these. Only where its bytes ended too early there may be more for it to find.
-/

namespace RoughCut.Json

variable {α β σ κ : Type} {x s t r : List UInt8}

/-- The second is what comes of the same reading as the first with the bytes `x` at the
end, after all that the first has left over. -/
inductive Settles (x : List UInt8) :
    Except Fault (α × List UInt8) → Except Fault (α × List UInt8) → Prop where
  | ended (e : Except Fault (α × List UInt8)) : Settles x (.error .ended) e
  | found (a : α) (r : List UInt8) : Settles x (.ok (a, r)) (.ok (a, r ++ x))
  | fault (f : Fault) : Settles x (.error f) (.error f)

namespace Settles

variable {e e' : Except Fault (α × List UInt8)}

/-- A reading that has succeeded does so whatever follows, and leaves that unread. What
is settled is all that a reader does before it comes to an end. -/
theorem ok {a : α} (h : Settles x (.ok (a, r)) e) : e = .ok (a, r ++ x) := by
  cases h
  rfl

/-- A reading that has failed fails for the same reason whatever follows, unless it was
the end that it failed at. -/
theorem error {f : Fault} (h : Settles x (.error f) e) (hFault : f ≠ .ended) : e = .error f := by
  cases h with
  | ended => exact absurd rfl hFault
  | fault => rfl

/-- One reading after another is settled where both are, so long as the second is
wherever the first may leave it. -/
theorem bind {f f' : α × List UInt8 → Except Fault (β × List UInt8)} (h : Settles x e e')
    (hNext : ∀ a r, Settles x (f (a, r)) (f' (a, r ++ x))) : Settles x (e >>= f) (e' >>= f') := by
  cases h with
  | ended => exact .ended _
  | found a r => exact hNext a r
  | fault f => exact .fault f

/-- What is made of what has been read may fail, but reads nothing. -/
theorem pure_bind (y : Except Fault β) (r : List UInt8) :
    Settles x (y >>= fun b => pure (b, r)) (y >>= fun b => pure (b, r ++ x)) := by
  cases y with
  | ok b => exact .found b r
  | error f => exact .fault f

end Settles

namespace Reader

/-- Blanks are skipped up to the same byte, whatever is appended. -/
theorem skipBlanks_trailing {b : UInt8} (h : skipBlanks s = b :: t) (x : List UInt8) :
    skipBlanks (s ++ x) = b :: (t ++ x) := by
  rw [skipBlanks] at h ⊢
  rw [List.dropWhile_append, h]
  rfl

/-- A reader that goes on from the first byte that is not blank. -/
theorem settles_skipBlanks {k k' : UInt8 → List UInt8 → Except Fault (α × List UInt8)}
    (h : ∀ b r, Settles x (k b r) (k' b (r ++ x))) (s : List UInt8) :
    Settles x
      (match skipBlanks s with
        | [] => .error .ended
        | b :: r => k b r)
      (match skipBlanks (s ++ x) with
        | [] => .error .ended
        | b :: r => k' b r) := by
  cases hSkip : skipBlanks s with
  | nil => exact .ended _
  | cons b r =>
      rw [skipBlanks_trailing hSkip]
      exact h b r

/-- To look for one byte settles what follows as soon as there is a byte that is not
blank. -/
theorem settles_byte (c : UInt8) (s : List UInt8) :
    Settles x
      (match skipBlanks s with
        | [] => .error .ended
        | b :: r => if b = c then .ok ((), r) else .error .malformed)
      (match skipBlanks (s ++ x) with
        | [] => .error .ended
        | b :: r => if b = c then .ok ((), r) else .error .malformed) := by
  refine settles_skipBlanks (fun b r => ?_) s
  split_ifs
  · exact .found () r
  · exact .fault _

theorem settles_closeItems (s : List UInt8) : Settles x (closeItems s) (closeItems (s ++ x)) :=
  settles_byte Byte.closeBracket s

theorem settles_colon (s : List UInt8) : Settles x (colon s) (colon (s ++ x)) :=
  settles_byte Byte.colon s

/-- A word such as true is known or refused at its last byte at the latest. -/
theorem settles_word (w s : List UInt8) : Settles x (word w s) (word w (s ++ x)) := by
  induction w generalizing s with
  | nil => exact .found () s
  | cons c w ih =>
      cases s with
      | nil => exact .ended _
      | cons b s =>
          rw [List.cons_append, word, word]
          split_ifs
          · exact ih s
          · exact .fault _

/-- Whether another item follows is known at the first byte that is not blank, or at the
one after a comma. -/
theorem settles_nextItem (first : Bool) (s : List UInt8) :
    Settles x (nextItem first s) (nextItem first (s ++ x)) := by
  refine settles_skipBlanks (fun b r => ?_) s
  split_ifs
  · exact .found false (b :: r)
  · exact .found true (b :: r)
  · refine settles_skipBlanks (fun c t => ?_) r
    split_ifs
    · exact .fault _
    · exact .found true (c :: t)
  · exact .fault _

/-- Whether another member follows is known at the first byte that is not blank, or at
the one after a comma. -/
theorem settles_nextMember (first : Bool) (s : List UInt8) :
    Settles x (nextMember first s) (nextMember first (s ++ x)) := by
  refine settles_skipBlanks (fun b r => ?_) s
  split_ifs
  · exact .found false r
  · exact .found true r
  · exact .fault _
  · refine settles_skipBlanks (fun c t => ?_) r
    split_ifs
    · exact .found true t
    · exact .fault _
  · exact .fault _

/-- The items of an array, where there is no less time for them. The clock of a longer
text is longer too, so it never stops a reader earlier. -/
theorem settles_items {item item' : σ → Reader σ}
    (hItem : ∀ acc s, Settles x (item acc s) (item' acc (s ++ x))) {clock clock' : List UInt8}
    (hClock : clock.length ≤ clock'.length) (first : Bool) (acc : σ) (s : List UInt8) :
    Settles x (items item clock first acc s) (items item' clock' first acc (s ++ x)) := by
  induction clock generalizing clock' first acc s with
  | nil => exact .ended _
  | cons tick clock ih =>
      cases clock' with
      | nil => cases hClock
      | cons tick' clock' =>
          refine (settles_nextItem first s).bind fun more s => ?_
          cases more with
          | true =>
              exact (hItem acc s).bind fun acc s => ih (Nat.le_of_succ_le_succ hClock) false acc s
          | false => exact (settles_closeItems s).bind fun _ s => .found acc s

/-- Members are settled where their keys and values are. The clock only has to run long
enough for the bytes that there are. -/
theorem settles_members {key : Reader κ} {member member' : σ → κ → Reader σ}
    (hKey : ∀ s, Settles x (key s) (key (s ++ x)))
    (hMember : ∀ acc k s, Settles x (member acc k s) (member' acc k (s ++ x)))
    {clock clock' : List UInt8} (hClock : clock.length ≤ clock'.length) (first : Bool) (acc : σ)
    (s : List UInt8) :
    Settles x (members key member clock first acc s)
      (members key member' clock' first acc (s ++ x)) := by
  induction clock generalizing clock' first acc s with
  | nil => exact .ended _
  | cons tick clock ih =>
      cases clock' with
      | nil => cases hClock
      | cons tick' clock' =>
          refine (settles_nextMember first s).bind fun more s => ?_
          cases more with
          | true =>
              refine (hKey s).bind fun k s => (hMember acc k s).bind fun acc s => ?_
              exact ih (Nat.le_of_succ_le_succ hClock) false acc s
          | false => exact .found acc s

/-- Readers for each kind of value, of which each settles. -/
structure Kinds.Settle (x : List UInt8) (k k' : Kinds α) : Prop where
  null : k.null = k'.null
  boolean (b : Bool) : k.boolean b = k'.boolean b
  number (negative : Bool) (s : List UInt8) : Settles x (k.number negative s)
    (k'.number negative (s ++ x))
  text (s : List UInt8) : Settles x (k.text s) (k'.text (s ++ x))
  array (s : List UInt8) : Settles x (k.array s) (k'.array (s ++ x))
  object (s : List UInt8) : Settles x (k.object s) (k'.object (s ++ x))

/-- A reader by the kind of what is read is settled where the reader of each kind is. -/
theorem Kinds.Settle.byKind {k k' : Kinds α} (h : k.Settle x k') (s : List UInt8) :
    Settles x (byKind k s) (byKind k' (s ++ x)) := by
  refine settles_skipBlanks (fun b r => ?_) s
  split_ifs
  · exact h.text r
  · exact h.array r
  · exact h.object r
  · exact h.number true r
  · exact h.number false (b :: r)
  · exact (settles_word nullTail r).bind fun _ r => h.null ▸ .pure_bind k.null r
  · exact (settles_word trueTail r).bind fun _ r => h.boolean true ▸ .pure_bind (k.boolean true) r
  · exact (settles_word falseTail r).bind fun _ r =>
      h.boolean false ▸ .pure_bind (k.boolean false) r
  · exact .fault _

end Reader

namespace Literal

/-- The digits of an escape are looked at when there are four more bytes, as there still
are with more bytes. -/
theorem enough_append (h : ¬ (s.drop 3).isEmpty = true) (x : List UInt8) :
    ¬ ((s ++ x).drop 3).isEmpty = true := by
  simp only [List.isEmpty_iff, List.drop_eq_nil_iff, List.length_append] at h ⊢
  omega

/-- Where a letter announces the digits of a code unit, these are waited for. -/
theorem settles_announced {b : UInt8} {s : List UInt8}
    {unit unit' other other' : Except Fault (α × List UInt8)} (hUnit : Settles x unit unit')
    (hOther : Settles x other other') :
    Settles x (if b = 0x75 then if (s.drop 3).isEmpty then .error .ended else unit else other)
      (if b = 0x75 then if ((s ++ x).drop 3).isEmpty then .error .ended else unit'
        else other') := by
  by_cases hLetter : b = 0x75
  · by_cases hShort : (s.drop 3).isEmpty = true
    · rw [if_pos hLetter, if_pos hShort]
      exact .ended _
    · rw [if_pos hLetter, if_neg hShort, if_pos hLetter, if_neg (enough_append hShort x)]
      exact hUnit
  · rw [if_neg hLetter, if_neg hLetter]
    exact hOther

/-- The inside of a string is settled at its closing quote, and no escape looks further.
-/
theorem settles_content (place : Place) (acc s : List UInt8) :
    Settles x (content place acc s) (content place acc (s ++ x)) := by
  induction s generalizing place acc with
  | nil => cases place <;> exact .ended _
  | cons b s ih =>
      rw [List.cons_append]
      cases place with
      | plain =>
          unfold content
          split_ifs
          · exact .found acc.reverse s
          · exact ih .escape acc
          · exact .fault _
          · exact ih .plain (b :: acc)
      | escape =>
          unfold content
          refine settles_announced (ih _ acc) ?_
          cases escaped b with
          | some c => exact ih .plain (c :: acc)
          | none => exact .fault _
      | unit missing value half =>
          unfold content
          cases hexValue b with
          | none => exact .fault _
          | some d =>
              cases missing with
              | zero =>
                  change Settles x (finishUnit (value * 16 + d) half >>= _)
                    (finishUnit (value * 16 + d) half >>= _)
                  cases finishUnit (value * 16 + d) half with
                  | error f => exact .fault f
                  | ok next => exact ih next.1 (next.2.reverse ++ acc)
              | succ missing => exact ih _ acc
      | pair half =>
          unfold content
          split_ifs
          · exact ih (.pairEscape half) acc
          · exact .fault _
      | pairEscape half =>
          unfold content
          exact settles_announced (ih _ acc) (.fault _)

theorem settles_read (s : List UInt8) : Settles x (read s) (read (s ++ x)) := by
  refine (settles_content .plain [] s).bind fun bytes s => ?_
  cases hText : Text.Utf8.decode? bytes with
  | some text => simpa [hText] using Settles.found text s
  | none => simpa [hText] using Settles.fault Fault.malformed

/-- A string is read in the same way whatever comes behind it. -/
theorem read_trailing {text : String} (h : read s = .ok (text, r)) (x : List UInt8) :
    read (s ++ x) = .ok (text, r ++ x) := by
  have hRead := settles_read (x := x) s
  rw [h] at hRead
  exact hRead.ok

end Literal

namespace Number

/-- A run of digits ends where it did if what is appended does not begin with one. -/
theorem digits_append (hx : Ends x) (s : List UInt8) :
    (s ++ x).takeWhile Byte.isDigit = s.takeWhile Byte.isDigit ∧
      (s ++ x).dropWhile Byte.isDigit = s.dropWhile Byte.isDigit ++ x := by
  have hTake : x.takeWhile Byte.isDigit = [] ∧ x.dropWhile Byte.isDigit = x := by
    cases x with
    | nil => exact ⟨rfl, rfl⟩
    | cons b x => simp [(hx b rfl).1]
  rw [List.takeWhile_append, List.dropWhile_append, hTake.1, hTake.2]
  constructor
  · split_ifs with hAll
    · rw [List.append_nil]
      exact (List.takeWhile_prefix _).eq_of_length hAll |>.symm
    · rfl
  · split_ifs with hNone
    · rw [List.isEmpty_iff.mp hNone, List.nil_append]
    · rfl

/-- Digits of which there must be one are settled if nothing that is appended can go on
with them. -/
theorem settles_someDigits (hx : Ends x) (s : List UInt8) :
    Settles x (someDigits s) (someDigits (s ++ x)) := by
  cases s with
  | nil => exact .ended _
  | cons b s =>
      obtain ⟨hTake, hDrop⟩ := digits_append hx (b :: s)
      rw [List.cons_append] at hTake hDrop ⊢
      rw [someDigits, someDigits, hTake, hDrop]
      split_ifs
      · exact .found _ _
      · exact .fault _

/-- The digits before a point are settled if nothing that is appended can go on with
them. -/
theorem settles_wholeDigits (hx : Ends x) (s : List UInt8) :
    Settles x (wholeDigits s) (wholeDigits (s ++ x)) := by
  refine (settles_someDigits hx s).bind fun ds r => ?_
  dsimp only
  split_ifs
  · exact .fault _
  · exact .found ds r

/-- The digits after a point are settled if nothing that is appended can go on with
them. -/
theorem settles_fractionDigits (hx : Ends x) (s : List UInt8) :
    Settles x (fractionDigits s) (fractionDigits (s ++ x)) := by
  cases s with
  | nil =>
      cases x with
      | nil => exact .found none []
      | cons b x =>
          rw [List.nil_append, fractionDigits, fractionDigits, if_neg (hx b rfl).2.1]
          exact .found none []
  | cons b s =>
      rw [List.cons_append, fractionDigits, fractionDigits]
      split_ifs
      · exact (settles_someDigits hx s).bind fun ds r => .found (some ds) r
      · exact .found none (b :: s)

/-- The sign of an exponent is told by the next byte alone. -/
theorem exponentSign_append (h : s ≠ []) (x : List UInt8) :
    exponentSign (s ++ x) = ((exponentSign s).1, (exponentSign s).2 ++ x) := by
  cases s with
  | nil => exact absurd rfl h
  | cons b s =>
      rw [List.cons_append]
      unfold exponentSign
      simp only
      split_ifs <;> rfl

/-- An exponent is settled if nothing that is appended can go on with its digits. -/
theorem settles_exponent (hx : Ends x) (s : List UInt8) :
    Settles x (exponent s) (exponent (s ++ x)) := by
  cases s with
  | nil =>
      cases x with
      | nil => exact .found none []
      | cons b x =>
          rw [List.nil_append, exponent, exponent, if_neg (by simp [(hx b rfl).2.2])]
          exact .found none []
  | cons b s =>
      rw [List.cons_append, exponent, exponent]
      split_ifs
      · by_cases hNone : s = []
        · subst hNone
          exact .ended _
        · rw [exponentSign_append hNone]
          exact (settles_someDigits hx _).bind fun ds r => .found _ r
      · exact .found none (b :: s)

/-- Of all that can be read a number alone has no end of its own. So it is settled only
if what is appended cannot belong to it. -/
theorem settles_read (hx : Ends x) (negative : Bool) (s : List UInt8) :
    Settles x (read negative s) (read negative (s ++ x)) := by
  refine (settles_wholeDigits hx s).bind fun whole s => ?_
  refine (settles_fractionDigits hx s).bind fun fraction s => ?_
  refine (settles_exponent hx s).bind fun power s => ?_
  cases fraction <;> cases power <;> exact .pure_bind _ s

end Number

namespace Value

/-- A value is settled where the values inside it are. -/
theorem settles_readWith (hx : Number.Ends x) {inner : Option (Reader Value)}
    (hInner : ∀ read, inner = some read → ∀ s, Settles x (read s) (read (s ++ x)))
    (s : List UInt8) : Settles x (readWith inner s) (readWith inner (s ++ x)) := by
  refine Reader.Kinds.Settle.byKind ⟨rfl, fun _ => rfl, fun negative s => ?_, fun s => ?_,
    fun s => ?_, fun s => ?_⟩ s
  · exact (Number.settles_read hx negative s).bind fun n s => .found (Value.number n) s
  · exact (Literal.settles_read s).bind fun text s => .found (Value.text text) s
  · cases inner with
    | none => exact .fault _
    | some read =>
        refine (Reader.settles_items (fun vs s => ?_) (by simp) true [] s).bind
          fun vs s => .found (Value.array vs.reverse) s
        exact (hInner read rfl s).bind fun v s => .found (v :: vs) s
  · cases inner with
    | none => exact .fault _
    | some read =>
        refine (Reader.settles_members Literal.settles_read (fun ms k s => ?_) (by simp) true []
          s).bind fun ms s => .found (Value.object ms.reverse) s
        exact (Reader.settles_colon s).bind fun _ s =>
          (hInner read rfl s).bind fun v s => .found ((k, v) :: ms) s

/-- By induction on the depth a whole value is settled, however deep it is. -/
theorem settles_readDeep (hx : Number.Ends x) (depth : Nat) (s : List UInt8) :
    Settles x (readDeep depth s) (readDeep depth (s ++ x)) := by
  induction depth generalizing s with
  | zero =>
      refine settles_readWith hx ?_ s
      rintro _ ⟨⟩
  | succ depth ih =>
      refine settles_readWith hx ?_ s
      rintro _ ⟨⟩
      exact ih

/-- A value is read as it is without the bytes that follow. This makes a value that was
read alone a part of a longer text. -/
theorem readDeep_trailing {depth : Nat} {v : Value}
    (h : readDeep depth s = .ok (v, r)) (hx : Number.Ends x) :
    readDeep depth (s ++ x) = .ok (v, r ++ x) := by
  have hRead := settles_readDeep hx depth s
  rw [h] at hRead
  exact hRead.ok

end Value

end RoughCut.Json
