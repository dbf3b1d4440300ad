import RoughCut.Json.Shape
import RoughCut.Proofs.Json.Trailing

/-!
The first problem in a text. Reading on the way, and passing over what is not asked for,
stops at the first fault, so that it comes to the same fault whatever bytes follow those
in which it is found. The bytes that follow may not be such as a number could go on with:
where a number ends is not seen before.
-/

namespace RoughCut.Json

variable {σ α β : Type} {x s r : List UInt8}

/-- Bytes that go on with no part of a number. -/
structure Number.Stops (x : List UInt8) : Prop where
  ends : Ends x
  unsigned : ∀ b ∈ x.head?, b ≠ Byte.minus ∧ b ≠ 0x2B

namespace Skip

/-- The rest of a literal is settled at its closing quote, whatever escapes are in it. -/
theorem settles_literalFrom (place : Place) (s : List UInt8) :
    Settles x (literalFrom place s) (literalFrom place (s ++ x)) := by
  induction s generalizing place with
  | nil => cases place <;> exact .ended _
  | cons b s ih =>
      rw [List.cons_append]
      cases place with
      | plain =>
          unfold literalFrom
          split_ifs
          · exact .found () s
          · exact ih .escape
          · exact .fault _
          · exact ih .plain
      | escape =>
          unfold literalFrom
          refine Literal.settles_announced (ih _) ?_
          split_ifs
          · exact ih .plain
          · exact .fault _
      | unit missing =>
          unfold literalFrom
          cases Literal.hexValue b with
          | none => exact .fault _
          | some d =>
              cases missing with
              | zero => exact ih .plain
              | succ missing => exact ih (.unit missing)

theorem settles_literal (s : List UInt8) : Settles x (literal s) (literal (s ++ x)) :=
  settles_literalFrom .plain s

theorem settles_digits (hx : Number.Ends x) (s : List UInt8) :
    Settles x (digits s) (digits (s ++ x)) := by
  cases s with
  | nil =>
      cases x with
      | nil => exact .fault _
      | cons b x =>
          rw [List.nil_append, digits, digits, if_neg (by simp [(hx b rfl).1])]
          exact .fault _
  | cons b s =>
      obtain ⟨-, hDrop⟩ := Number.digits_append hx (b :: s)
      rw [List.cons_append] at hDrop ⊢
      rw [digits, digits, hDrop]
      split_ifs
      · exact .found () _
      · exact .fault _

theorem settles_fraction (hx : Number.Ends x) (s : List UInt8) :
    Settles x (fraction s) (fraction (s ++ x)) := by
  cases s with
  | nil =>
      cases x with
      | nil => exact .found () []
      | cons b x =>
          rw [List.nil_append, fraction, fraction, if_neg (hx b rfl).2.1]
          exact .found () []
  | cons b s =>
      rw [List.cons_append, fraction, fraction]
      split_ifs
      · exact settles_digits hx s
      · exact .found () (b :: s)

/-- An exponent is settled if nothing that is appended can begin or go on with one. -/
theorem settles_exponent (hx : Number.Stops x) (s : List UInt8) :
    Settles x (exponent s) (exponent (s ++ x)) := by
  cases s with
  | nil =>
      cases x with
      | nil => exact .found () []
      | cons b x =>
          rw [List.nil_append, exponent, exponent, if_neg (by simp [(hx.ends b rfl).2.2])]
          exact .found () []
  | cons b s =>
      rw [List.cons_append, exponent, exponent]
      split_ifs
      · by_cases hNone : s = []
        · -- neither a sign nor a digit follows the mark
          subst hNone
          have hSign : (Number.exponentSign x).2 = x := by
            cases x with
            | nil => rfl
            | cons c x =>
                obtain ⟨hMinus, hPlus⟩ := hx.unsigned c rfl
                rw [Number.exponentSign, if_neg hMinus, if_neg hPlus]
          rw [List.nil_append, hSign]
          exact settles_digits hx.ends []
        · rw [Number.exponentSign_append hNone]
          exact settles_digits hx.ends _
      · exact .found () (b :: s)

/-- What may follow the digits before a point is settled if nothing that is appended can
be any of it. -/
theorem settles_afterWhole (hx : Number.Stops x) (s : List UInt8) :
    Settles x (number.afterWhole s) (number.afterWhole (s ++ x)) :=
  (settles_fraction hx.ends s).bind fun _ s => settles_exponent hx s

/-- A number that does not begin with a zero begins with digits, of which there may be
more. -/
theorem number_of_ne_zero {b : UInt8} (h : b ≠ 0x30) (s : List UInt8) :
    number (b :: s) = digits (b :: s) >>= fun p => number.afterWhole p.2 := by
  unfold number
  split
  · next hSame => exact absurd (List.cons.inj hSame).1 h
  · rfl

/-- A number is settled if nothing that is appended can belong to it. Otherwise more
digits might come and make another number of it. -/
theorem settles_number (hx : Number.Stops x) (s : List UInt8) :
    Settles x (number s) (number (s ++ x)) := by
  cases s with
  | nil =>
      cases x with
      | nil => exact .fault _
      | cons c x =>
          have hDigit := (hx.ends c rfl).1
          have hZero : c ≠ 0x30 := by
            rintro rfl
            cases hDigit
          rw [List.nil_append, number_of_ne_zero hZero, digits, if_neg (by simp [hDigit])]
          exact .fault _
  | cons b s =>
      by_cases hZero : b = 0x30
      · subst hZero
        cases s with
        | nil =>
            have hAfter := settles_afterWhole hx []
            cases x with
            | nil => exact hAfter
            | cons c x =>
                have hNumber : number (0x30 :: c :: x) = number.afterWhole (c :: x) :=
                  if_neg (by simp [(hx.ends c rfl).1])
                rw [List.singleton_append, hNumber]
                exact hAfter
        | cons c s =>
            rw [List.cons_append, List.cons_append, number, number]
            split_ifs
            · exact .fault _
            · exact settles_afterWhole hx (c :: s)
      · rw [List.cons_append, number_of_ne_zero hZero, number_of_ne_zero hZero,
          ← List.cons_append]
        exact (settles_digits hx.ends (b :: s)).bind fun _ s => settles_afterWhole hx s

/-- A value is passed over as well where there is more time for it. -/
theorem settles_valueWithin (hx : Number.Stops x) {clock clock' : List UInt8}
    (hClock : clock.length ≤ clock'.length) (s : List UInt8) :
    Settles x (valueWithin clock s) (valueWithin clock' (s ++ x)) := by
  induction clock generalizing clock' s with
  | nil => exact .ended _
  | cons tick clock ih =>
      cases clock' with
      | nil => cases hClock
      | cons tick' clock' =>
          have hInner (s : List UInt8) := ih (Nat.le_of_succ_le_succ hClock) s
          refine Reader.Kinds.Settle.byKind ?_ s
          refine ⟨rfl, fun _ => rfl, fun _ s => settles_number hx s, settles_literal,
            fun s => ?_, fun s => ?_⟩
          · exact Reader.settles_items (fun _ s => hInner s) (by simp) true () s
          · refine Reader.settles_members settles_literal (fun _ _ s => ?_) (by simp)
              true () s
            exact (Reader.settles_colon s).bind fun _ s => hInner s

theorem settles_value (hx : Number.Stops x) (s : List UInt8) :
    Settles x (value s) (value (s ++ x)) :=
  settles_valueWithin hx (by simp) s

end Skip

theorem settle_refusing (hx : Number.Ends x) (expected : String) :
    Reader.Kinds.Settle x (refusing (α := α) expected) (refusing expected) where
  null := rfl
  boolean _ := rfl
  number negative s := (Number.settles_read hx negative s).bind fun _ _ => .fault _
  text s := (Literal.settles_read s).bind fun _ _ => .fault _
  array _ := .fault _
  object _ := .fault _

theorem settles_readChoice (choices : List (String × α)) (s : List UInt8) :
    Settles x (readChoice choices s) (readChoice choices (s ++ x)) := by
  refine Reader.settles_skipBlanks (fun b r => ?_) s
  split_ifs
  · exact (Literal.settles_read r).bind fun name s => .pure_bind _ s
  · exact .fault _

/-- A choice is settled at the end of its name, or at the end of the object that has it
for its key. -/
theorem settles_readChosen (hx : Number.Ends x) (choices : List (String × α)) (s : List UInt8) :
    Settles x (readChosen choices s) (readChosen choices (s ++ x)) := by
  refine Reader.settles_skipBlanks (fun b r => ?_) s
  split_ifs
  · refine (settles_readChoice choices r).bind fun a s => ?_
    refine (Reader.settles_colon s).bind fun _ s => ?_
    have hUnit : Reader.Kinds.Settle x { refusing (α := Unit) "unit" with null := .ok () }
        { refusing "unit" with null := .ok () } := { settle_refusing hx "unit" with null := rfl }
    refine (hUnit.byKind s).bind fun _ s => Reader.settles_skipBlanks (fun c s => ?_) s
    split_ifs
    · exact .found a s
    · exact .fault _
  · exact settles_readChoice choices (b :: r)

mutual

/-- Reading on the way settles. -/
theorem Shape.settles_read (hx : Number.Stops x) : {α : Type} → (shape : Shape α) →
    (s : List UInt8) → Settles x (shape.read s) (shape.read (s ++ x))
  | _, .seconds, s => by
    refine Reader.Kinds.Settle.byKind ?_ s
    refine { settle_refusing hx.ends secondsType with number := fun negative s => ?_ }
    exact (Number.settles_read hx.ends negative s).bind fun n s => .found n.toSeconds s
  | _, .whole typeName limit, s => by
    refine Reader.Kinds.Settle.byKind ?_ s
    refine { settle_refusing hx.ends typeName with number := fun negative s => ?_ }
    exact (Number.settles_read hx.ends negative s).bind fun n s => .pure_bind _ s
  | _, .text typeName, s => by
    refine Reader.Kinds.Settle.byKind ?_ s
    exact { settle_refusing hx.ends typeName with text := Literal.settles_read }
  | _, .choice choices _ _, s => settles_readChosen hx.ends choices s
  | _, .list item, s => by
    refine Reader.Kinds.Settle.byKind ?_ s
    refine { settle_refusing hx.ends listType with array := fun s => ?_ }
    refine (Reader.settles_items (fun as s => ?_) (by simp) true [] s).bind
      fun as s => .found as.reverse s
    exact (item.settles_read hx s).bind fun a s => .found (a :: as) s
  | _, .nullable inner, s => by
    refine Reader.settles_skipBlanks (fun b r => ?_) s
    split_ifs
    · exact (Reader.settles_word Reader.nullTail r).bind fun _ r => .found none r
    · exact (inner.settles_read hx (b :: r)).bind fun a r => .found (some a) r
  | _, .record name fields, s => by
    refine Reader.Kinds.Settle.byKind ?_ s
    refine { settle_refusing hx.ends (recordType name) with
      array := fun s => ?_, object := fun s => ?_ }
    · exact (fields.settles_readItems hx name fields.count 0 s).bind fun a s =>
        (Reader.settles_closeItems s).bind fun _ s => .found a s
    · refine (Reader.settles_members Literal.settles_read (fun slots k s => ?_) (by simp) true
        fields.blank s).bind fun slots s => .pure_bind _ s
      exact fields.settles_readMember hx k slots s
  | _, .view toView _ inner _, s =>
    (inner.settles_read hx s).bind fun a s => .found (toView a) s

/-- By induction on the fields, a member is settled where the value of its field is, or
where the value that is skipped is. -/
theorem Fields.settles_readMember (hx : Number.Stops x) : {σ α : Type} → (fields : Fields σ α) →
    (k : String) → (slots : σ) → (s : List UInt8) →
    Settles x (fields.readMember k slots s) (fields.readMember k slots (s ++ x))
  | _, _, .done, _, (), s => (Reader.settles_colon s).bind fun _ s => Skip.settles_value hx s
  | _, _, .field name _ shape rest, k, (slot, slots), s => by
    simp only [Fields.readMember]
    split_ifs
    · exact .fault _
    · exact (Reader.settles_colon s).bind fun _ s =>
        (shape.settles_read hx s).bind fun a s => .found (some a, slots) s
    · exact (rest.settles_readMember hx k slots s).bind fun slots s => .found (slot, slots) s

/-- By induction on the fields, the items of a record are settled where each of them is.
-/
theorem Fields.settles_readItems (hx : Number.Stops x) : {σ α : Type} → (fields : Fields σ α) →
    (record : String) → (total index : Nat) → (s : List UInt8) →
    Settles x (fields.readItems record total index s)
      (fields.readItems record total index (s ++ x))
  | _, _, .done, _, _, _, s => .found () s
  | _, _, .field _ absence shape rest, record, total, index, s => by
    refine (Reader.settles_nextItem (index == 0) s).bind fun more s => ?_
    cases more with
    | true =>
        exact (shape.settles_read hx s).bind fun a s =>
          (rest.settles_readItems hx record total (index + 1) s).bind fun b s => .found (a, b) s
    | false =>
        cases absence.inArray? with
        | some a =>
            exact (rest.settles_readItems hx record total (index + 1) s).bind fun b s =>
              .found (a, b) s
        | none => exact .fault _

end

/-- The first problem in a text is found whatever follows it. Only where the text has
just come to its end may more of it be a remedy. -/
theorem Shape.readFront_append {shape : Shape α} {fault : Fault} (hx : Number.Stops x)
    (h : shape.readFront s = .error fault) (hFault : fault ≠ .ended) :
    shape.readFront (s ++ x) = .error fault := by
  have hRead := shape.settles_read hx s
  cases hFront : shape.read s with
  | ok p => simp [readFront, hFront, Except.map] at h
  | error f =>
      rw [hFront] at hRead
      obtain rfl : f = fault := by simpa [readFront, hFront, Except.map] using h
      rw [readFront, hRead.error hFault]
      rfl

end RoughCut.Json
