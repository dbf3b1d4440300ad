import RoughCut.Json.Shape
import RoughCut.Proofs.Json.Skipping

/-!
Reading on the way told by the whole value. `Shape.ofSpelled` takes from a value
the way a text is read: members one after the other as they are spelled, with a
second value for a field refused. Wherever a whole value can be read, reading on
the way comes to what is spelled (`Shape.readsSpelled`).
-/

namespace RoughCut.Json

variable {σ α β : Type}

mutual

/-- Takes from a value as a text is read. Where an object has a key twice, both
members are looked at. -/
def Shape.ofSpelled : {α : Type} → Shape α → Value → Except Mismatch α
  | _, .seconds, v => Shape.seconds.ofValue v
  | _, .whole typeName limit, v => (Shape.whole typeName limit).ofValue v
  | _, .text typeName, v => (Shape.text typeName).ofValue v
  | _, .choice choices name found, v => (Shape.choice choices name found).ofValue v
  | _, .list item, v =>
    match v with
    | .array vs => vs.mapM item.ofSpelled
    | v => .error (.wrongType v.found listType)
  | _, .nullable inner, v =>
    match v with
    | .null => .ok none
    | v => (inner.ofSpelled v).map some
  | _, .record name fields, v =>
    match v with
    | .object members => do
      let slots ← members.foldlM (fun slots (k, v) => fields.ofSpelledMember k v slots) fields.blank
      fields.finish slots
    | .array vs => do
      let (a, left) ← fields.ofSpelledItems name fields.count 0 vs
      if left.isEmpty then return a else .error (.tooLong vs.length)
    | v => .error (.wrongType v.found (recordType name))
  | _, .view toView _ inner _, v => (inner.ofSpelled v).map toView

/-- Takes one member of an object, unless its field is complete. -/
def Fields.ofSpelledMember : {σ α : Type} → Fields σ α → String → Value → σ → Except Mismatch σ
  | _, _, .done, _, _, () => .ok ()
  | _, _, .field name _ shape rest, k, v, (slot, slots) =>
    if k = name then
      if slot.isSome then .error (.repeated name)
      else (shape.ofSpelled v).map fun a => (some a, slots)
    else (rest.ofSpelledMember k v slots).map fun slots => (slot, slots)

def Fields.ofSpelledItems : {σ α : Type} → Fields σ α → String → Nat → Nat → List Value →
    Except Mismatch (α × List Value)
  | _, _, .done, _, _, _, vs => .ok ((), vs)
  | _, _, .field _ absence shape rest, record, total, index, vs =>
    match vs with
    | v :: vs => do
      let a ← shape.ofSpelled v
      let (b, vs) ← rest.ofSpelledItems record total (index + 1) vs
      return ((a, b), vs)
    | [] =>
      match absence.inArray? with
      | some a => do
        let (b, vs) ← rest.ofSpelledItems record total (index + 1) []
        return ((a, b), vs)
      | none => .error (.tooShort index record total)

end

mutual

/-- No choice is in the shape. Reading on the way accepts a second form of a
choice, which no whole value is taken in. -/
def Shape.Plain : {α : Type} → Shape α → Prop
  | _, .seconds => True
  | _, .whole _ _ => True
  | _, .text _ => True
  | _, .choice _ _ _ => False
  | _, .list item => item.Plain
  | _, .nullable inner => inner.Plain
  | _, .record _ fields => fields.Plain
  | _, .view _ _ inner _ => inner.Plain

def Fields.Plain : {σ α : Type} → Fields σ α → Prop
  | _, _, .done => True
  | _, _, .field _ _ shape rest => shape.Plain ∧ rest.Plain

end

/-- Reading on the way comes to what is spelled and, where no choice is in the
shape, to nothing else. -/
structure Shape.ReadsSpelled (shape : Shape α) : Prop where
  read {depth : Nat} {v : Value} {s r : List UInt8} {a : α}
    (hWhole : Value.readDeep depth s = .ok (v, r)) (hSpelled : shape.ofSpelled v = .ok a) :
    shape.read s = .ok (a, r)
  spelled {depth : Nat} {v : Value} {s r r' : List UInt8} {a : α} (hPlain : shape.Plain)
    (hWhole : Value.readDeep depth s = .ok (v, r)) (hRead : shape.read s = .ok (a, r')) :
    r' = r ∧ shape.ofSpelled v = .ok a

/-- The same of the fields of a record, in an object and in an array. -/
structure Fields.ReadsSpelled (fields : Fields σ α) : Prop where
  readMember {depth : Nat} {k : String} {v : Value} {slots slots' : σ} {s t r : List UInt8}
    (hColon : Reader.colon s = .ok ((), t)) (hWhole : Value.readDeep depth t = .ok (v, r))
    (hSpelled : fields.ofSpelledMember k v slots = .ok slots') :
    fields.readMember k slots s = .ok (slots', r)
  spelledMember {depth : Nat} {k : String} {v : Value} {slots slots' : σ}
    {s t r r' : List UInt8} (hPlain : fields.Plain)
    (hColon : Reader.colon s = .ok ((), t)) (hWhole : Value.readDeep depth t = .ok (v, r))
    (hRead : fields.readMember k slots s = .ok (slots', r')) :
    r' = r ∧ fields.ofSpelledMember k v slots = .ok slots'
  readItems {depth : Nat} {record : String} {total index : Nat} {vs : List Value}
    {s r : List UInt8} {a : α}
    (hItems : Items (fun v s r => Value.readDeep depth s = .ok (v, r)) (index == 0) vs s r)
    (hSpelled : fields.ofSpelledItems record total index vs = .ok (a, [])) :
    ∃ t, fields.readItems record total index s = .ok (a, t) ∧ Reader.closeItems t = .ok ((), r)
  spelledItems {depth : Nat} {record : String} {total index : Nat} {vs : List Value}
    {s t r r' : List UInt8} {a : α} (hPlain : fields.Plain)
    (hItems : Items (fun v s r => Value.readDeep depth s = .ok (v, r)) (index == 0) vs s r)
    (hRead : fields.readItems record total index s = .ok (a, t))
    (hClose : Reader.closeItems t = .ok ((), r')) :
    r' = r ∧ fields.ofSpelledItems record total index vs = .ok (a, [])

/-- Nothing is read where all is refused. -/
theorem refusing_after_ne (expected : String) (o : Opening) (t : List UInt8)
    {x : α × List UInt8} : (refusing expected).after o t ≠ .ok x := by
  intro h
  cases o with
  | number negative =>
      obtain ⟨n, _, hRefused⟩ := bind_eq_ok_iff.mp h
      cases hRefused
  | text =>
      obtain ⟨n, _, hRefused⟩ := bind_eq_ok_iff.mp h
      cases hRefused
  | null => cases h
  | boolean b => cases h
  | array => cases h
  | object => cases h

/-- Where a mismatch is one fault of a reader among others, the same readings succeed. -/
theorem mismatched_eq_ok_iff {x : Except Mismatch α} {a : α} :
    mismatched x = .ok a ↔ x = .ok a := by
  cases x <;> simp [mismatched]

theorem map_eq_ok_iff {ε : Type} {x : Except ε α} {f : α → β} {b : β} :
    x.map f = .ok b ↔ ∃ a, x = .ok a ∧ f a = b := by
  cases x <;> simp [Except.map]

namespace Shape

/-- A shape of numbers, of which only some may be accepted. -/
theorem readsSpelled_of_number {shape : Shape α} (expected : String)
    (accept : Number → Except Mismatch α)
    (hRead : shape.read = Reader.byKind { refusing expected with
      number := fun negative s => do
        let (n, s) ← Number.read negative s
        return (← mismatched (accept n), s) })
    (hSpelled : ∀ v, shape.ofSpelled v = match v with
      | .number n => accept n
      | v => .error (.wrongType v.found expected)) : shape.ReadsSpelled where
  read {depth v s r a} hWhole hTaken := by
    obtain ⟨o, t, hOpening, hRest⟩ := Value.rest_of_readDeep hWhole
    rw [hSpelled] at hTaken
    rw [hRead, Reader.byKind_of_opening _ hOpening]
    cases hRest with
    | number hNumber =>
        refine bind_eq_ok_iff.mpr ⟨_, hNumber, bind_eq_ok_iff.mpr ⟨a, ?_, rfl⟩⟩
        exact mismatched_eq_ok_iff.mpr hTaken
    | _ => cases hTaken
  spelled {depth v s r r' a} _ hWhole hTaken := by
    obtain ⟨o, t, hOpening, hRest⟩ := Value.rest_of_readDeep hWhole
    rw [hRead, Reader.byKind_of_opening _ hOpening] at hTaken
    rw [hSpelled]
    have hRefused (x : α × List UInt8) : (refusing expected).after o t ≠ .ok x :=
      refusing_after_ne expected o t
    cases hRest with
    | number hNumber =>
        obtain ⟨⟨n, t'⟩, hNumber', hTaken⟩ := bind_eq_ok_iff.mp hTaken
        obtain ⟨a', hAccept, hSame⟩ := bind_eq_ok_iff.mp hTaken
        rw [hNumber] at hNumber'
        cases hNumber'
        cases hSame
        exact ⟨rfl, mismatched_eq_ok_iff.mp hAccept⟩
    | _ => exact absurd hTaken (hRefused _)

/-- A time is read from any number, and the reader of numbers leaves nothing else to
look at. -/
theorem readsSpelled_seconds : seconds.ReadsSpelled :=
  readsSpelled_of_number secondsType (fun n => .ok n.toSeconds) rfl fun v => by cases v <;> rfl

/-- A whole number is read from the text of one that is not above the limit, and from no
other number. -/
theorem readsSpelled_whole (typeName : String) (limit : Nat) :
    (whole typeName limit).ReadsSpelled :=
  readsSpelled_of_number typeName (fun n => n.toWhole typeName limit) rfl fun v => by
    cases v <;> rfl

theorem readsSpelled_text (typeName : String) : (text typeName).ReadsSpelled where
  read {depth v s r a} hWhole hSpelled := by
    obtain ⟨o, t, hOpening, hRest⟩ := Value.rest_of_readDeep hWhole
    rw [Shape.read, Reader.byKind_of_opening _ hOpening]
    cases hRest with
    | text hText =>
        cases hSpelled
        exact hText
    | _ => cases hSpelled
  spelled {depth v s r r' a} _ hWhole hRead := by
    obtain ⟨o, t, hOpening, hRest⟩ := Value.rest_of_readDeep hWhole
    rw [Shape.read, Reader.byKind_of_opening _ hOpening] at hRead
    have hRefused (x : String × List UInt8) : (refusing typeName).after o t ≠ .ok x :=
      refusing_after_ne typeName o t
    cases hRest with
    | text hText =>
        have hSame := hText.symm.trans hRead
        cases hSame
        exact ⟨rfl, rfl⟩
    | _ => exact absurd hRead (hRefused _)

/-- A choice is read by its name where that is a text, and taken in no other form. -/
theorem readsSpelled_choice (choices : List (String × α)) (name : α → String)
    (found : ∀ a, (choices.find? fun (n, _) => n == name a) = some (name a, a)) :
    (choice choices name found).ReadsSpelled where
  read {depth v s r a} hWhole hSpelled := by
    obtain ⟨o, t, hOpening, hRest⟩ := Value.rest_of_readDeep hWhole
    obtain ⟨b, u, hSkip, hBegins⟩ := Opening.begins_of_read hOpening
    cases hRest with
    | text hText =>
        cases hBegins with
        | text hByte =>
            subst hByte
            rw [Shape.read, readChosen, hSkip]
            refine bind_eq_ok_iff.mpr ⟨_, hText, bind_eq_ok_iff.mpr ⟨a, ?_, rfl⟩⟩
            exact mismatched_eq_ok_iff.mpr hSpelled
    | _ => cases hSpelled
  spelled hPlain := hPlain.elim

/-- What is seen in another way is read as it is seen otherwise. -/
theorem readsSpelled_view {toView : α → β} {ofView : β → α} {inner : Shape α}
    {same : ∀ b, toView (ofView b) = b} (hInner : inner.ReadsSpelled) :
    (view toView ofView inner same).ReadsSpelled where
  read {depth v s r b} hWhole hSpelled := by
    obtain ⟨a, hSpelled, hView⟩ := map_eq_ok_iff.mp hSpelled
    exact bind_eq_ok_iff.mpr ⟨_, hInner.read hWhole hSpelled, by rw [← hView]; rfl⟩
  spelled {depth v s r r' b} hPlain hWhole hRead := by
    obtain ⟨⟨a, t⟩, hRead, hSame⟩ := bind_eq_ok_iff.mp hRead
    cases hSame
    obtain ⟨hEnd, hSpelled⟩ := hInner.spelled hPlain hWhole hRead
    exact ⟨hEnd, map_eq_ok_iff.mpr ⟨a, hSpelled, rfl⟩⟩

theorem ofSpelled_nullable {inner : Shape α} {v : Value} (h : v ≠ .null) :
    (nullable inner).ofSpelled v = (inner.ofSpelled v).map some := by
  cases v with
  | null => exact absurd rfl h
  | _ => rfl

/-- Null is known by its first byte, so what is not null is read as if null were not
allowed. -/
theorem readsSpelled_nullable {inner : Shape α} (hInner : inner.ReadsSpelled) :
    (nullable inner).ReadsSpelled where
  read {depth v s r a} hWhole hSpelled := by
    rcases Value.null_or_other_of_readDeep hWhole with
      ⟨rfl, u, hSkip, hWord⟩ | ⟨hNull, b, u, hSkip, hByte, hWhole⟩
    · cases hSpelled
      simp only [Shape.read, hSkip]
      exact bind_eq_ok_iff.mpr ⟨_, hWord, rfl⟩
    · rw [ofSpelled_nullable hNull] at hSpelled
      obtain ⟨a', hTaken, rfl⟩ := map_eq_ok_iff.mp hSpelled
      simp only [Shape.read, hSkip, if_neg hByte]
      exact bind_eq_ok_iff.mpr ⟨_, hInner.read hWhole hTaken, rfl⟩
  spelled {depth v s r r' a} hPlain hWhole hRead := by
    rcases Value.null_or_other_of_readDeep hWhole with
      ⟨rfl, u, hSkip, hWord⟩ | ⟨hNull, b, u, hSkip, hByte, hWhole⟩
    · simp only [Shape.read, hSkip] at hRead
      obtain ⟨⟨_, t⟩, hWord', hSame⟩ := bind_eq_ok_iff.mp hRead
      rw [hWord] at hWord'
      cases hWord'
      cases hSame
      exact ⟨rfl, rfl⟩
    · simp only [Shape.read, hSkip, if_neg hByte] at hRead
      obtain ⟨⟨a', t⟩, hTaken, hSame⟩ := bind_eq_ok_iff.mp hRead
      cases hSame
      obtain ⟨hEnd, hSpelled⟩ := hInner.spelled hPlain hWhole hTaken
      exact ⟨hEnd, by rw [ofSpelled_nullable hNull, hSpelled]; rfl⟩

/-- The items in order, taken one by one onto those before them. A reader gathers them
with the latest first, and turns them round in the end. -/
theorem mapM_eq_ok_iff_foldlM {f : Value → Except Mismatch α} {vs : List Value} {as : List α} :
    vs.mapM f = .ok as ↔
      vs.foldlM (fun as v => do return (← f v) :: as) [] = .ok as.reverse := by
  rw [List.mapM_eq_reverse_foldlM_cons]
  refine map_eq_ok_iff.trans ⟨?_, fun h => ⟨_, h, List.reverse_reverse as⟩⟩
  rintro ⟨found, hFound, rfl⟩
  rw [List.reverse_reverse]
  exact hFound

/-- The items of a list are read one after the other, as each of them is read by itself.
-/
theorem readsSpelled_list {item : Shape α} (hItem : item.ReadsSpelled) :
    (list item).ReadsSpelled where
  read {depth v s r as} hWhole hSpelled := by
    obtain ⟨o, t, hOpening, hRest⟩ := Value.rest_of_readDeep hWhole
    rw [Shape.read, Reader.byKind_of_opening _ hOpening]
    cases hRest with
    | array hItems =>
        have hClock := hItems.length_lt fun v s r => Value.length_lt_of_readDeep
        refine bind_eq_ok_iff.mpr
          ⟨_, hItems.run ?_ (by omega) (mapM_eq_ok_iff_foldlM.mp hSpelled), ?_⟩
        · intro v before after u w hHere hStep
          obtain ⟨a, hTaken, hSame⟩ := bind_eq_ok_iff.mp hStep
          exact bind_eq_ok_iff.mpr ⟨_, hItem.read hHere hTaken, by cases hSame; rfl⟩
        · simp only [List.reverse_reverse]
          rfl
    | _ => cases hSpelled
  spelled {depth v s r r' as} hPlain hWhole hRead := by
    obtain ⟨o, t, hOpening, hRest⟩ := Value.rest_of_readDeep hWhole
    rw [Shape.read, Reader.byKind_of_opening _ hOpening] at hRead
    have hRefused (x : List α × List UInt8) : (refusing listType).after o t ≠ .ok x :=
      refusing_after_ne listType o t
    cases hRest with
    | @array d _ _ _ hItems =>
        obtain ⟨⟨found, t'⟩, hRun, hSame⟩ := bind_eq_ok_iff.mp hRead
        cases hSame
        have hRound (v : Value) (before after : List α) (u w w' : List UInt8)
            (hHere : Value.readDeep d u = .ok (v, w))
            (hTurn : (item.read u >>= fun p => .ok (p.1 :: before, p.2)) = .ok (after, w')) :
            w' = w ∧ (do return (← item.ofSpelled v) :: before) = .ok after := by
          obtain ⟨⟨a, t'⟩, hTaken, hSame⟩ := bind_eq_ok_iff.mp hTurn
          cases hSame
          obtain ⟨hEnd, hSpelled⟩ := hItem.spelled hPlain hHere hTaken
          exact ⟨hEnd, bind_eq_ok_iff.mpr ⟨a, hSpelled, rfl⟩⟩
        obtain ⟨hEnd, hTaken⟩ := hItems.of_run hRun hRound
        exact ⟨hEnd, mapM_eq_ok_iff_foldlM.mpr (by rw [hTaken, List.reverse_reverse])⟩
    | _ => exact absurd hRead (hRefused _)

/-- A record is read from an object member by member, or from an array item by item. -/
theorem readsSpelled_record {name : String} {fields : Fields σ α}
    (hFields : fields.ReadsSpelled) : (record name fields).ReadsSpelled where
  read {depth v s r a} hWhole hSpelled := by
    obtain ⟨o, t, hOpening, hRest⟩ := Value.rest_of_readDeep hWhole
    rw [Shape.read, Reader.byKind_of_opening _ hOpening]
    cases hRest with
    | object hMembers =>
        obtain ⟨slots, hSlots, hFinish⟩ := bind_eq_ok_iff.mp hSpelled
        have hClock := hMembers.length_lt fun v s r => Value.length_lt_of_readDeep
        have hRun : Reader.members Literal.read (fun slots k => fields.readMember k slots) t true
            fields.blank t = .ok (slots, r) :=
          hMembers.run (fun _ _ _ hKey => hKey) (fun _ _ _ _ _ _ _ => hFields.readMember)
            (by omega) hSlots
        exact bind_eq_ok_iff.mpr
          ⟨_, hRun, bind_eq_ok_iff.mpr ⟨a, mismatched_eq_ok_iff.mpr hFinish, rfl⟩⟩
    | array hItems =>
        obtain ⟨⟨a', left⟩, hTaken, hSame⟩ := bind_eq_ok_iff.mp hSpelled
        simp only [List.isEmpty_iff] at hSame
        split_ifs at hSame with hLeft
        cases hSame
        subst hLeft
        obtain ⟨t', hRead, hClose⟩ := hFields.readItems hItems hTaken
        exact bind_eq_ok_iff.mpr ⟨_, hRead, bind_eq_ok_iff.mpr ⟨_, hClose, rfl⟩⟩
    | _ => cases hSpelled
  spelled {depth v s r r' a} hPlain hWhole hRead := by
    obtain ⟨o, t, hOpening, hRest⟩ := Value.rest_of_readDeep hWhole
    rw [Shape.read, Reader.byKind_of_opening _ hOpening] at hRead
    have hRefused (x : α × List UInt8) : (refusing (recordType name)).after o t ≠ .ok x :=
      refusing_after_ne (recordType name) o t
    cases hRest with
    | object hMembers =>
        obtain ⟨⟨slots, t'⟩, hRun, hRead⟩ := bind_eq_ok_iff.mp hRead
        obtain ⟨a', hFinish, hSame⟩ := bind_eq_ok_iff.mp hRead
        cases hSame
        obtain ⟨hEnd, hSlots⟩ :=
          hMembers.of_run hRun fun _ _ _ _ _ _ _ _ => hFields.spelledMember hPlain
        exact ⟨hEnd, bind_eq_ok_iff.mpr ⟨slots, hSlots, mismatched_eq_ok_iff.mp hFinish⟩⟩
    | array hItems =>
        obtain ⟨⟨a', t'⟩, hTaken, hRead⟩ := bind_eq_ok_iff.mp hRead
        obtain ⟨⟨_, r''⟩, hClose, hSame⟩ := bind_eq_ok_iff.mp hRead
        cases hSame
        obtain ⟨hEnd, hSpelled⟩ := hFields.spelledItems hPlain hItems hTaken hClose
        exact ⟨hEnd, bind_eq_ok_iff.mpr ⟨_, hSpelled, rfl⟩⟩
    | _ => exact absurd hRead (hRefused _)

end Shape

namespace Fields

theorem readsSpelled_done : done.ReadsSpelled where
  readMember {depth k v slots slots' s t r} hColon hWhole hSpelled := by
    cases hSpelled
    exact bind_eq_ok_iff.mpr ⟨_, hColon, Skip.value_of_readDeep hWhole⟩
  spelledMember {depth k v slots slots' s t r r'} _ hColon hWhole hRead := by
    obtain ⟨⟨_, t'⟩, hColon', hRead⟩ := bind_eq_ok_iff.mp hRead
    rw [hColon] at hColon'
    cases hColon'
    have hSame := (Skip.value_of_readDeep hWhole).symm.trans hRead
    cases hSame
    exact ⟨rfl, rfl⟩
  readItems {depth record total index vs s r a} hItems hSpelled := by
    cases hSpelled
    cases hItems with
    | close hNext hClose => exact ⟨s, rfl, by rw [Reader.closeItems_of_end hNext, hClose]⟩
  spelledItems {depth record total index vs s t r r' a} _ hItems hRead hClose := by
    cases hRead
    cases hItems with
    | close hNext hEnd =>
        rw [Reader.closeItems_of_end hNext, hEnd] at hClose
        cases hClose
        exact ⟨rfl, rfl⟩
    | item hNext hHere rest =>
        rw [Reader.closeItems_of_item hNext] at hClose
        cases hClose

section Field

variable {name record : String} {absence : Absence α} {shape : Shape α} {rest : Fields σ β}
  {total index : Nat} {s t : List UInt8}

/-- Where an item follows, a field is read from it and the other fields from what comes
next. -/
theorem readItems_of_item (h : Reader.nextItem (index == 0) s = .ok (true, t)) :
    (field name absence shape rest).readItems record total index s = do
      let (a, s) ← shape.read t
      let (b, s) ← rest.readItems record total (index + 1) s
      return ((a, b), s) := by
  simp only [Fields.readItems, h]
  rfl

/-- Where no item follows, a field has what stands for it in an array, or the array is
too short. -/
theorem readItems_of_end (h : Reader.nextItem (index == 0) s = .ok (false, t)) :
    (field name absence shape rest).readItems record total index s =
      match absence.inArray? with
      | some a => do
        let (b, s) ← rest.readItems record total (index + 1) t
        return ((a, b), s)
      | none => .error (.mismatch (.tooShort index record total)) := by
  simp only [Fields.readItems, h]
  cases absence.inArray? <;> rfl

theorem readItems_of_item_eq_ok_iff (h : Reader.nextItem (index == 0) s = .ok (true, t))
    {p : (α × β) × List UInt8} :
    (field name absence shape rest).readItems record total index s = .ok p ↔
      ∃ a u, shape.read t = .ok (a, u) ∧
        ∃ b r, rest.readItems record total (index + 1) u = .ok (b, r) ∧ ((a, b), r) = p := by
  simp [readItems_of_item h, bind_eq_ok_iff, pure, Except.pure]

theorem readItems_of_end_eq_ok_iff (h : Reader.nextItem (index == 0) s = .ok (false, t))
    {p : (α × β) × List UInt8} :
    (field name absence shape rest).readItems record total index s = .ok p ↔
      ∃ a, absence.inArray? = some a ∧
        ∃ b r, rest.readItems record total (index + 1) t = .ok (b, r) ∧ ((a, b), r) = p := by
  rw [readItems_of_end h]
  cases absence.inArray? <;> simp [bind_eq_ok_iff, pure, Except.pure]

theorem ofSpelledItems_cons_eq_ok_iff {v : Value} {vs : List Value}
    {p : (α × β) × List Value} :
    (field name absence shape rest).ofSpelledItems record total index (v :: vs) = .ok p ↔
      ∃ a, shape.ofSpelled v = .ok a ∧ ∃ b left,
        rest.ofSpelledItems record total (index + 1) vs = .ok (b, left) ∧ ((a, b), left) = p := by
  simp [ofSpelledItems, bind_eq_ok_iff, pure, Except.pure]

theorem ofSpelledItems_nil_eq_ok_iff {p : (α × β) × List Value} :
    (field name absence shape rest).ofSpelledItems record total index [] = .ok p ↔
      ∃ a, absence.inArray? = some a ∧ ∃ b left,
        rest.ofSpelledItems record total (index + 1) [] = .ok (b, left) ∧ ((a, b), left) = p := by
  rw [ofSpelledItems]
  cases absence.inArray? <;> simp [bind_eq_ok_iff, pure, Except.pure]

/-- Fields are read on the way as they are spelled, if the first one is and the others
are. This is the step of the induction on the fields. -/
theorem readsSpelled_field (hShape : shape.ReadsSpelled) (hRest : rest.ReadsSpelled) :
    (field name absence shape rest).ReadsSpelled where
  readMember {depth k v slots slots' s t r} hColon hWhole hSpelled := by
    obtain ⟨slot, slots⟩ := slots
    simp only [ofSpelledMember] at hSpelled
    simp only [Fields.readMember]
    split_ifs at hSpelled ⊢ with hName hFilled
    · obtain ⟨a, hTaken, rfl⟩ := map_eq_ok_iff.mp hSpelled
      exact bind_eq_ok_iff.mpr
        ⟨_, hColon, bind_eq_ok_iff.mpr ⟨_, hShape.read hWhole hTaken, rfl⟩⟩
    · obtain ⟨b, hTaken, rfl⟩ := map_eq_ok_iff.mp hSpelled
      exact bind_eq_ok_iff.mpr ⟨_, hRest.readMember hColon hWhole hTaken, rfl⟩
  spelledMember {depth k v slots slots' s t r r'} hPlain hColon hWhole hRead := by
    obtain ⟨slot, slots⟩ := slots
    simp only [Fields.readMember] at hRead
    simp only [ofSpelledMember]
    split_ifs at hRead ⊢ with hName hFilled
    · obtain ⟨⟨_, t'⟩, hColon', hRead⟩ := bind_eq_ok_iff.mp hRead
      rw [hColon] at hColon'
      cases hColon'
      obtain ⟨⟨a, t'⟩, hTaken, hSame⟩ := bind_eq_ok_iff.mp hRead
      cases hSame
      obtain ⟨hEnd, hSpelled⟩ := hShape.spelled hPlain.1 hWhole hTaken
      exact ⟨hEnd, map_eq_ok_iff.mpr ⟨a, hSpelled, rfl⟩⟩
    · obtain ⟨⟨b, t'⟩, hTaken, hSame⟩ := bind_eq_ok_iff.mp hRead
      cases hSame
      obtain ⟨hEnd, hSpelled⟩ := hRest.spelledMember hPlain.2 hColon hWhole hTaken
      exact ⟨hEnd, map_eq_ok_iff.mpr ⟨b, hSpelled, rfl⟩⟩
  readItems {depth record total index vs s r a} hItems hSpelled := by
    cases hItems with
    | @close _ _ t _ hNext hClose =>
        obtain ⟨a, hAbsent, b, left, hTaken, hSame⟩ := ofSpelledItems_nil_eq_ok_iff.mp hSpelled
        cases hSame
        have hNone : Items (fun v s r => Value.readDeep depth s = .ok (v, r)) (index + 1 == 0)
            [] t r := .close (Reader.nextItem_of_end hNext _) hClose
        obtain ⟨u, hRead, hEnd⟩ := hRest.readItems hNone hTaken
        exact ⟨u, (readItems_of_end_eq_ok_iff hNext).mpr ⟨a, hAbsent, b, u, hRead, rfl⟩, hEnd⟩
    | @item _ v vs _ t u _ hNext hHere hItems =>
        obtain ⟨a, hFirst, b, left, hTaken, hSame⟩ := ofSpelledItems_cons_eq_ok_iff.mp hSpelled
        cases hSame
        obtain ⟨w, hRead, hEnd⟩ := hRest.readItems hItems hTaken
        exact ⟨w, (readItems_of_item_eq_ok_iff hNext).mpr
          ⟨a, u, hShape.read hHere hFirst, b, w, hRead, rfl⟩, hEnd⟩
  spelledItems {depth record total index vs s t r r' a} hPlain hItems hRead hClose := by
    cases hItems with
    | @close _ _ t' _ hNext hEnd =>
        obtain ⟨a, hAbsent, b, u, hTaken, hSame⟩ := (readItems_of_end_eq_ok_iff hNext).mp hRead
        cases hSame
        have hNone : Items (fun v s r => Value.readDeep depth s = .ok (v, r)) (index + 1 == 0)
            [] t' r := .close (Reader.nextItem_of_end hNext _) hEnd
        obtain ⟨hSame, hSpelled⟩ := hRest.spelledItems hPlain.2 hNone hTaken hClose
        exact ⟨hSame, ofSpelledItems_nil_eq_ok_iff.mpr ⟨a, hAbsent, b, [], hSpelled, rfl⟩⟩
    | @item _ v vs _ t' u _ hNext hHere hItems =>
        obtain ⟨a, u', hFirst, b, w, hTaken, hSame⟩ := (readItems_of_item_eq_ok_iff hNext).mp hRead
        cases hSame
        obtain ⟨rfl, hSpelled⟩ := hShape.spelled hPlain.1 hHere hFirst
        obtain ⟨hEnd, hSpelledRest⟩ := hRest.spelledItems hPlain.2 hItems hTaken hClose
        exact ⟨hEnd, ofSpelledItems_cons_eq_ok_iff.mpr
          ⟨a, hSpelled, b, [], hSpelledRest, rfl⟩⟩

end Field

end Fields

mutual

/-- Wherever a whole value can be read, reading on the way comes to what is
spelled. -/
theorem Shape.readsSpelled : {α : Type} → (shape : Shape α) → shape.ReadsSpelled
  | _, .seconds => Shape.readsSpelled_seconds
  | _, .whole typeName limit => Shape.readsSpelled_whole typeName limit
  | _, .text typeName => Shape.readsSpelled_text typeName
  | _, .choice choices name found => Shape.readsSpelled_choice choices name found
  | _, .list item => Shape.readsSpelled_list item.readsSpelled
  | _, .nullable inner => Shape.readsSpelled_nullable inner.readsSpelled
  | _, .record _ fields => Shape.readsSpelled_record fields.readsSpelled
  | _, .view _ _ inner _ => Shape.readsSpelled_view inner.readsSpelled

/-- By induction on the fields of a record, all of them are read as they are spelled. -/
theorem Fields.readsSpelled : {σ α : Type} → (fields : Fields σ α) → fields.ReadsSpelled
  | _, _, .done => Fields.readsSpelled_done
  | _, _, .field _ _ shape rest => Fields.readsSpelled_field shape.readsSpelled rest.readsSpelled

end

end RoughCut.Json
