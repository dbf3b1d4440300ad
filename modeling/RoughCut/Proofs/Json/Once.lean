import RoughCut.Proofs.Json.Dictionary
import RoughCut.Proofs.Json.Spelled

/-!
What is spelled against what is taken from the whole. A value taken as it is
spelled is the value taken from the whole, and where no field is spelled twice the
two agree (`Shape.spelledAsWhole`).
-/

namespace RoughCut.Json

variable {σ α β : Type}

mutual

/-- No record in the value spells a field twice. -/
def Shape.Once : {α : Type} → Shape α → Value → Prop
  | _, .seconds, _ => True
  | _, .whole _ _, _ => True
  | _, .text _, _ => True
  | _, .choice _ _ _, _ => True
  | _, .list item, v =>
    match v with
    | .array vs => ∀ v ∈ vs, item.Once v
    | _ => True
  | _, .nullable inner, v => inner.Once v
  | _, .record _ fields, v =>
    match v with
    | .object ms => fields.OnceIn ms
    | .array vs => fields.OnceAmong vs
    | _ => True
  | _, .view _ _ inner _, v => inner.Once v

/-- The same of the members of an object. -/
def Fields.OnceIn : {σ α : Type} → Fields σ α → List (String × Value) → Prop
  | _, _, .done, _ => True
  | _, _, .field name _ shape rest, ms =>
    (valuesOf name ms).length ≤ 1 ∧ (∀ v ∈ valuesOf name ms, shape.Once v) ∧
      rest.OnceIn (without name ms)

/-- The same of the items of an array that is taken for a record. -/
def Fields.OnceAmong : {σ α : Type} → Fields σ α → List Value → Prop
  | _, _, .done, _ => True
  | _, _, .field _ _ shape rest, vs =>
    match vs with
    | [] => True
    | v :: vs => shape.Once v ∧ rest.OnceAmong vs

end

structure Shape.SpelledAsWhole (shape : Shape α) : Prop where
  whole {v : Value} {a : α} (h : shape.ofSpelled v = .ok a) : shape.ofValue v = .ok a
  spelled {v : Value} {a : α} (hOnce : shape.Once v) (h : shape.ofValue v = .ok a) :
    shape.ofSpelled v = .ok a

structure Fields.SpelledAsWhole (fields : Fields σ α) : Prop where
  wholeMembers {ds ms : List (String × Value)} {slots : σ} (hLatest : Latest ds ms)
    (h : ms.foldlM (fun slots (k, v) => fields.ofSpelledMember k v slots) fields.blank =
      .ok slots) :
    ds.foldlM (fun slots (k, v) => fields.ofMember k v slots) fields.blank = .ok slots
  spelledMembers {ds ms : List (String × Value)} {slots : σ} (hLatest : Latest ds ms)
    (hOnce : fields.OnceIn ms)
    (h : ds.foldlM (fun slots (k, v) => fields.ofMember k v slots) fields.blank = .ok slots) :
    ms.foldlM (fun slots (k, v) => fields.ofSpelledMember k v slots) fields.blank = .ok slots
  wholeItems {record : String} {total index : Nat} {vs left : List Value} {a : α}
    (h : fields.ofSpelledItems record total index vs = .ok (a, left)) :
    fields.ofItems record total index vs = .ok (a, left)
  spelledItems {record : String} {total index : Nat} {vs left : List Value} {a : α}
    (hOnce : fields.OnceAmong vs)
    (h : fields.ofItems record total index vs = .ok (a, left)) :
    fields.ofSpelledItems record total index vs = .ok (a, left)

/-- Items that are taken in one way are taken in another, if this holds of each of them
by itself. -/
theorem mapM_eq_ok_of_forall {f g : Value → Except Mismatch α} {vs : List Value} {as : List α}
    (h : vs.mapM f = .ok as) (hImp : ∀ v ∈ vs, ∀ a, f v = .ok a → g v = .ok a) :
    vs.mapM g = .ok as := by
  induction vs generalizing as with
  | nil => exact h
  | cons v vs ih =>
      rw [List.mapM_cons] at h ⊢
      obtain ⟨a, hFirst, h⟩ := bind_eq_ok_iff.mp h
      obtain ⟨as', hRest, hSame⟩ := bind_eq_ok_iff.mp h
      cases hSame
      have hRest := ih hRest fun w hw => hImp w (List.mem_cons_of_mem v hw)
      exact bind_eq_ok_iff.mpr
        ⟨a, hImp v List.mem_cons_self a hFirst, bind_eq_ok_iff.mpr ⟨as', hRest, rfl⟩⟩

/-- A member acts on the slot of its field or on the slots of the others, so going
through all members is going through those of the field and through the rest. -/
theorem foldlM_members {τ : Type} {name : String}
    (step : σ × τ → String → Value → Except Mismatch (σ × τ))
    (own : σ → Value → Except Mismatch σ) (other : τ → String → Value → Except Mismatch τ)
    (hOwn : ∀ slot slots v, step (slot, slots) name v = (own slot v).map fun s => (s, slots))
    (hOther : ∀ slot slots k v, k ≠ name →
      step (slot, slots) k v = (other slots k v).map fun t => (slot, t))
    {ms : List (String × Value)} {slot slot' : σ} {slots slots' : τ} :
    ms.foldlM (fun s (k, v) => step s k v) (slot, slots) = .ok (slot', slots') ↔
      (valuesOf name ms).foldlM own slot = .ok slot' ∧
        (without name ms).foldlM (fun t (k, v) => other t k v) slots = .ok slots' := by
  induction ms generalizing slot slots with
  | nil => simp [without, pure, Except.pure]
  | cons m ms ih =>
      obtain ⟨k, v⟩ := m
      by_cases hName : k = name
      · subst hName
        simp only [valuesOf_cons_self, without_cons_self, List.foldlM_cons, hOwn]
        cases own slot v with
        | error m => simp [Except.map, bind, Except.bind]
        | ok s => exact ih
      · simp only [valuesOf_cons_of_ne hName, without_cons_of_ne hName, List.foldlM_cons,
          hOther slot slots k v hName]
        cases other slots k v with
        | error m => simp [Except.map, bind, Except.bind]
        | ok t => exact ih

namespace Shape

theorem spelledAsWhole_list {item : Shape α} (hItem : item.SpelledAsWhole) :
    (list item).SpelledAsWhole where
  whole {v as} h := by
    cases v with
    | array vs => exact mapM_eq_ok_of_forall h fun v _ a hTaken => hItem.whole hTaken
    | _ => cases h
  spelled {v as} hOnce h := by
    cases v with
    | array vs =>
        exact mapM_eq_ok_of_forall h fun v hv a hTaken => hItem.spelled (hOnce v hv) hTaken
    | _ => cases h

theorem ofValue_nullable {inner : Shape α} {v : Value} (h : v ≠ .null) :
    (nullable inner).ofValue v = (inner.ofValue v).map some := by
  cases v with
  | null => exact absurd rfl h
  | _ => rfl

/-- Null is null on both ways, and what is not null is taken as if it were not allowed. -/
theorem spelledAsWhole_nullable {inner : Shape α} (hInner : inner.SpelledAsWhole) :
    (nullable inner).SpelledAsWhole where
  whole {v a} h := by
    by_cases hNull : v = .null
    · subst hNull
      exact h
    · rw [ofSpelled_nullable hNull] at h
      obtain ⟨a', hTaken, rfl⟩ := map_eq_ok_iff.mp h
      rw [ofValue_nullable hNull, hInner.whole hTaken]
      rfl
  spelled {v a} hOnce h := by
    by_cases hNull : v = .null
    · subst hNull
      exact h
    · rw [ofValue_nullable hNull] at h
      obtain ⟨a', hTaken, rfl⟩ := map_eq_ok_iff.mp h
      rw [ofSpelled_nullable hNull, hInner.spelled hOnce hTaken]
      rfl

theorem spelledAsWhole_view {toView : α → β} {ofView : β → α} {inner : Shape α}
    {same : ∀ b, toView (ofView b) = b} (hInner : inner.SpelledAsWhole) :
    (view toView ofView inner same).SpelledAsWhole where
  whole {v b} h := by
    obtain ⟨a, hTaken, rfl⟩ := map_eq_ok_iff.mp h
    exact map_eq_ok_iff.mpr ⟨a, hInner.whole hTaken, rfl⟩
  spelled {v b} hOnce h := by
    obtain ⟨a, hTaken, rfl⟩ := map_eq_ok_iff.mp h
    exact map_eq_ok_iff.mpr ⟨a, hInner.spelled hOnce hTaken, rfl⟩

/-- A record is taken from an object or an array on both ways, if its fields are. -/
theorem spelledAsWhole_record {name : String} {fields : Fields σ α}
    (hFields : fields.SpelledAsWhole) : (record name fields).SpelledAsWhole where
  whole {v a} h := by
    cases v with
    | object ms =>
        obtain ⟨slots, hSlots, hFinish⟩ := bind_eq_ok_iff.mp h
        exact bind_eq_ok_iff.mpr
          ⟨slots, hFields.wholeMembers (Value.latest_dictionary ms) hSlots, hFinish⟩
    | array vs =>
        obtain ⟨⟨b, left⟩, hTaken, hLeft⟩ := bind_eq_ok_iff.mp h
        exact bind_eq_ok_iff.mpr ⟨(b, left), hFields.wholeItems hTaken, hLeft⟩
    | _ => cases h
  spelled {v a} hOnce h := by
    cases v with
    | object ms =>
        obtain ⟨slots, hSlots, hFinish⟩ := bind_eq_ok_iff.mp h
        exact bind_eq_ok_iff.mpr
          ⟨slots, hFields.spelledMembers (Value.latest_dictionary ms) hOnce hSlots, hFinish⟩
    | array vs =>
        obtain ⟨⟨b, left⟩, hTaken, hLeft⟩ := bind_eq_ok_iff.mp h
        exact bind_eq_ok_iff.mpr ⟨(b, left), hFields.spelledItems hOnce hTaken, hLeft⟩
    | _ => cases h

end Shape

namespace Fields

section Slot

variable {name : String} {f g : Value → Except Mismatch α} {vs : List Value} {slot slot' : Option α}

/-- Fills the slot of a field that is still open. -/
def fill (name : String) (f : Value → Except Mismatch α) (slot : Option α) (v : Value) :
    Except Mismatch (Option α) :=
  if slot.isSome then .error (.repeated name) else (f v).map some

/-- Fills the slot of a field, whatever was there. -/
def refill (f : Value → Except Mismatch α) (_ : Option α) (v : Value) :
    Except Mismatch (Option α) :=
  (f v).map some

/-- A field that is filled without a refusal was spelled once at most. A second value
finds the field filled and is refused as a duplicate. -/
theorem length_le_of_fill (h : vs.foldlM (fill name f) none = .ok slot) : vs.length ≤ 1 := by
  match vs, h with
  | [], _ => exact Nat.zero_le _
  | [v], _ => exact Nat.le_refl _
  | v :: w :: vs, h =>
      obtain ⟨filled, hFirst, h⟩ := bind_eq_ok_iff.mp h
      obtain ⟨a, _, rfl⟩ := map_eq_ok_iff.mp hFirst
      cases h

/-- Where a field is spelled once at most, it makes no difference whether a second value
would be refused or put in its place. -/
theorem foldlM_fill (hLength : vs.length ≤ 1) :
    vs.foldlM (fill name f) none = vs.foldlM (refill f) none := by
  match vs, hLength with
  | [], _ => rfl
  | [v], _ => rfl

/-- Values that fill a field in one way fill it in another, if this holds of each of
them by itself. -/
theorem foldlM_refill (h : vs.foldlM (refill f) slot = .ok slot')
    (hImp : ∀ v ∈ vs, ∀ a, f v = .ok a → g v = .ok a) :
    vs.foldlM (refill g) slot = .ok slot' := by
  induction vs generalizing slot with
  | nil => exact h
  | cons v vs ih =>
      obtain ⟨filled, hFirst, h⟩ := bind_eq_ok_iff.mp h
      obtain ⟨a, hTaken, hFilled⟩ := map_eq_ok_iff.mp hFirst
      have hFirst := map_eq_ok_iff.mpr ⟨a, hImp v List.mem_cons_self a hTaken, hFilled⟩
      exact bind_eq_ok_iff.mpr
        ⟨filled, hFirst, ih h fun w hw => hImp w (List.mem_cons_of_mem v hw)⟩

end Slot

section Field

variable {name : String} {absence : Absence α} {shape : Shape α} {rest : Fields σ β}

/-- The members for a field and those for the other fields are taken independently of
each other, where a later value takes the place of an earlier one. -/
theorem foldlM_ofMember {ms : List (String × Value)} {slot slot' : Option α} {slots slots' : σ} :
    ms.foldlM (fun s (k, v) => (field name absence shape rest).ofMember k v s) (slot, slots) =
        .ok (slot', slots') ↔
      (valuesOf name ms).foldlM (refill shape.ofValue) slot = .ok slot' ∧
        (without name ms).foldlM (fun s (k, v) => rest.ofMember k v s) slots = .ok slots' := by
  refine foldlM_members (fun s k v => (field name absence shape rest).ofMember k v s)
    (refill shape.ofValue) (fun s k v => rest.ofMember k v s) ?_ ?_
  · intro slot slots v
    rw [ofMember, if_pos rfl, refill]
    cases shape.ofValue v <;> rfl
  · intro slot slots k v hName
    rw [ofMember, if_neg hName]

/-- The members for a field and those for the other fields are taken independently of
each other, where a second value is refused. -/
theorem foldlM_ofSpelledMember {ms : List (String × Value)} {slot slot' : Option α}
    {slots slots' : σ} :
    ms.foldlM (fun s (k, v) => (field name absence shape rest).ofSpelledMember k v s)
        (slot, slots) = .ok (slot', slots') ↔
      (valuesOf name ms).foldlM (fill name shape.ofSpelled) slot = .ok slot' ∧
        (without name ms).foldlM (fun s (k, v) => rest.ofSpelledMember k v s) slots =
          .ok slots' := by
  refine foldlM_members (fun s k v => (field name absence shape rest).ofSpelledMember k v s)
    (fill name shape.ofSpelled) (fun s k v => rest.ofSpelledMember k v s) ?_ ?_
  · intro slot slots v
    rw [ofSpelledMember, if_pos rfl, fill]
    split_ifs
    · rfl
    · cases shape.ofSpelled v <;> rfl
  · intro slot slots k v hName
    rw [ofSpelledMember, if_neg hName]

theorem onceAmong_nil (fields : Fields σ α) : fields.OnceAmong [] := by
  cases fields <;> trivial

theorem ofItems_cons_eq_ok_iff {record : String} {total index : Nat} {v : Value}
    {vs : List Value} {p : (α × β) × List Value} :
    (field name absence shape rest).ofItems record total index (v :: vs) = .ok p ↔
      ∃ a, shape.ofValue v = .ok a ∧ ∃ b left,
        rest.ofItems record total (index + 1) vs = .ok (b, left) ∧ ((a, b), left) = p := by
  simp [ofItems, bind_eq_ok_iff, pure, Except.pure]

theorem ofItems_nil_eq_ok_iff {record : String} {total index : Nat}
    {p : (α × β) × List Value} :
    (field name absence shape rest).ofItems record total index [] = .ok p ↔
      ∃ a, absence.inArray? = some a ∧ ∃ b left,
        rest.ofItems record total (index + 1) [] = .ok (b, left) ∧ ((a, b), left) = p := by
  rw [ofItems]
  cases absence.inArray? <;> simp [bind_eq_ok_iff, pure, Except.pure]

/-- Fields are taken alike on both ways, if the first one is and the others are. This is
the step of the induction on the fields. -/
theorem spelledAsWhole_field (hShape : shape.SpelledAsWhole) (hRest : rest.SpelledAsWhole) :
    (field name absence shape rest).SpelledAsWhole where
  wholeMembers {ds ms slots} hLatest h := by
    obtain ⟨slot, slots⟩ := slots
    obtain ⟨hOwn, hOthers⟩ := foldlM_ofSpelledMember.mp h
    have hLength := length_le_of_fill hOwn
    rw [foldlM_fill hLength, ← hLatest.valuesOf_eq hLength] at hOwn
    exact foldlM_ofMember.mpr ⟨foldlM_refill hOwn fun v _ a hTaken => hShape.whole hTaken,
      hRest.wholeMembers (hLatest.without name) hOthers⟩
  spelledMembers {ds ms slots} hLatest hOnce h := by
    obtain ⟨slot, slots⟩ := slots
    obtain ⟨hLength, hInside, hOnceRest⟩ := hOnce
    obtain ⟨hOwn, hOthers⟩ := foldlM_ofMember.mp h
    rw [hLatest.valuesOf_eq hLength] at hOwn
    have hOwn := foldlM_refill hOwn fun v hv a hTaken => hShape.spelled (hInside v hv) hTaken
    rw [← foldlM_fill hLength] at hOwn
    exact foldlM_ofSpelledMember.mpr
      ⟨hOwn, hRest.spelledMembers (hLatest.without name) hOnceRest hOthers⟩
  wholeItems {record total index vs left a} h := by
    cases vs with
    | nil =>
        obtain ⟨a, hAbsent, b, left, hTaken, hSame⟩ := ofSpelledItems_nil_eq_ok_iff.mp h
        exact ofItems_nil_eq_ok_iff.mpr ⟨a, hAbsent, b, left, hRest.wholeItems hTaken, hSame⟩
    | cons v vs =>
        obtain ⟨a, hFirst, b, left, hTaken, hSame⟩ := ofSpelledItems_cons_eq_ok_iff.mp h
        exact ofItems_cons_eq_ok_iff.mpr
          ⟨a, hShape.whole hFirst, b, left, hRest.wholeItems hTaken, hSame⟩
  spelledItems {record total index vs left a} hOnce h := by
    cases vs with
    | nil =>
        obtain ⟨a, hAbsent, b, left, hTaken, hSame⟩ := ofItems_nil_eq_ok_iff.mp h
        have hSpelled := hRest.spelledItems rest.onceAmong_nil hTaken
        exact ofSpelledItems_nil_eq_ok_iff.mpr ⟨a, hAbsent, b, left, hSpelled, hSame⟩
    | cons v vs =>
        obtain ⟨a, hFirst, b, left, hTaken, hSame⟩ := ofItems_cons_eq_ok_iff.mp h
        exact ofSpelledItems_cons_eq_ok_iff.mpr
          ⟨a, hShape.spelled hOnce.1 hFirst, b, left, hRest.spelledItems hOnce.2 hTaken, hSame⟩

end Field

theorem spelledAsWhole_done : done.SpelledAsWhole where
  wholeMembers _ _ := List.foldlM_pure (f := fun () _ => ())
  spelledMembers _ _ _ := List.foldlM_pure (f := fun () _ => ())
  wholeItems h := h
  spelledItems _ h := h

end Fields

mutual

/-- A value taken as it is spelled is the value taken from the whole, and where no
field is spelled twice what is taken from the whole is spelled. -/
theorem Shape.spelledAsWhole : {α : Type} → (shape : Shape α) → shape.SpelledAsWhole
  | _, .seconds => ⟨fun h => h, fun _ h => h⟩
  | _, .whole _ _ => ⟨fun h => h, fun _ h => h⟩
  | _, .text _ => ⟨fun h => h, fun _ h => h⟩
  | _, .choice _ _ _ => ⟨fun h => h, fun _ h => h⟩
  | _, .list item => Shape.spelledAsWhole_list item.spelledAsWhole
  | _, .nullable inner => Shape.spelledAsWhole_nullable inner.spelledAsWhole
  | _, .record _ fields => Shape.spelledAsWhole_record fields.spelledAsWhole
  | _, .view _ _ inner _ => Shape.spelledAsWhole_view inner.spelledAsWhole

/-- By induction on the fields of a record, all of them are taken alike on both ways. -/
theorem Fields.spelledAsWhole : {σ α : Type} → (fields : Fields σ α) → fields.SpelledAsWhole
  | _, _, .done => Fields.spelledAsWhole_done
  | _, _, .field _ _ shape rest =>
    Fields.spelledAsWhole_field shape.spelledAsWhole rest.spelledAsWhole

end

/-- A text that is a value as a whole is read as that value, and nothing but blanks is
left. -/
theorem Value.readDeep_of_parse {text : String} {v : Value} (h : Value.parse text = .ok v) :
    ∃ r, Value.readDeep Value.depthLimit (Text.Utf8.encode text) = .ok (v, r) ∧
      Reader.skipBlanks r = [] := by
  obtain ⟨⟨v', r⟩, hWhole, h⟩ := bind_eq_ok_iff.mp h
  simp only at h
  split_ifs at h with hEnd
  cases h
  exact ⟨r, hWhole, hEnd⟩

namespace Shape

variable {shape : Shape α} {text : String} {v : Value} {a b : α}

/-- What is read on the way from a text that can be read as a whole is what is
taken from the whole. -/
theorem ofValue_of_readFront (hPlain : shape.Plain) (hParse : Value.parse text = .ok v)
    (hRead : shape.readFront (Text.Utf8.encode text) = .ok a) : shape.ofValue v = .ok a := by
  obtain ⟨r, hWhole, _⟩ := Value.readDeep_of_parse hParse
  obtain ⟨⟨a', r'⟩, hFront, rfl⟩ := map_eq_ok_iff.mp hRead
  obtain ⟨_, hSpelled⟩ := shape.readsSpelled.spelled hPlain hWhole hFront
  exact shape.spelledAsWhole.whole hSpelled

/-- What can be taken from a whole value that spells no field twice can be read on
the way. -/
theorem readText_of_ofValue (hOnce : shape.Once v) (hParse : Value.parse text = .ok v)
    (hTaken : shape.ofValue v = .ok a) : shape.readText text = .ok a := by
  obtain ⟨r, hWhole, hEnd⟩ := Value.readDeep_of_parse hParse
  have hSpelled := shape.spelledAsWhole.spelled hOnce hTaken
  have hRead := shape.readsSpelled.read hWhole hSpelled
  exact bind_eq_ok_iff.mpr ⟨(a, r), hRead, if_pos hEnd⟩

/-- What can be read of a whole text can be read at the front of it. Fields that are
spelled twice are the one thing in which the two ways differ. -/
theorem readFront_of_readText (h : shape.readText text = .ok a) :
    shape.readFront (Text.Utf8.encode text) = .ok a := by
  obtain ⟨⟨a', r⟩, hRead, h⟩ := bind_eq_ok_iff.mp h
  simp only at h
  split_ifs at h
  cases h
  exact map_eq_ok_iff.mpr ⟨(a, r), hRead, rfl⟩

end Shape

end RoughCut.Json
