import RoughCut.Proofs.Json.Once

/-!
The times in what is taken or read. What holds of all numbers that can be read, and
of the times that stand for fields that are left out, holds of all times in a value
of a shape, on whichever way it has come out of a text (`Shape.keepsTimes`).
-/

namespace RoughCut.Json

variable {σ α β : Type} {P : Seconds → Prop}

/-- `P` holds of all numbers in the value as times. -/
inductive Value.AllTimes (P : Seconds → Prop) : Value → Prop where
  | null : AllTimes P .null
  | boolean (b : Bool) : AllTimes P (.boolean b)
  | number {n : Number} (h : P n.toSeconds) : AllTimes P (.number n)
  | text (s : String) : AllTimes P (.text s)
  | array {vs : List Value} (h : ∀ v ∈ vs, AllTimes P v) : AllTimes P (.array vs)
  | object {ms : List (String × Value)} (h : ∀ m ∈ ms, AllTimes P m.2) : AllTimes P (.object ms)

mutual

/-- `P` holds of all times in a value of the shape, which is seen as the view of one
of which this is known. -/
def Shape.AllTimes (P : Seconds → Prop) : {α : Type} → Shape α → α → Prop
  | _, .seconds, x => P x
  | _, .whole _ _, _ => True
  | _, .text _, _ => True
  | _, .choice _ _ _, _ => True
  | _, .list item, as => ∀ a ∈ as, item.AllTimes P a
  | _, .nullable inner, a => ∀ b ∈ a, inner.AllTimes P b
  | _, .record _ fields, a => fields.AllTimes P a
  | _, .view toView _ inner _, b => ∃ a, toView a = b ∧ inner.AllTimes P a

def Fields.AllTimes (P : Seconds → Prop) : {σ α : Type} → Fields σ α → α → Prop
  | _, _, .done, _ => True
  | _, _, .field _ _ shape rest, (a, b) => shape.AllTimes P a ∧ rest.AllTimes P b

end

/-- `P` holds of all times in the fields that are complete. -/
def Fields.SlotTimes (P : Seconds → Prop) : {σ α : Type} → Fields σ α → σ → Prop
  | _, _, .done, _ => True
  | _, _, .field _ _ shape rest, (slot, slots) =>
    (∀ a ∈ slot, shape.AllTimes P a) ∧ rest.SlotTimes P slots

mutual

/-- `P` holds of all times that stand for fields that are left out. -/
def Shape.DefaultTimes (P : Seconds → Prop) : {α : Type} → Shape α → Prop
  | _, .seconds => True
  | _, .whole _ _ => True
  | _, .text _ => True
  | _, .choice _ _ _ => True
  | _, .list item => item.DefaultTimes P
  | _, .nullable inner => inner.DefaultTimes P
  | _, .record _ fields => fields.DefaultTimes P
  | _, .view _ _ inner _ => inner.DefaultTimes P

def Fields.DefaultTimes (P : Seconds → Prop) : {σ α : Type} → Fields σ α → Prop
  | _, _, .done => True
  | _, _, .field _ absence shape rest =>
    (∀ a ∈ absence.inObject?, shape.AllTimes P a) ∧ shape.DefaultTimes P ∧ rest.DefaultTimes P

end

/-- `P` holds of every number that can be read. -/
def Number.ReadWith (P : Seconds → Prop) : Prop :=
  ∀ negative s n r, Number.read negative s = .ok (n, r) → P n.toSeconds

/-- What is taken from a value or read on the way has only times of which `P` holds. -/
structure Shape.KeepsTimes (P : Seconds → Prop) (shape : Shape α) : Prop where
  taken {v : Value} {a : α} (hValue : v.AllTimes P) (h : shape.ofValue v = .ok a) :
    shape.AllTimes P a
  read {s r : List UInt8} {a : α} (h : shape.read s = .ok (a, r)) : shape.AllTimes P a

/-- The same of the fields of a record, in an object and in an array. -/
structure Fields.KeepTimes (P : Seconds → Prop) (fields : Fields σ α) : Prop where
  takenMember {k : String} {v : Value} {slots slots' : σ} (hValue : v.AllTimes P)
    (hSlots : fields.SlotTimes P slots) (h : fields.ofMember k v slots = .ok slots') :
    fields.SlotTimes P slots'
  takenItems {record : String} {total index : Nat} {vs left : List Value} {a : α}
    (hValues : ∀ v ∈ vs, v.AllTimes P)
    (h : fields.ofItems record total index vs = .ok (a, left)) : fields.AllTimes P a
  readMember {k : String} {slots slots' : σ} {s r : List UInt8}
    (hSlots : fields.SlotTimes P slots) (h : fields.readMember k slots s = .ok (slots', r)) :
    fields.SlotTimes P slots'
  readItems {record : String} {total index : Nat} {s r : List UInt8} {a : α}
    (h : fields.readItems record total index s = .ok (a, r)) : fields.AllTimes P a

/-! What each step keeps, all of them keep. -/

/-- What each step keeps is kept by all steps together, provided that all of them
succeed. -/
theorem foldlM_keeps {ε γ : Type} {f : σ → γ → Except ε σ} {K : σ → Prop} {l : List γ} {s s' : σ}
    (hStep : ∀ c ∈ l, ∀ s s', K s → f s c = .ok s' → K s') (hStart : K s)
    (h : l.foldlM f s = .ok s') : K s' := by
  induction l generalizing s with
  | nil =>
      cases h
      exact hStart
  | cons c l ih =>
      obtain ⟨s₁, hFirst, h⟩ := bind_eq_ok_iff.mp h
      refine ih (fun c hc => hStep c (List.mem_cons_of_mem _ hc)) ?_ h
      exact hStep c List.mem_cons_self s s₁ hStart hFirst

/-- Each result of a pass over a list comes from one of its elements. -/
theorem exists_of_mem_mapM {ε γ : Type} {f : γ → Except ε α} {l : List γ} {as : List α} {a : α}
    (h : l.mapM f = .ok as) (ha : a ∈ as) : ∃ c ∈ l, f c = .ok a := by
  induction l generalizing as with
  | nil =>
      cases h
      cases ha
  | cons c l ih =>
      rw [List.mapM_cons] at h
      obtain ⟨b, hFirst, h⟩ := bind_eq_ok_iff.mp h
      obtain ⟨bs, hRest, hSame⟩ := bind_eq_ok_iff.mp h
      cases hSame
      rcases List.mem_cons.mp ha with rfl | hLater
      · exact ⟨c, List.mem_cons_self, hFirst⟩
      · obtain ⟨d, hd, hTaken⟩ := ih hRest hLater
        exact ⟨d, List.mem_cons_of_mem _ hd, hTaken⟩

namespace Reader

variable {K : σ → Prop} {clock s r : List UInt8} {first : Bool} {acc acc' : σ}

/-- What the reader of each item keeps is kept by the reader of all of them. -/
theorem items_keeps {item : σ → Reader σ}
    (hItem : ∀ acc s acc' r, K acc → item acc s = .ok (acc', r) → K acc')
    (hStart : K acc) (h : items item clock first acc s = .ok (acc', r)) : K acc' := by
  induction clock generalizing first acc s with
  | nil => cases h
  | cons tick clock ih =>
      obtain ⟨⟨more, t⟩, -, h⟩ := bind_eq_ok_iff.mp h
      cases more with
      | true =>
          obtain ⟨⟨acc₁, u⟩, hHere, h⟩ := bind_eq_ok_iff.mp h
          exact ih (hItem acc t acc₁ u hStart hHere) h
      | false =>
          obtain ⟨⟨_, u⟩, -, hSame⟩ := bind_eq_ok_iff.mp h
          cases hSame
          exact hStart

theorem members_keeps {κ : Type} {key : Reader κ} {member : σ → κ → Reader σ}
    (hMember : ∀ acc k s acc' r, K acc → member acc k s = .ok (acc', r) → K acc')
    (hStart : K acc) (h : members key member clock first acc s = .ok (acc', r)) :
    K acc' := by
  induction clock generalizing first acc s with
  | nil => cases h
  | cons tick clock ih =>
      obtain ⟨⟨more, t⟩, -, h⟩ := bind_eq_ok_iff.mp h
      cases more with
      | true =>
          obtain ⟨⟨k, u⟩, -, h⟩ := bind_eq_ok_iff.mp h
          obtain ⟨⟨acc₁, w⟩, hHere, h⟩ := bind_eq_ok_iff.mp h
          exact ih (hMember acc k u acc₁ w hStart hHere) h
      | false =>
          cases h
          exact hStart

end Reader

/-! Values. -/

theorem Latest.mem {ds ms : List (String × Value)} (h : Latest ds ms) {m : String × Value}
    (hMem : m ∈ ds) : m ∈ ms := by
  have hValue := mem_valuesOf.mpr hMem
  rw [h, Option.mem_toList] at hValue
  exact mem_valuesOf.mp (List.mem_of_getLast? hValue)

theorem Items.exists_of_mem {Item : α → List UInt8 → List UInt8 → Prop} {first : Bool}
    {as : List α} {s r : List UInt8} (h : Items Item first as s r) :
    ∀ a ∈ as, ∃ t u, Item a t u := by
  induction h with
  | close hNext hClose => simp
  | item hNext hItem rest ih => exact List.forall_mem_cons.mpr ⟨⟨_, _, hItem⟩, ih⟩

theorem Members.exists_of_mem {Member : α → List UInt8 → List UInt8 → Prop} {first : Bool}
    {ms : List (String × α)} {s r : List UInt8} (h : Members Member first ms s r) :
    ∀ m ∈ ms, ∃ t u, Member m.2 t u := by
  induction h with
  | close hNext => simp
  | member hNext hKey hColon hValue rest ih =>
      exact List.forall_mem_cons.mpr ⟨⟨_, _, hValue⟩, ih⟩

/-- What holds of all numbers that can be read holds of all numbers in a value that was
read, however deep they are. -/
theorem Value.allTimes_of_readDeep (hNumbers : Number.ReadWith P) {depth : Nat} {v : Value}
    {s r : List UInt8} (h : readDeep depth s = .ok (v, r)) : v.AllTimes P := by
  induction depth using Nat.strong_induction_on generalizing v s r with
  | _ depth ih =>
      obtain ⟨o, t, -, hRest⟩ := rest_of_readDeep h
      cases hRest with
      | null => exact .null
      | boolean => exact .boolean _
      | number hRead => exact .number (hNumbers _ _ _ _ hRead)
      | text => exact .text _
      | array hItems =>
          refine .array fun v hv => ?_
          obtain ⟨t, u, hRead⟩ := hItems.exists_of_mem v hv
          exact ih _ (Nat.lt_succ_self _) hRead
      | object hMembers =>
          refine .object fun m hm => ?_
          obtain ⟨t, u, hRead⟩ := hMembers.exists_of_mem m hm
          exact ih _ (Nat.lt_succ_self _) hRead

/-! Shapes, one after the other. -/

/-- What stands for a field that an array leaves out stands for it in an object as well.
-/
theorem Absence.inObject?_of_inArray? {absence : Absence α} {a : α}
    (h : a ∈ absence.inArray?) : a ∈ absence.inObject? := by
  cases absence with
  | required => cases h
  | inObject => cases h
  | anywhere => exact h

namespace Shape

theorem keepsTimes_seconds (hNumbers : Number.ReadWith P) : seconds.KeepsTimes P where
  taken {v x} hValue h := by
    cases hValue with
    | number hHere =>
        cases h
        exact hHere
    | _ => cases h
  read {s r x} h := by
    obtain ⟨o, t, -, hAfter⟩ := Reader.byKind_eq_ok h
    have hRefused : (refusing secondsType).after o t ≠ .ok (x, r) :=
      refusing_after_ne secondsType o t
    cases o with
    | number negative =>
        obtain ⟨⟨n, u⟩, hNumber, hSame⟩ := bind_eq_ok_iff.mp hAfter
        cases hSame
        exact hNumbers _ _ _ _ hNumber
    | _ => exact absurd hAfter hRefused

theorem keepsTimes_list {item : Shape α} (hItem : item.KeepsTimes P) :
    (list item).KeepsTimes P where
  taken {v as} hValue h := by
    cases hValue with
    | array hValues =>
        intro a ha
        obtain ⟨v, hv, hTaken⟩ := exists_of_mem_mapM h ha
        exact hItem.taken (hValues v hv) hTaken
    | _ => cases h
  read {s r as} h := by
    obtain ⟨o, t, -, hAfter⟩ := Reader.byKind_eq_ok h
    have hRefused : (refusing listType).after o t ≠ .ok (as, r) := refusing_after_ne listType o t
    cases o with
    | array =>
        obtain ⟨⟨found, u⟩, hItems, hSame⟩ := bind_eq_ok_iff.mp hAfter
        cases hSame
        have hAll : ∀ a ∈ found, item.AllTimes P a := by
          refine Reader.items_keeps (K := fun as => ∀ a ∈ as, item.AllTimes P a)
            (fun as s as' r hBefore hHere => ?_) (by simp) hItems
          obtain ⟨⟨a, u⟩, hRead, hSame⟩ := bind_eq_ok_iff.mp hHere
          cases hSame
          exact List.forall_mem_cons.mpr ⟨hItem.read hRead, hBefore⟩
        exact fun a ha => hAll a (List.mem_reverse.mp ha)
    | _ => exact absurd hAfter hRefused

theorem keepsTimes_nullable {inner : Shape α} (hInner : inner.KeepsTimes P) :
    (nullable inner).KeepsTimes P where
  taken {v a} hValue h := by
    by_cases hNull : v = .null
    · subst hNull
      cases h
      exact fun b hb => nomatch hb
    · rw [ofValue_nullable hNull] at h
      obtain ⟨b, hTaken, rfl⟩ := map_eq_ok_iff.mp h
      simpa [AllTimes] using hInner.taken hValue hTaken
  read {s r a} h := by
    unfold Shape.read at h
    split at h
    · cases h
    · split at h
      · obtain ⟨⟨_, u⟩, -, hSame⟩ := bind_eq_ok_iff.mp h
        cases hSame
        exact fun b hb => nomatch hb
      · obtain ⟨⟨b, u⟩, hRead, hSame⟩ := bind_eq_ok_iff.mp h
        cases hSame
        simpa [AllTimes] using hInner.read hRead

theorem keepsTimes_view {toView : α → β} {ofView : β → α} {inner : Shape α}
    {same : ∀ b, toView (ofView b) = b} (hInner : inner.KeepsTimes P) :
    (view toView ofView inner same).KeepsTimes P where
  taken {v b} hValue h := by
    obtain ⟨a, hTaken, hView⟩ := map_eq_ok_iff.mp h
    exact ⟨a, hView, hInner.taken hValue hTaken⟩
  read {s r b} h := by
    obtain ⟨⟨a, u⟩, hRead, hSame⟩ := bind_eq_ok_iff.mp h
    cases hSame
    exact ⟨a, rfl, hInner.read hRead⟩

end Shape

/-! Records, field by field. -/

theorem Fields.slotTimes_blank {σ α : Type} (fields : Fields σ α) :
    fields.SlotTimes P fields.blank := by
  cases fields with
  | done => trivial
  | field _ _ _ rest => exact ⟨by rintro _ ⟨⟩, rest.slotTimes_blank⟩

/-- The times of finished fields are those that were read or those that stand for what
was left out. -/
theorem Fields.allTimes_of_finish : {σ α : Type} → (fields : Fields σ α) → {slots : σ} → {a : α} →
    fields.DefaultTimes P → fields.SlotTimes P slots → fields.finish slots = .ok a →
    fields.AllTimes P a
  | _, _, .done, _, _, _, _, _ => trivial
  | _, _, .field name absence shape rest, (slot, slots), (a, b), hDefaults, hSlots, h => by
      unfold Fields.finish at h
      cases hSlot : slot.or absence.inObject? with
      | none =>
          rw [hSlot] at h
          cases h
      | some first =>
          rw [hSlot] at h
          obtain ⟨second, hRest, hSame⟩ := map_eq_ok_iff.mp h
          cases hSame
          refine ⟨?_, rest.allTimes_of_finish hDefaults.2.2 hSlots.2 hRest⟩
          rcases Option.or_eq_some_iff.mp hSlot with hFilled | ⟨-, hDefault⟩
          · exact hSlots.1 a hFilled
          · exact hDefaults.1 a hDefault

/-- The times of a record are those of its fields, those that stand for missing fields
included. -/
theorem Shape.keepsTimes_record {name : String} {fields : Fields σ α}
    (hDefaults : fields.DefaultTimes P) (hFields : fields.KeepTimes P) :
    (record name fields).KeepsTimes P where
  taken {v a} hValue h := by
    cases hValue with
    | object hMembers =>
        obtain ⟨slots, hTaken, hFinish⟩ := bind_eq_ok_iff.mp h
        refine fields.allTimes_of_finish hDefaults ?_ hFinish
        refine foldlM_keeps (K := fields.SlotTimes P)
          (fun m hm slots slots' hBefore hHere => ?_) fields.slotTimes_blank hTaken
        exact hFields.takenMember (hMembers m ((Value.latest_dictionary _).mem hm)) hBefore hHere
    | array hValues =>
        obtain ⟨⟨b, left⟩, hTaken, h⟩ := bind_eq_ok_iff.mp h
        simp only at h
        split at h
        · cases h
          exact hFields.takenItems hValues hTaken
        · cases h
    | _ => cases h
  read {s r a} h := by
    obtain ⟨o, t, -, hAfter⟩ := Reader.byKind_eq_ok h
    have hRefused : (refusing (recordType name)).after o t ≠ .ok (a, r) :=
      refusing_after_ne (recordType name) o t
    cases o with
    | array =>
        obtain ⟨⟨b, u⟩, hRead, h⟩ := bind_eq_ok_iff.mp hAfter
        obtain ⟨⟨_, w⟩, -, hSame⟩ := bind_eq_ok_iff.mp h
        cases hSame
        exact hFields.readItems hRead
    | object =>
        obtain ⟨⟨slots, u⟩, hRead, h⟩ := bind_eq_ok_iff.mp hAfter
        obtain ⟨b, hFinish, hSame⟩ := bind_eq_ok_iff.mp h
        cases hSame
        refine fields.allTimes_of_finish hDefaults ?_ (mismatched_eq_ok_iff.mp hFinish)
        refine Reader.members_keeps (K := fields.SlotTimes P)
          (fun slots k s slots' r hBefore hHere => ?_) fields.slotTimes_blank hRead
        exact hFields.readMember hBefore hHere
    | _ => exact absurd hAfter hRefused

namespace Fields

theorem keepTimes_done : done.KeepTimes P where
  takenMember _ _ _ := trivial
  takenItems _ _ := trivial
  readMember _ _ := trivial
  readItems _ := trivial

/-- Fields keep their times if the first one does and the others do. This is the step of
the induction on the fields. -/
theorem keepTimes_field {name : String} {absence : Absence α} {shape : Shape α}
    {rest : Fields σ β} (hAbsent : ∀ a ∈ absence.inObject?, shape.AllTimes P a)
    (hShape : shape.KeepsTimes P) (hRest : rest.KeepTimes P) :
    (field name absence shape rest).KeepTimes P where
  takenMember {k v slots slots'} hValue hSlots h := by
    obtain ⟨slot, slots⟩ := slots
    simp only [ofMember] at h
    split at h
    · obtain ⟨a, hTaken, rfl⟩ := map_eq_ok_iff.mp h
      exact ⟨by simpa using hShape.taken hValue hTaken, hSlots.2⟩
    · obtain ⟨others, hTaken, rfl⟩ := map_eq_ok_iff.mp h
      exact ⟨hSlots.1, hRest.takenMember hValue hSlots.2 hTaken⟩
  takenItems {record total index vs left a} hValues h := by
    cases vs with
    | nil =>
        obtain ⟨first, hAbsence, b, left, hTaken, hSame⟩ := ofItems_nil_eq_ok_iff.mp h
        cases hSame
        exact ⟨hAbsent _ (Absence.inObject?_of_inArray? hAbsence),
          hRest.takenItems (by simp) hTaken⟩
    | cons v vs =>
        obtain ⟨hHere, hLater⟩ := List.forall_mem_cons.mp hValues
        obtain ⟨first, hFirst, b, left, hTaken, hSame⟩ := ofItems_cons_eq_ok_iff.mp h
        cases hSame
        exact ⟨hShape.taken hHere hFirst, hRest.takenItems hLater hTaken⟩
  readMember {k slots slots' s r} hSlots h := by
    obtain ⟨slot, slots⟩ := slots
    simp only [Fields.readMember] at h
    split at h
    · split at h
      · cases h
      · obtain ⟨⟨_, t⟩, -, h⟩ := bind_eq_ok_iff.mp h
        obtain ⟨⟨a, u⟩, hRead, hSame⟩ := bind_eq_ok_iff.mp h
        cases hSame
        exact ⟨by simpa using hShape.read hRead, hSlots.2⟩
    · obtain ⟨⟨others, t⟩, hRead, hSame⟩ := bind_eq_ok_iff.mp h
      cases hSame
      exact ⟨hSlots.1, hRest.readMember hSlots.2 hRead⟩
  readItems {record total index s r a} h := by
    obtain ⟨⟨more, t⟩, hNext, -⟩ := bind_eq_ok_iff.mp h
    cases more with
    | true =>
        obtain ⟨first, u, hFirst, b, w, hRead, hSame⟩ := (readItems_of_item_eq_ok_iff hNext).mp h
        cases hSame
        exact ⟨hShape.read hFirst, hRest.readItems hRead⟩
    | false =>
        obtain ⟨first, hAbsence, b, w, hRead, hSame⟩ := (readItems_of_end_eq_ok_iff hNext).mp h
        cases hSame
        exact ⟨hAbsent _ (Absence.inObject?_of_inArray? hAbsence), hRest.readItems hRead⟩

end Fields

mutual

/-- What comes out of a text has no times but its numbers and those that stand for
fields that are left out. -/
theorem Shape.keepsTimes (hNumbers : Number.ReadWith P) : {α : Type} → (shape : Shape α) →
    shape.DefaultTimes P → shape.KeepsTimes P
  | _, .seconds, _ => Shape.keepsTimes_seconds hNumbers
  | _, .whole _ _, _ => ⟨fun _ _ => trivial, fun _ => trivial⟩
  | _, .text _, _ => ⟨fun _ _ => trivial, fun _ => trivial⟩
  | _, .choice _ _ _, _ => ⟨fun _ _ => trivial, fun _ => trivial⟩
  | _, .list item, h => Shape.keepsTimes_list (item.keepsTimes hNumbers h)
  | _, .nullable inner, h => Shape.keepsTimes_nullable (inner.keepsTimes hNumbers h)
  | _, .record _ fields, h => Shape.keepsTimes_record h (fields.keepTimes hNumbers h)
  | _, .view _ _ inner _, h => Shape.keepsTimes_view (inner.keepsTimes hNumbers h)

/-- By induction on the fields of a record, all of them keep their times. -/
theorem Fields.keepTimes (hNumbers : Number.ReadWith P) : {σ α : Type} → (fields : Fields σ α) →
    fields.DefaultTimes P → fields.KeepTimes P
  | _, _, .done, _ => Fields.keepTimes_done
  | _, _, .field _ _ shape rest, h =>
    Fields.keepTimes_field h.1 (shape.keepsTimes hNumbers h.2.1) (rest.keepTimes hNumbers h.2.2)

end

end RoughCut.Json
