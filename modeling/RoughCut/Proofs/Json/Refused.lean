import RoughCut.Proofs.Json.Spelled

/-!
Values that are refused on the way. Where a whole value can be read but is of another
shape, reading on the way stops at the first mismatch in the order of the text
(`Shape.refusesSpelled`). There is one that it does not see as such: the items that an
array has left over for a record stand where the array should be closed.
-/

namespace RoughCut.Json

variable {σ α β : Type}

/-- One reading after another fails where the first does, or where the second does with
what the first has found. -/
theorem bind_eq_error_iff {ε : Type} {x : Except ε α} {f : α → Except ε β} {e : ε} :
    x >>= f = .error e ↔ x = .error e ∨ ∃ a, x = .ok a ∧ f a = .error e := by
  cases x <;> simp [bind, Except.bind]

theorem map_eq_error_iff {ε : Type} {x : Except ε α} {f : α → β} {e : ε} :
    x.map f = .error e ↔ x = .error e := by
  cases x <;> simp [Except.map]

/-- What reading on the way comes to at a mismatch. -/
def Mismatch.fault : Mismatch → Fault
  | .tooLong _ => .malformed
  | m => .mismatch m

section Run

variable {Item : β → List UInt8 → List UInt8 → Prop} {first : Bool} {s r : List UInt8}
  {clock : List UInt8} {acc : σ} {m : Mismatch}

/-- A reader that takes a step for each item stops where a step fails. The fault is that
of the first step to fail, whatever items come later. -/
theorem Items.refuse {as : List β} {item : σ → Reader σ} {step : σ → β → Except Mismatch σ}
    (h : Items Item first as s r)
    (hItem : ∀ a acc acc' u w, Item a u w → step acc a = .ok acc' → item acc u = .ok (acc', w))
    (hFault : ∀ a acc m u w, Item a u w → step acc a = .error m → item acc u = .error m.fault)
    (hClock : as.length < clock.length) (hSteps : as.foldlM step acc = .error m) :
    Reader.items item clock first acc s = .error m.fault := by
  induction h generalizing clock acc with
  | close hNext hClose => cases hSteps
  | item hNext hHere _ ih =>
      cases clock with
      | nil => cases hClock
      | cons tick clock =>
          rw [Reader.items, hNext]
          simp only [bind, Except.bind, if_true]
          rcases bind_eq_error_iff.mp hSteps with hStep | ⟨acc₁, hStep, hSteps⟩
          · simp only [hFault _ _ _ _ _ hHere hStep]
          · simp only [hItem _ _ _ _ _ hHere hStep]
            exact ih (Nat.lt_of_succ_lt_succ hClock) hSteps

/-- A reader that takes a step for each member stops where a step fails. -/
theorem Members.refuse {ms : List (String × β)} {member : σ → String → Reader σ}
    {step : σ → String → β → Except Mismatch σ} (h : Members Item first ms s r)
    (hMember : ∀ k a acc acc' t u w, Reader.colon t = .ok ((), u) → Item a u w →
      step acc k a = .ok acc' → member acc k t = .ok (acc', w))
    (hFault : ∀ k a acc m t u w, Reader.colon t = .ok ((), u) → Item a u w →
      step acc k a = .error m → member acc k t = .error m.fault)
    (hClock : ms.length < clock.length)
    (hSteps : ms.foldlM (fun acc (k, a) => step acc k a) acc = .error m) :
    Reader.members Literal.read member clock first acc s = .error m.fault := by
  induction h generalizing clock acc with
  | close hNext => cases hSteps
  | member hNext hName hColon hHere _ ih =>
      cases clock with
      | nil => cases hClock
      | cons tick clock =>
          rw [Reader.members, hNext]
          simp only [bind, Except.bind, if_true, hName]
          rcases bind_eq_error_iff.mp hSteps with hStep | ⟨acc₁, hStep, hSteps⟩
          · simp only [hFault _ _ _ _ _ _ _ hColon hHere hStep]
          · simp only [hMember _ _ _ _ _ _ _ hColon hHere hStep]
            exact ih (Nat.lt_of_succ_lt_succ hClock) hSteps

end Run

/-- Reading on the way refuses what is spelled in another shape. -/
def Shape.RefusesSpelled (shape : Shape α) : Prop :=
  ∀ {depth : Nat} {v : Value} {s r : List UInt8} {m : Mismatch},
    Value.readDeep depth s = .ok (v, r) → shape.ofSpelled v = .error m →
      shape.read s = .error m.fault

/-- The same of the fields of a record, in an object and in an array, and of the items
that an array has left over. -/
structure Fields.RefusesSpelled (fields : Fields σ α) : Prop where
  member {depth : Nat} {k : String} {v : Value} {slots : σ} {s t r : List UInt8} {m : Mismatch}
    (hColon : Reader.colon s = .ok ((), t)) (hWhole : Value.readDeep depth t = .ok (v, r))
    (hSpelled : fields.ofSpelledMember k v slots = .error m) :
    fields.readMember k slots s = .error m.fault
  items {depth : Nat} {record : String} {total index : Nat} {vs : List Value}
    {s r : List UInt8} {m : Mismatch}
    (hItems : Items (fun v s r => Value.readDeep depth s = .ok (v, r)) (index == 0) vs s r)
    (hSpelled : fields.ofSpelledItems record total index vs = .error m) :
    fields.readItems record total index s = .error m.fault
  left {depth : Nat} {record : String} {total index : Nat} {vs left : List Value}
    {s r : List UInt8} {a : α}
    (hItems : Items (fun v s r => Value.readDeep depth s = .ok (v, r)) (index == 0) vs s r)
    (hSpelled : fields.ofSpelledItems record total index vs = .ok (a, left)) (hLeft : left ≠ []) :
    ∃ t, fields.readItems record total index s = .ok (a, t) ∧
      Reader.closeItems t = .error .malformed

/-- What is refused is named by its kind. The refusal says what was found and what was
expected, and reads no further. -/
theorem refusing_after {depth : Nat} {o : Opening} {v : Value} {t r : List UInt8}
    (expected : String) (h : Value.Rest depth o v t r) :
    (refusing expected : Reader.Kinds α).after o t =
      .error (.mismatch (.wrongType v.found expected)) := by
  cases h with
  | number hRead => exact bind_eq_error_iff.mpr (Or.inr ⟨_, hRead, rfl⟩)
  | text hRead => exact bind_eq_error_iff.mpr (Or.inr ⟨_, hRead, rfl⟩)
  | _ => rfl

/-- What is wrong with finished fields is that one is missing, which is told as a
mismatch. -/
theorem Fields.fault_of_finish : {σ α : Type} → (fields : Fields σ α) → {slots : σ} →
    {m : Mismatch} → fields.finish slots = .error m → m.fault = .mismatch m
  | _, _, .field name absence _ rest, (slot, slots), m, h => by
    unfold finish at h
    split at h
    · cases h
      rfl
    · exact fault_of_finish rest (map_eq_error_iff.mp h)

/-- What is wrong with a number that is no whole one is told as a mismatch. -/
theorem Number.fault_of_toWhole {n : Number} {typeName : String} {limit : Nat} {m : Mismatch}
    (h : n.toWhole typeName limit = .error m) : m.fault = .mismatch m := by
  unfold toWhole at h
  split at h
  · split_ifs at h
    cases h
    rfl
  · cases h
    rfl

/-- A mismatch that is told as such is the fault of the reader. -/
theorem mismatched_eq_error {x : Except Mismatch α} {m : Mismatch} (h : x = .error m)
    (hFault : m.fault = .mismatch m) : mismatched x = .error m.fault := by
  rw [h, hFault]
  rfl

namespace Shape

/-- A shape that takes numbers alone refuses all else by its first byte, and a number by
what is wrong with it. -/
theorem refusesSpelled_of_number {shape : Shape α} (expected : String)
    (accept : Number → Except Mismatch α)
    (hFault : ∀ n m, accept n = .error m → m.fault = .mismatch m)
    (hRead : shape.read = Reader.byKind { refusing expected with
      number := fun negative s => do
        let (n, s) ← Number.read negative s
        return (← mismatched (accept n), s) })
    (hSpelled : ∀ v, shape.ofSpelled v = match v with
      | .number n => accept n
      | v => .error (.wrongType v.found expected)) : shape.RefusesSpelled := by
  intro depth v s r m hWhole hTaken
  obtain ⟨o, t, hOpening, hRest⟩ := Value.rest_of_readDeep hWhole
  have hRefused := refusing_after (α := α) expected hRest
  rw [hSpelled] at hTaken
  rw [hRead, Reader.byKind_of_opening _ hOpening]
  cases hRest with
  | number hNumber =>
      refine bind_eq_error_iff.mpr (Or.inr ⟨_, hNumber, bind_eq_error_iff.mpr (Or.inl ?_)⟩)
      exact mismatched_eq_error hTaken (hFault _ _ hTaken)
  | _ =>
      cases hTaken
      exact hRefused

theorem refusesSpelled_seconds : seconds.RefusesSpelled :=
  refusesSpelled_of_number secondsType (fun n => .ok n.toSeconds) (fun _ _ h => nomatch h) rfl
    fun v => by cases v <;> rfl

theorem refusesSpelled_whole (typeName : String) (limit : Nat) :
    (whole typeName limit).RefusesSpelled :=
  refusesSpelled_of_number typeName (fun n => n.toWhole typeName limit)
    (fun _ _ => Number.fault_of_toWhole) rfl fun v => by cases v <;> rfl

theorem refusesSpelled_text (typeName : String) : (text typeName).RefusesSpelled := by
  intro depth v s r m hWhole hSpelled
  obtain ⟨o, t, hOpening, hRest⟩ := Value.rest_of_readDeep hWhole
  have hRefused := refusing_after (α := String) typeName hRest
  rw [Shape.read, Reader.byKind_of_opening _ hOpening]
  cases hRest with
  | text hText => cases hSpelled
  | _ =>
      cases hSpelled
      exact hRefused

theorem refusesSpelled_view {toView : α → β} {ofView : β → α} {inner : Shape α}
    {same : ∀ b, toView (ofView b) = b} (hInner : inner.RefusesSpelled) :
    (view toView ofView inner same).RefusesSpelled := by
  intro depth v s r m hWhole hSpelled
  exact bind_eq_error_iff.mpr (Or.inl (hInner hWhole (map_eq_error_iff.mp hSpelled)))

/-- Null is not refused, and all else is as if null were not allowed. -/
theorem refusesSpelled_nullable {inner : Shape α} (hInner : inner.RefusesSpelled) :
    (nullable inner).RefusesSpelled := by
  intro depth v s r m hWhole hSpelled
  rcases Value.null_or_other_of_readDeep hWhole with
    ⟨rfl, -, -, -⟩ | ⟨hNull, b, u, hSkip, hByte, hWhole⟩
  · cases hSpelled
  · rw [ofSpelled_nullable hNull] at hSpelled
    simp only [Shape.read, hSkip, if_neg hByte]
    exact bind_eq_error_iff.mpr (Or.inl (hInner hWhole (map_eq_error_iff.mp hSpelled)))

/-- A list is refused with the first mismatch in it. The items before that one have been
read. -/
theorem refusesSpelled_list {item : Shape α} (hReads : item.ReadsSpelled)
    (hItem : item.RefusesSpelled) : (list item).RefusesSpelled := by
  intro depth v s r m hWhole hSpelled
  obtain ⟨o, t, hOpening, hRest⟩ := Value.rest_of_readDeep hWhole
  have hRefused := refusing_after (α := List α) listType hRest
  rw [Shape.read, Reader.byKind_of_opening _ hOpening]
  cases hRest with
  | @array d vs _ _ hItems =>
      have hClock := hItems.length_lt fun v s r => Value.length_lt_of_readDeep
      have hSteps : vs.foldlM (fun as v => do return (← item.ofSpelled v) :: as) [] = .error m := by
        have hMap : vs.mapM item.ofSpelled = .error m := hSpelled
        rw [List.mapM_eq_reverse_foldlM_cons] at hMap
        exact map_eq_error_iff.mp hMap
      refine bind_eq_error_iff.mpr (Or.inl (hItems.refuse ?_ ?_ (by omega) hSteps))
      · intro v before after u w hHere hStep
        obtain ⟨a, hTaken, hSame⟩ := bind_eq_ok_iff.mp hStep
        exact bind_eq_ok_iff.mpr ⟨_, hReads.read hHere hTaken, by cases hSame; rfl⟩
      · intro v before m u w hHere hStep
        rcases bind_eq_error_iff.mp hStep with hTaken | ⟨a, -, hSame⟩
        · exact bind_eq_error_iff.mpr (Or.inl (hItem hHere hTaken))
        · cases hSame
  | _ =>
      cases hSpelled
      exact hRefused

/-- A record is refused with the first mismatch in it, or with the first field that is
missing at its end. -/
theorem refusesSpelled_record {name : String} {fields : Fields σ α}
    (hReads : fields.ReadsSpelled) (hFields : fields.RefusesSpelled) :
    (record name fields).RefusesSpelled := by
  intro depth v s r m hWhole hSpelled
  obtain ⟨o, t, hOpening, hRest⟩ := Value.rest_of_readDeep hWhole
  have hRefused := refusing_after (α := α) (recordType name) hRest
  rw [Shape.read, Reader.byKind_of_opening _ hOpening]
  cases hRest with
  | object hMembers =>
      have hClock := hMembers.length_lt fun v s r => Value.length_lt_of_readDeep
      rcases bind_eq_error_iff.mp hSpelled with hSlots | ⟨slots, hSlots, hFinish⟩
      · exact bind_eq_error_iff.mpr (Or.inl (hMembers.refuse
          (fun _ _ _ _ _ _ _ => hReads.readMember) (fun _ _ _ _ _ _ _ => hFields.member)
          (by omega) hSlots))
      · have hRun : Reader.members Literal.read (fun slots k => fields.readMember k slots) t true
            fields.blank t = .ok (slots, r) :=
          hMembers.run (fun _ _ _ hKey => hKey) (fun _ _ _ _ _ _ _ => hReads.readMember)
            (by omega) hSlots
        refine bind_eq_error_iff.mpr (Or.inr ⟨_, hRun, bind_eq_error_iff.mpr (Or.inl ?_)⟩)
        exact mismatched_eq_error hFinish (fields.fault_of_finish hFinish)
  | array hItems =>
      rcases bind_eq_error_iff.mp hSpelled with hTaken | ⟨⟨a, left⟩, hTaken, hLeft⟩
      · exact bind_eq_error_iff.mpr (Or.inl (hFields.items hItems hTaken))
      · simp only [List.isEmpty_iff] at hLeft
        split_ifs at hLeft with hNone
        · cases hLeft
        · cases hLeft
          obtain ⟨t', hRead, hClose⟩ := hFields.left hItems hTaken hNone
          exact bind_eq_error_iff.mpr (Or.inr ⟨_, hRead, bind_eq_error_iff.mpr (Or.inl hClose)⟩)
  | _ =>
      cases hSpelled
      exact hRefused

end Shape

namespace Fields

theorem refusesSpelled_done : done.RefusesSpelled where
  member _ _ hSpelled := nomatch hSpelled
  items _ hSpelled := nomatch hSpelled
  left {depth record total index vs left s r a} hItems hSpelled hLeft := by
    cases hSpelled
    cases hItems with
    | close hNext hClose => exact absurd rfl hLeft
    | item hNext hHere rest => exact ⟨s, rfl, Reader.closeItems_of_item hNext⟩

section Field

variable {name : String} {absence : Absence α} {shape : Shape α} {rest : Fields σ β}

/-- Fields refuse on the way what is refused as it is spelled, if the first one does and
the others do. This is the step of the induction on the fields. -/
theorem refusesSpelled_field (hReads : shape.ReadsSpelled) (hShape : shape.RefusesSpelled)
    (hRest : rest.RefusesSpelled) : (field name absence shape rest).RefusesSpelled where
  member {depth k v slots s t r m} hColon hWhole hSpelled := by
    obtain ⟨slot, slots⟩ := slots
    simp only [ofSpelledMember] at hSpelled
    simp only [Fields.readMember]
    split_ifs at hSpelled ⊢ with hName hFilled
    · cases hSpelled
      rfl
    · have hTaken := hShape hWhole (map_eq_error_iff.mp hSpelled)
      exact bind_eq_error_iff.mpr (Or.inr ⟨_, hColon, bind_eq_error_iff.mpr (Or.inl hTaken)⟩)
    · have hTaken := hRest.member hColon hWhole (map_eq_error_iff.mp hSpelled)
      exact bind_eq_error_iff.mpr (Or.inl hTaken)
  items {depth record total index vs s r m} hItems hSpelled := by
    cases hItems with
    | @close _ _ t _ hNext hClose =>
        rw [readItems_of_end hNext]
        rw [ofSpelledItems] at hSpelled
        cases hAbsent : absence.inArray? with
        | none =>
            rw [hAbsent] at hSpelled
            cases hSpelled
            rfl
        | some a =>
            rw [hAbsent] at hSpelled
            rcases bind_eq_error_iff.mp hSpelled with hTaken | ⟨_, _, hSame⟩
            · have hNone : Items (fun v s r => Value.readDeep depth s = .ok (v, r))
                  (index + 1 == 0) [] t r := .close (Reader.nextItem_of_end hNext _) hClose
              exact bind_eq_error_iff.mpr (Or.inl (hRest.items hNone hTaken))
            · cases hSame
    | @item _ v vs _ t u _ hNext hHere hItems =>
        rw [readItems_of_item hNext]
        rcases bind_eq_error_iff.mp hSpelled with hFirst | ⟨a, hFirst, hSpelled⟩
        · exact bind_eq_error_iff.mpr (Or.inl (hShape hHere hFirst))
        · refine bind_eq_error_iff.mpr (Or.inr ⟨_, hReads.read hHere hFirst, ?_⟩)
          rcases bind_eq_error_iff.mp hSpelled with hTaken | ⟨_, _, hSame⟩
          · exact bind_eq_error_iff.mpr (Or.inl (hRest.items hItems hTaken))
          · cases hSame
  left {depth record total index vs left s r a} hItems hSpelled hLeft := by
    cases hItems with
    | @close _ _ t _ hNext hClose =>
        obtain ⟨a, hAbsent, b, left, hTaken, hSame⟩ := ofSpelledItems_nil_eq_ok_iff.mp hSpelled
        cases hSame
        have hNone : Items (fun v s r => Value.readDeep depth s = .ok (v, r)) (index + 1 == 0)
            [] t r := .close (Reader.nextItem_of_end hNext _) hClose
        obtain ⟨u, hRead, hEnd⟩ := hRest.left hNone hTaken hLeft
        exact ⟨u, (readItems_of_end_eq_ok_iff hNext).mpr ⟨a, hAbsent, b, u, hRead, rfl⟩, hEnd⟩
    | @item _ v vs _ t u _ hNext hHere hItems =>
        obtain ⟨a, hFirst, b, left, hTaken, hSame⟩ := ofSpelledItems_cons_eq_ok_iff.mp hSpelled
        cases hSame
        obtain ⟨w, hRead, hEnd⟩ := hRest.left hItems hTaken hLeft
        exact ⟨w, (readItems_of_item_eq_ok_iff hNext).mpr
          ⟨a, u, hReads.read hHere hFirst, b, w, hRead, rfl⟩, hEnd⟩

end Field

end Fields

mutual

/-- A value of another shape is refused on the way with its first mismatch, where no
choice is in the shape. -/
theorem Shape.refusesSpelled : {α : Type} → (shape : Shape α) → shape.Plain →
    shape.RefusesSpelled
  | _, .seconds, _ => Shape.refusesSpelled_seconds
  | _, .whole typeName limit, _ => Shape.refusesSpelled_whole typeName limit
  | _, .text typeName, _ => Shape.refusesSpelled_text typeName
  | _, .list item, h => Shape.refusesSpelled_list item.readsSpelled (item.refusesSpelled h)
  | _, .nullable inner, h => Shape.refusesSpelled_nullable (inner.refusesSpelled h)
  | _, .record _ fields, h =>
    Shape.refusesSpelled_record fields.readsSpelled (fields.refusesSpelled h)
  | _, .view _ _ inner _, h => Shape.refusesSpelled_view (inner.refusesSpelled h)

/-- By induction on the fields of a record, all of them refuse on the way what is
refused as it is spelled. -/
theorem Fields.refusesSpelled : {σ α : Type} → (fields : Fields σ α) → fields.Plain →
    fields.RefusesSpelled
  | _, _, .done, _ => Fields.refusesSpelled_done
  | _, _, .field _ _ shape rest, h =>
    Fields.refusesSpelled_field shape.readsSpelled (shape.refusesSpelled h.1)
      (rest.refusesSpelled h.2)

end

end RoughCut.Json
