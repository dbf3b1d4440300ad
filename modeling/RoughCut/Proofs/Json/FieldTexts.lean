import RoughCut.Proofs.Json.Once
import RoughCut.Proofs.Json.Parts

/-!
Objects by their fields. An object that has what is told of some fields can be read,
whatever other members it has, and a record is taken from it by these fields alone.
-/

namespace RoughCut.Json

/-- How the values under a name are written. -/
def valueTexts (name : String) (members : List MemberText) : List String :=
  (members.filter fun m => m.name = name).map MemberText.value

/-- The members of an object with certain fields. A field is written once where it is
told how, and not at all where it is not. There may be members with other names, as
long as their values can be read within so many levels. -/
structure MembersFit (levels : Nat) (fields : List (String × Option (String → Prop)))
    (members : List MemberText) : Prop where
  keys : ∀ m ∈ members, Value.parse m.key = .ok (.text m.name)
  known : ∀ f ∈ fields,
    List.Forall₂ (fun IsValue text => IsValue text) f.2.toList (valueTexts f.1 members)
  others : ∀ m ∈ members, m.name ∉ fields.map Prod.fst → ∃ v, Value.readWithin levels m.value = .ok v

/-- The text is an object with these fields. -/
def IsObject (levels : Nat) (fields : List (String × Option (String → Prop))) (text : String) :
    Prop :=
  ∃ members, MembersFit levels fields members ∧
    Enclosed "\x7b" "\x7d" (members.map MemberText.text) text

section Fields

variable {levels : Nat} {fields : List (String × Option (String → Prop))} {text : String}
  {members : List MemberText} {ms : List (String × Value)}

/-- How the field is written can be read. -/
def Readable (levels : Nat) (f : String × Option (String → Prop)) : Prop :=
  ∀ IsValue ∈ f.2, ∀ t, IsValue t → ∃ v, Value.readWithin levels t = .ok v

/-- The values under the name are read from texts of this kind. -/
def ReadFrom (levels : Nat) (IsValue : Option (String → Prop)) (vs : List Value) : Prop :=
  List.Forall₂ (fun IsValue v => ∃ t, IsValue t ∧ Value.readWithin levels t = .ok v)
    IsValue.toList vs

/-- One at most is related to one at most. -/
theorem forall₂_toList_iff {α β : Type} {R : α → β → Prop} {o : Option α} {bs : List β} :
    List.Forall₂ R o.toList bs ↔
      (o = none ∧ bs = []) ∨ ∃ a b, o = some a ∧ bs = [b] ∧ R a b := by
  cases o with
  | none => simp
  | some a => simp [List.forall₂_cons_left_iff, and_comm]

theorem exists_forall₂ {α β : Type} {R : α → β → Prop} {bs : List β} (h : ∀ b ∈ bs, ∃ a, R a b) :
    ∃ as, List.Forall₂ R as bs := by
  induction bs with
  | nil => exact ⟨[], .nil⟩
  | cons b bs ih =>
      obtain ⟨a, hFirst⟩ := h b List.mem_cons_self
      obtain ⟨as, hRest⟩ := ih fun c hc => h c (List.mem_cons_of_mem b hc)
      exact ⟨a :: as, .cons hFirst hRest⟩

/-- The values under a name are what the texts under the name are read as, in their
order. -/
theorem forall₂_valuesOf (h : List.Forall₂ (Value.IsMember levels) ms members) (name : String) :
    List.Forall₂ (fun v t => Value.readWithin levels t = .ok v) (valuesOf name ms)
      (valueTexts name members) := by
  induction h with
  | nil => exact .nil
  | @cons m u ms members hMember _ ih =>
      obtain ⟨k, v⟩ := m
      obtain ⟨rfl, _, hValue⟩ := hMember
      unfold valueTexts at ih ⊢
      by_cases hName : u.name = name
      · rw [valuesOf, if_pos hName, List.filter_cons_of_pos (by simpa using hName)]
        exact .cons hValue ih
      · rw [valuesOf, if_neg hName, List.filter_cons_of_neg (by simpa using hName)]
        exact ih

/-- Every member can be read where the fields can. -/
theorem MembersFit.exists_members (h : MembersFit levels fields members)
    (hFields : ∀ f ∈ fields, Readable levels f) :
    ∃ ms, List.Forall₂ (Value.IsMember levels) ms members := by
  refine exists_forall₂ fun m hMem => ?_
  obtain ⟨v, hValue⟩ : ∃ v, Value.readWithin levels m.value = .ok v := by
    by_cases hName : m.name ∈ fields.map Prod.fst
    · obtain ⟨f, hField, hSame⟩ := List.mem_map.mp hName
      have hThere : m.value ∈ valueTexts f.1 members :=
        List.mem_map.mpr ⟨m, List.mem_filter.mpr ⟨hMem, by simp [hSame]⟩, rfl⟩
      rcases forall₂_toList_iff.mp (h.known f hField) with
        ⟨_, hTexts⟩ | ⟨IsValue, t, hKind, hTexts, hText⟩
      · rw [hTexts] at hThere
        cases hThere
      · rw [hTexts, List.mem_singleton] at hThere
        exact hFields f hField IsValue hKind m.value (hThere ▸ hText)
    · exact h.others m hMem hName
  exact ⟨(m.name, v), rfl, h.keys m hMem, hValue⟩

/-- An object is read, and its fields from what is told of them. It does not matter in
which order they come and what other members there are. -/
theorem IsObject.exists_readWithin (h : IsObject levels fields text)
    (hFields : ∀ f ∈ fields, Readable levels f) :
    ∃ ms, Value.readWithin (levels + 1) text = .ok (.object ms) ∧
      ∀ f ∈ fields, ReadFrom levels f.2 (valuesOf f.1 ms) := by
  obtain ⟨members, hFit, hText⟩ := h
  obtain ⟨ms, hMembers⟩ := hFit.exists_members hFields
  refine ⟨ms, Value.readWithin_object hMembers hText, fun f hField => ?_⟩
  have hValues := forall₂_valuesOf hMembers f.1
  refine forall₂_toList_iff.mpr ?_
  rcases forall₂_toList_iff.mp (hFit.known f hField) with
    ⟨hKind, hTexts⟩ | ⟨IsValue, t, hKind, hTexts, hText⟩
  · rw [hTexts, List.forall₂_nil_right_iff] at hValues
    exact Or.inl ⟨hKind, hValues⟩
  · rw [hTexts, List.forall₂_cons_right_iff] at hValues
    obtain ⟨v, vs, hValue, hNil, hValues⟩ := hValues
    obtain rfl := List.forall₂_nil_right_iff.mp hNil
    exact Or.inr ⟨IsValue, v, hKind, hValues, t, hText, hValue⟩

/-- The members have a value for each slot that is filled and none for the others. -/
def Fields.FoundIn : {σ α : Type} → Fields σ α → List (String × Value) → σ → Prop
  | _, _, .done, _, () => True
  | _, _, .field name _ shape rest, ms, (slot, slots) =>
    List.Forall₂ (fun a v => shape.ofValue v = .ok a) slot.toList (valuesOf name ms) ∧
      rest.FoundIn (without name ms) slots

/-- Fields that are found among the members are what a pass over the latest members
fills them with. -/
theorem Fields.foldlM_of_foundIn : {σ α : Type} → (fields : Fields σ α) →
    {ds ms : List (String × Value)} → {slots : σ} → Latest ds ms → fields.FoundIn ms slots →
    ds.foldlM (fun slots (k, v) => fields.ofMember k v slots) fields.blank = .ok slots
  | _, _, .done, _, _, (), _, _ => List.foldlM_pure (f := fun () _ => ())
  | _, _, .field name _ shape rest, ds, ms, (slot, slots), hLatest, hFound => by
    obtain ⟨hOwn, hRest⟩ := hFound
    refine foldlM_ofMember.mpr ⟨?_, rest.foldlM_of_foundIn (hLatest.without name) hRest⟩
    rcases forall₂_toList_iff.mp hOwn with ⟨rfl, hValues⟩ | ⟨a, v, rfl, hValues, hValue⟩
    · rw [hLatest.valuesOf_eq (by simp [hValues]), hValues]
      rfl
    · rw [hLatest.valuesOf_eq (by simp [hValues]), hValues]
      exact bind_eq_ok_iff.mpr ⟨some a, map_eq_ok_iff.mpr ⟨a, hValue, rfl⟩, rfl⟩

end Fields

namespace Shape

variable {α β : Type} {levels : Nat} {text : String}

/-- Takes a value out of a text with at most so many levels of arrays and objects. -/
def readWithin (shape : Shape α) (levels : Nat) (text : String) : Except Fault α := do
  mismatched (shape.ofValue (← Value.readWithin levels text))

theorem parse_eq_readWithin (shape : Shape α) (text : String) :
    shape.parse text = shape.readWithin Value.depthLimit text :=
  rfl

/-- To read a text as a shape is to read it as a value and to take the shape from that.
So the two halves of a reader can be looked at one by one. -/
theorem readWithin_eq_ok_iff {shape : Shape α} {a : α} :
    shape.readWithin levels text = .ok a ↔
      ∃ v, Value.readWithin levels text = .ok v ∧ shape.ofValue v = .ok a := by
  refine bind_eq_ok_iff.trans (exists_congr fun v => and_congr_right fun _ => ?_)
  cases shape.ofValue v <;> simp [mismatched]

/-- What is taken from neither arrays nor objects is read within any number of levels. -/
theorem readWithin_of_parse {shape : Shape α} {a : α}
    (hArray : ∀ vs, shape.ofValue (.array vs) ≠ .ok a)
    (hObject : ∀ ms, shape.ofValue (.object ms) ≠ .ok a) (h : shape.parse text = .ok a)
    (levels : Nat) : shape.readWithin levels text = .ok a := by
  rw [parse_eq_readWithin] at h
  obtain ⟨v, hRead, hTaken⟩ := readWithin_eq_ok_iff.mp h
  refine readWithin_eq_ok_iff.mpr ⟨v, Value.readWithin_of_parse hRead ?_ ?_ levels, hTaken⟩
  · rintro vs rfl
    exact hArray vs hTaken
  · rintro ms rfl
    exact hObject ms hTaken

/-- A value seen as one of another type. -/
theorem readWithin_view {toView : α → β} {ofView : β → α} {inner : Shape α}
    {same : ∀ b, toView (ofView b) = b} {a : α} (h : inner.readWithin levels text = .ok a) :
    (view toView ofView inner same).readWithin levels text = .ok (toView a) := by
  obtain ⟨v, hRead, hTaken⟩ := readWithin_eq_ok_iff.mp h
  refine readWithin_eq_ok_iff.mpr ⟨v, hRead, ?_⟩
  rw [ofValue, hTaken]
  rfl

/-- A record is taken from an object by its fields alone. -/
theorem ofValue_record {σ : Type} {name : String} {fields : Fields σ α}
    {ms : List (String × Value)} {slots : σ} (h : fields.FoundIn ms slots) :
    (record name fields).ofValue (.object ms) = fields.finish slots :=
  congrArg (· >>= fields.finish) (fields.foldlM_of_foundIn (Value.latest_dictionary ms) h)

/-- A text that is an array of items is read as a list of what the items are read as,
one level further down. -/
theorem readWithin_list {item : Shape β} {IsItem : α → String → Prop} {f : α → β} {as : List α}
    (hItem : ∀ a t, IsItem a t → item.readWithin levels t = .ok (f a))
    (h : IsArray IsItem as text) : (list item).readWithin (levels + 1) text = .ok (as.map f) := by
  obtain ⟨items, hItems, hText⟩ := h
  obtain ⟨vs, hValues, hTaken⟩ : ∃ vs,
      List.Forall₂ (fun v t => Value.readWithin levels t = .ok v) vs items ∧
        vs.mapM item.ofValue = .ok (as.map f) := by
    clear hText
    induction hItems with
    | nil => exact ⟨[], .nil, rfl⟩
    | @cons a t as items hFirst _ ih =>
        obtain ⟨v, hValue, hTaken⟩ := readWithin_eq_ok_iff.mp (hItem a t hFirst)
        obtain ⟨vs, hValues, hRest⟩ := ih
        refine ⟨v :: vs, .cons hValue hValues, ?_⟩
        rw [List.mapM_cons, hTaken, ok_bind, hRest]
        rfl
  exact readWithin_eq_ok_iff.mpr ⟨_, Value.readWithin_array hValues hText, hTaken⟩

section Field

variable {shape : Shape α} {IsValue : β → String → Prop} {f : β → α}
  (h : ∀ b t, IsValue b t → shape.readWithin levels t = .ok (f b))
include h

theorem readable (name : String) (o : Option β) : Readable levels (name, o.map IsValue) := by
  intro IsText hKind t hText
  obtain ⟨b, _, rfl⟩ := Option.map_eq_some_iff.mp hKind
  obtain ⟨v, hValue, _⟩ := readWithin_eq_ok_iff.mp (h b t hText)
  exact ⟨v, hValue⟩

theorem forall₂_of_readFrom {o : Option β} {vs : List Value}
    (hValues : ReadFrom levels (o.map IsValue) vs) :
    List.Forall₂ (fun a v => shape.ofValue v = .ok a) (o.map f).toList vs := by
  refine forall₂_toList_iff.mpr ?_
  rcases forall₂_toList_iff.mp hValues with
    ⟨hNone, hNil⟩ | ⟨IsText, v, hSome, hOne, t, hText, hRead⟩
  · exact Or.inl ⟨by simpa using hNone, hNil⟩
  · obtain ⟨b, rfl, rfl⟩ := Option.map_eq_some_iff.mp hSome
    obtain ⟨w, hSame, hTaken⟩ := readWithin_eq_ok_iff.mp (h b t hText)
    rw [hRead] at hSame
    cases hSame
    exact Or.inr ⟨f b, v, rfl, hOne, hTaken⟩

end Field

end Shape

/-! Texts without blanks. -/

/-- Brackets with parts and commas between them, and nothing else, enclose the parts. -/
theorem enclosed_compact (opening closing : String) (parts : List String) :
    Enclosed opening closing parts (opening ++ ",".intercalate parts ++ closing) := by
  have hNone : IsBlank "" := by simp [IsBlank, Text.Utf8.encode_eq]
  have hPadded (t : String) : Padded t t := ⟨"", "", hNone, hNone, by simp⟩
  exact ⟨_, hPadded _, hPadded _⟩

/-- A text as it is written. -/
def quoted (s : String) : String :=
  String.ofList (Literal.chars s)

theorem parse_quoted (s : String) : Value.parse (quoted s) = .ok (.text s) := by
  obtain ⟨w, hQuote, hRead⟩ := key_bytes s []
  rw [Value.parse_eq_readWithin]
  refine Value.readWithin_eq_ok_iff.mpr ⟨[], ?_, by simp⟩
  rw [quoted, Text.Utf8.encode_ofList, ← List.append_nil (List.flatMap _ _), hQuote]
  exact Value.readDeep_of_rest rfl (.text hRead)

def compactArray (items : List String) : String :=
  "[" ++ ",".intercalate items ++ "]"

/-- Items with commas between them in brackets are an array of them. -/
theorem isArray_compactArray {α : Type} {IsItem : α → String → Prop} {as : List α}
    {items : List String} (h : List.Forall₂ IsItem as items) :
    IsArray IsItem as (compactArray items) :=
  ⟨items, h, enclosed_compact _ _ _⟩

/-- The object with these names and texts of values. -/
def compactObject (members : List (String × String)) : String :=
  "\x7b" ++ ",".intercalate (members.map fun m => quoted m.1 ++ ":" ++ m.2) ++ "\x7d"

/-- Members with commas between them in braces are an object with the fields, if the
members of each field are as they should be and the others can be read at all. -/
theorem isObject_compactObject {levels : Nat} {fields : List (String × Option (String → Prop))}
    {members : List (String × String)}
    (hKnown : ∀ f ∈ fields, List.Forall₂ (fun IsValue text => IsValue text) f.2.toList
      ((members.filter fun m => m.1 = f.1).map Prod.snd))
    (hOthers : ∀ m ∈ members, m.1 ∉ fields.map Prod.fst →
      ∃ v, Value.readWithin levels m.2 = .ok v) :
    IsObject levels fields (compactObject members) := by
  let written (m : String × String) : MemberText := ⟨m.1, quoted m.1, m.2⟩
  refine ⟨members.map written, ⟨?_, ?_, ?_⟩, ?_⟩
  · exact List.forall_mem_map.mpr fun m _ => parse_quoted m.1
  · intro f hField
    rw [valueTexts, List.filter_map, List.map_map]
    exact hKnown f hField
  · exact List.forall_mem_map.mpr fun m hMem => hOthers m hMem
  · have hTexts : (members.map written).map MemberText.text =
        members.map fun m => quoted m.1 ++ ":" ++ m.2 := List.map_map
    rw [hTexts]
    exact enclosed_compact _ _ _

end RoughCut.Json
