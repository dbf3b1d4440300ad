import RoughCut.Proofs.Json.Layout
import RoughCut.Proofs.Json.Once

/-!
What is written is read. A value of a shape that is laid out as a text comes back
with each time as its own text is read, and with everything else as it was.
-/

namespace RoughCut

open Json

namespace Seconds

variable {x y : Seconds}

/-- What the text of a time alone is read as. -/
def reading (x : Seconds) : Except Fault Seconds :=
  Shape.seconds.readText (String.ofList (Number.chars (.decimal x)))

/-- Only the text of a finite time is read, as the digits of its shortest decimal. What
is not finite is written as null, and this is not read as a time. -/
theorem spelled_of_reading (h : x.reading = .ok y) :
    x.isFinite = true ∧ x.shortest.spelling.number x.isNegative = .ok (.decimal y) := by
  rw [reading, Shape.readText, Text.Utf8.encode_ofList] at h
  cases hFinite : x.isFinite with
  | false =>
      rw [Number.chars, hFinite] at h
      cases h
  | true =>
      refine ⟨rfl, ?_⟩
      have hOpening := opening_chars hFinite []
      have hRead := read_chars hFinite (r := []) (fun b hb => by cases hb)
      rw [List.append_nil] at hOpening
      obtain ⟨⟨z, s⟩, hBytes, h⟩ := bind_eq_ok_iff.mp h
      rw [Shape.read, Reader.byKind_of_opening _ hOpening] at hBytes
      obtain ⟨⟨n, t⟩, hNumber, hSame⟩ := bind_eq_ok_iff.mp hBytes
      rw [hRead] at hNumber
      obtain ⟨n', hSpelled, hPair⟩ := map_eq_ok_iff.mp hNumber
      cases hPair
      cases hSame
      rw [Decimal.number_spelling] at hSpelled ⊢
      obtain ⟨z, rfl⟩ := Number.decimal_of_ofDigits hSpelled
      rw [hSpelled]
      simp only at h
      split at h
      · cases h
        rfl
      · cases h

/-- What a time comes back as, or the time itself where its text is not read. -/
def reread (x : Seconds) : Seconds :=
  x.reading.toOption.getD x

/-- A time that can be read comes back as one and the same time. -/
theorem reading_eq_reread (h : x.reading = .ok y) : x.reading = .ok x.reread := by
  simp [reread, h, Except.toOption]

end Seconds

namespace Json

variable {σ α β : Type} {f : Seconds → Seconds} {P : Seconds → Prop}

mutual

/-- The value with each of its times replaced. -/
def Shape.mapTimes (f : Seconds → Seconds) : {α : Type} → Shape α → α → α
  | _, .seconds, x => f x
  | _, .whole _ _, n => n
  | _, .text _, s => s
  | _, .choice _ _ _, a => a
  | _, .list item, as => as.map (item.mapTimes f)
  | _, .nullable inner, a => a.map (inner.mapTimes f)
  | _, .record _ fields, a => fields.mapTimes f a
  | _, .view toView ofView inner _, b => toView (inner.mapTimes f (ofView b))

def Fields.mapTimes (f : Seconds → Seconds) : {σ α : Type} → Fields σ α → α → α
  | _, _, .done, () => ()
  | _, _, .field _ _ shape rest, (a, b) => (shape.mapTimes f a, rest.mapTimes f b)

end

/-- The names of the fields in order. -/
def Fields.names : {σ α : Type} → Fields σ α → List String
  | _, _, .done => []
  | _, _, .field name _ _ rest => name :: rest.names

/-- A record is written with the names of its fields as keys, in the order of the
fields. -/
theorem Fields.map_toMembers : {σ α : Type} → (fields : Fields σ α) → (a : α) →
    (fields.toMembers a).map Prod.fst = fields.names
  | _, _, .done, () => rfl
  | _, _, .field name _ _ rest, (_, b) => congrArg (name :: ·) (rest.map_toMembers b)

mutual

/-- The value can be told from its text: `P` holds of its times, its whole numbers
are within their limits, only nothing is `null`, and no two fields share a name. -/
def Shape.Fits (P : Seconds → Prop) : {α : Type} → Shape α → α → Prop
  | _, .seconds, x => P x
  | _, .whole _ limit, n => n ≤ limit ∧ n ≤ Number.gatherLimit
  | _, .text _, _ => True
  | _, .choice _ _ _, _ => True
  | _, .list item, as => ∀ a ∈ as, item.Fits P a
  | _, .nullable inner, a => ∀ b ∈ a, inner.toValue b ≠ .null ∧ inner.Fits P b
  | _, .record _ fields, a => fields.Fit P a
  | _, .view _ ofView inner _, b => inner.Fits P (ofView b)

def Fields.Fit (P : Seconds → Prop) : {σ α : Type} → Fields σ α → α → Prop
  | _, _, .done, _ => True
  | _, _, .field name _ shape rest, (a, b) =>
    shape.Fits P a ∧ name ∉ rest.names ∧ rest.Fit P b

end

mutual

/-- How many arrays and objects lie inside one another. -/
def Shape.depth : {α : Type} → Shape α → Nat
  | _, .seconds => 0
  | _, .whole _ _ => 0
  | _, .text _ => 0
  | _, .choice _ _ _ => 0
  | _, .list item => item.depth + 1
  | _, .nullable inner => inner.depth
  | _, .record _ fields => fields.depth + 1
  | _, .view _ _ inner _ => inner.depth

def Fields.depth : {σ α : Type} → Fields σ α → Nat
  | _, _, .done => 0
  | _, _, .field _ _ shape rest => max shape.depth rest.depth

end

/-- Laid out in any way, the value is read as one from which it is taken with its
times replaced. -/
def Shape.ComesBack (f : Seconds → Seconds) (shape : Shape α) (a : α) : Prop :=
  ∃ w, (∀ l : Layout, ∀ depth, shape.depth ≤ depth → l.Reads depth (shape.toValue a) w) ∧
    shape.ofSpelled w = .ok (shape.mapTimes f a) ∧ (w = .null → shape.toValue a = .null)

/-- The same of the fields of a record as the members of an object. -/
def Fields.ComeBack (f : Seconds → Seconds) (fields : Fields σ α) (a : α) : Prop :=
  ∃ ns, (∀ l : Layout, ∀ depth, fields.depth ≤ depth →
      List.Forall₂ (l.ReadsMember depth) (fields.toMembers a) ns) ∧
    ∃ slots, ns.foldlM (fun slots (k, v) => fields.ofSpelledMember k v slots) fields.blank =
      .ok slots ∧ fields.finish slots = .ok (fields.mapTimes f a)

namespace Shape

/-- A time comes back as what its text is read as, wherever it is written. -/
theorem comesBack_seconds {x : Seconds} (h : x.reading = .ok (f x)) : seconds.ComesBack f x := by
  obtain ⟨hFinite, hSpelled⟩ := Seconds.spelled_of_reading h
  exact ⟨.number (.decimal (f x)), fun _ _ _ => Layout.reads_decimal hFinite hSpelled, rfl,
    fun hNull => by cases hNull⟩

theorem comesBack_whole {typeName : String} {limit n : Nat} (h : n ≤ limit)
    (hGather : n ≤ Number.gatherLimit) : (whole typeName limit).ComesBack f n := by
  refine ⟨.number (.integer n), fun _ _ _ => Layout.reads_integer hGather, ?_,
    fun hNull => by cases hNull⟩
  have hRange : (0 : Int) ≤ n ∧ (n : Int) ≤ limit := by omega
  exact if_pos hRange

theorem comesBack_text (typeName s : String) : (text typeName).ComesBack f s :=
  ⟨.text s, fun _ _ _ => Layout.reads_text s, rfl, fun hNull => by cases hNull⟩

/-- One of some choices comes back as it was, provided that it is found under the name
with which it is written. -/
theorem comesBack_choice {choices : List (String × α)} {name : α → String}
    (found : ∀ a, (choices.find? fun (n, _) => n == name a) = some (name a, a)) (a : α) :
    (choice choices name found).ComesBack f a := by
  refine ⟨.text (name a), fun _ _ _ => Layout.reads_text (name a), ?_, fun hNull => by cases hNull⟩
  change chosen choices (name a) = .ok a
  rw [chosen, found]

/-- A list comes back with as many items, each as it comes back by itself. -/
theorem comesBack_list {item : Shape α} {as : List α} (h : ∀ a ∈ as, item.ComesBack f a) :
    (list item).ComesBack f as := by
  have hItems : ∃ ws, (∀ l : Layout, ∀ depth, item.depth ≤ depth →
      List.Forall₂ (l.Reads depth) (as.map item.toValue) ws) ∧
        ws.mapM item.ofSpelled = .ok (as.map (item.mapTimes f)) := by
    induction as with
    | nil => exact ⟨[], fun _ _ _ => .nil, rfl⟩
    | cons a as ih =>
        obtain ⟨w, hRead, hTaken, _⟩ := h a List.mem_cons_self
        obtain ⟨ws, hReads, hAll⟩ := ih fun b hb => h b (List.mem_cons_of_mem a hb)
        refine ⟨w :: ws, fun l depth hDepth => .cons (hRead l depth hDepth) (hReads l depth hDepth),
          ?_⟩
        rw [List.mapM_cons, hTaken, ok_bind, hAll]
        rfl
  obtain ⟨ws, hReads, hAll⟩ := hItems
  refine ⟨.array ws, ?_, hAll, fun hNull => by cases hNull⟩
  intro l depth hDepth
  obtain ⟨depth, rfl⟩ := Nat.exists_eq_add_of_le' (Nat.le_trans (Nat.le_add_left 1 _) hDepth)
  exact Layout.reads_array (hReads l depth (Nat.le_of_succ_le_succ hDepth))

/-- What may be null comes back, provided that nothing but null is written so. Otherwise
something that is there would come back as nothing. -/
theorem comesBack_nullable {inner : Shape α} {a : Option α}
    (h : ∀ b ∈ a, inner.toValue b ≠ .null ∧ inner.ComesBack f b) :
    (nullable inner).ComesBack f a := by
  cases a with
  | none => exact ⟨.null, fun _ _ _ => Layout.reads_null, rfl, fun _ => rfl⟩
  | some b =>
      obtain ⟨hValue, w, hRead, hTaken, hNull⟩ := h b rfl
      refine ⟨w, hRead, ?_, hNull⟩
      rw [ofSpelled_nullable fun hw => hValue (hNull hw), hTaken]
      rfl

/-- A record comes back if its fields do. -/
theorem comesBack_record {name : String} {fields : Fields σ α} {a : α} (h : fields.ComeBack f a) :
    (record name fields).ComesBack f a := by
  obtain ⟨ns, hReads, slots, hSlots, hFinish⟩ := h
  refine ⟨.object ns, ?_, bind_eq_ok_iff.mpr ⟨slots, hSlots, hFinish⟩, fun hNull => by cases hNull⟩
  intro l depth hDepth
  obtain ⟨depth, rfl⟩ := Nat.exists_eq_add_of_le' (Nat.le_trans (Nat.le_add_left 1 _) hDepth)
  exact Layout.reads_object (hReads l depth (Nat.le_of_succ_le_succ hDepth))

theorem comesBack_view {toView : α → β} {ofView : β → α} {inner : Shape α}
    {same : ∀ b, toView (ofView b) = b} {b : β} (h : inner.ComesBack f (ofView b)) :
    (view toView ofView inner same).ComesBack f b := by
  obtain ⟨w, hRead, hTaken, hNull⟩ := h
  exact ⟨w, hRead, map_eq_ok_iff.mpr ⟨_, hTaken, rfl⟩, hNull⟩

end Shape

namespace Fields

theorem comeBack_done : done.ComeBack f () :=
  ⟨[], fun _ _ _ => .nil, (), rfl, rfl⟩

/-- Fields come back if the first one does and the others do, and none of the others has
its name. This is the step of the induction on the fields. -/
theorem comeBack_field {name : String} {absence : Absence α} {shape : Shape α}
    {rest : Fields σ β} {a : α} {b : β} (hShape : shape.ComesBack f a)
    (hName : name ∉ rest.names) (hRest : rest.ComeBack f b) :
    (field name absence shape rest).ComeBack f (a, b) := by
  obtain ⟨w, hRead, hTaken, _⟩ := hShape
  obtain ⟨ns, hReads, slots, hSlots, hFinish⟩ := hRest
  have hKeys := Layout.keys_eq (hReads Layout.compact rest.depth (Nat.le_refl _))
  rw [← rest.map_toMembers b, ← hKeys] at hName
  refine ⟨(name, w) :: ns, ?_, (some (shape.mapTimes f a), slots), ?_, ?_⟩
  · intro l depth hDepth
    have hBoth := max_le_iff.mp hDepth
    exact .cons ⟨rfl, hRead l depth hBoth.1⟩ (hReads l depth hBoth.2)
  · refine foldlM_ofSpelledMember.mpr ⟨?_, ?_⟩
    · rw [valuesOf_cons_self, valuesOf_eq_nil hName]
      exact bind_eq_ok_iff.mpr ⟨_, map_eq_ok_iff.mpr ⟨_, hTaken, rfl⟩, rfl⟩
    · rw [without_cons_self, without, List.filter_eq_self.mpr]
      · exact hSlots
      · intro m hm
        have hOther : m.1 ≠ name := fun hSame => hName (List.mem_map.mpr ⟨m, hm, hSame⟩)
        simpa using hOther
  · exact map_eq_ok_iff.mpr ⟨_, hFinish, rfl⟩

end Fields

mutual

/-- What fits comes back. -/
theorem Shape.comesBack (hTimes : ∀ x, P x → x.reading = .ok (f x)) : {α : Type} →
    (shape : Shape α) → (a : α) → shape.Fits P a → shape.ComesBack f a
  | _, .seconds, x, h => Shape.comesBack_seconds (hTimes x h)
  | _, .whole _ _, _, h => Shape.comesBack_whole h.1 h.2
  | _, .text typeName, s, _ => Shape.comesBack_text typeName s
  | _, .choice _ _ found, a, _ => Shape.comesBack_choice found a
  | _, .list item, _, h => Shape.comesBack_list fun a ha => item.comesBack hTimes a (h a ha)
  | _, .nullable inner, _, h =>
    Shape.comesBack_nullable fun b hb => ⟨(h b hb).1, inner.comesBack hTimes b (h b hb).2⟩
  | _, .record _ fields, a, h => Shape.comesBack_record (fields.comeBack hTimes a h)
  | _, .view _ ofView inner _, b, h =>
    Shape.comesBack_view (inner.comesBack hTimes (ofView b) h)

/-- By induction on the fields of a record, all of them come back. -/
theorem Fields.comeBack (hTimes : ∀ x, P x → x.reading = .ok (f x)) : {σ α : Type} →
    (fields : Fields σ α) → (a : α) → fields.Fit P a → fields.ComeBack f a
  | _, _, .done, (), _ => Fields.comeBack_done
  | _, _, .field _ _ shape rest, (a, b), h =>
    Fields.comeBack_field (shape.comesBack hTimes a h.1) h.2.1 (rest.comeBack hTimes b h.2.2)

end

namespace Shape

variable {shape : Shape α} {a : α}

/-- The text of a value, laid out in any way, is read as the value with its times
replaced. -/
theorem readText_layout (hTimes : ∀ x, P x → x.reading = .ok (f x)) (h : shape.Fits P a)
    (l : Layout) :
    shape.readText (String.ofList (l.chars 0 (shape.toValue a))) = .ok (shape.mapTimes f a) := by
  obtain ⟨w, hRead, hTaken, _⟩ := shape.comesBack hTimes a h
  have hWhole := hRead l shape.depth (Nat.le_refl _) 0 [] (fun b hb => by cases hb)
  have hText := shape.readsSpelled.read hWhole hTaken
  rw [List.append_nil] at hText
  rw [readText, Text.Utf8.encode_ofList, hText]
  rfl

/-- A value of a shape comes back from its compact text with its times replaced and
nothing else changed. -/
theorem readText_compactText (hTimes : ∀ x, P x → x.reading = .ok (f x)) (h : shape.Fits P a) :
    shape.readText (shape.toValue a).compactText = .ok (shape.mapTimes f a) := by
  rw [Value.compactText, ← Layout.chars_compact 0]
  exact readText_layout hTimes h _

/-- A value of a shape comes back from its pretty text with its times replaced and
nothing else changed. -/
theorem readText_prettyText (hTimes : ∀ x, P x → x.reading = .ok (f x)) (h : shape.Fits P a) :
    shape.readText (shape.toValue a).prettyText = .ok (shape.mapTimes f a) := by
  rw [Value.prettyText, ← Layout.chars_pretty]
  exact readText_layout hTimes h _

end Shape

end Json

end RoughCut
