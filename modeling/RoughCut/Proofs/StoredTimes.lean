import RoughCut.Proofs.Json.ReadTimes
import RoughCut.Proofs.StoredCuts

/-!
The times of stored cuts. A cut with finite times is read from its texts, but a time
may come back as one that lies next to it. A cut of which all times are short comes
back as it was.
-/

namespace RoughCut

open Json

mutual

/-- A value of which the times are kept is kept. -/
theorem Json.Shape.mapTimes_id : {α : Type} → (shape : Shape α) → (a : α) →
    shape.mapTimes id a = a
  | _, .seconds, _ => rfl
  | _, .whole _ _, _ => rfl
  | _, .text _, _ => rfl
  | _, .choice _ _ _, _ => rfl
  | _, .list item, as => by
      rw [Shape.mapTimes, funext item.mapTimes_id]
      exact List.map_id as
  | _, .nullable inner, a => by
      rw [Shape.mapTimes, funext inner.mapTimes_id]
      exact Option.map_id_apply
  | _, .record _ fields, a => fields.mapTimes_id a
  | _, .view toView ofView inner law, b => by
      rw [Shape.mapTimes, inner.mapTimes_id, law]

theorem Json.Fields.mapTimes_id : {σ α : Type} → (fields : Fields σ α) → (a : α) →
    fields.mapTimes id a = a
  | _, _, .done, () => rfl
  | _, _, .field _ _ shape rest, (a, b) => by
      rw [Fields.mapTimes, shape.mapTimes_id, rest.mapTimes_id]

end

variable {c d : Cut}

namespace Seconds

/-- The second time is read from the text of the first. -/
def ReadInto (x y : Seconds) : Prop :=
  x.reading = .ok y

/-- A finite time that is read again from its text comes back with its sign and a few
neighbours off at most, and as itself where its text is short. -/
theorem ReadInto.beside {x y : Seconds} (h : x.ReadInto y) (hFinite : x.isFinite = true) :
    x.Beside y := by
  obtain ⟨z, hz, hBeside⟩ := exists_reading hFinite
  obtain rfl := Except.ok.inj (h.symm.trans hz)
  exact hBeside

/-- The same of times in a list, one by one. -/
theorem ReadInto.beside_all {xs ys : List Seconds} (h : List.Forall₂ ReadInto xs ys)
    (hFinite : ∀ x ∈ xs, x.isFinite = true) : List.Forall₂ Beside xs ys := by
  induction h with
  | nil => exact .nil
  | cons hHere _ ih =>
      exact .cons (hHere.beside (hFinite _ List.mem_cons_self))
        (ih fun x hx => hFinite x (List.mem_cons_of_mem _ hx))

end Seconds

theorem Segment.Reread.times {s t : Segment} (h : s.Reread t) :
    List.Forall₂ Seconds.ReadInto [s.start, s.stop] [t.start, t.stop] :=
  .cons h.start (.cons h.stop .nil)

theorem Issue.Reread.starts {is js : List Issue} (h : List.Forall₂ Issue.Reread is js) :
    List.Forall₂ Seconds.ReadInto (is.map Issue.start) (js.map Issue.start) := by
  rw [List.forall₂_map_left_iff, List.forall₂_map_right_iff]
  exact h.imp fun _ _ hIssue => hIssue.start

namespace Cut

/-- The times of a cut are in the order of those they are read from. -/
theorem Reread.times (h : c.Reread d) : List.Forall₂ Seconds.ReadInto c.times d.times := by
  have hSegments : List.Forall₂ Seconds.ReadInto (c.segments.flatMap fun s => [s.start, s.stop])
      (d.segments.flatMap fun s => [s.start, s.stop]) := by
    have hTimes := h.segments
    generalize c.segments = ss at *
    generalize d.segments = ts at *
    induction hTimes with
    | nil => exact .nil
    | cons hSegment _ ih => exact List.rel_append hSegment.times ih
  have hIssues := List.rel_append h.errors h.warnings
  exact List.rel_append hSegments (Issue.Reread.starts hIssues)

/-- Both texts of a cut with finite times are read as the same cut, which has all that
was written and each of its times beside the one it was written for. -/
theorem beside_of_texts (c : Cut) (hIndex : ∀ s ∈ c.segments, s.index < 2 ^ 64)
    (hFinite : ∀ x ∈ c.times, x.isFinite = true) :
    ∃ d, shape.readText c.compactJson = .ok d ∧ shape.readText c.prettyJson = .ok d ∧
      c.Reread d ∧ List.Forall₂ Seconds.Beside c.times d.times := by
  have hReading : ∀ x ∈ c.times, x.reading = .ok x.reread :=
    fun x hx => Seconds.reading_of_isFinite (hFinite x hx)
  obtain ⟨hCompact, hPretty⟩ := readText_mapTimes hIndex hReading
  have hReread := reread_mapTimes hReading
  refine ⟨shape.mapTimes Seconds.reread c, hCompact, hPretty, hReread, ?_⟩
  exact Seconds.ReadInto.beside_all hReread.times hFinite

/-- A cut with short times comes back from both its texts as it was. Where other times
are among them, these may be read as times beside them. -/
theorem readText_of_short (hIndex : ∀ s ∈ c.segments, s.index < 2 ^ 64)
    (hFinite : ∀ x ∈ c.times, x.isFinite = true) (hShort : ∀ x ∈ c.times, x.shortest.Short) :
    shape.readText c.compactJson = .ok c ∧ shape.readText c.prettyJson = .ok c := by
  have hReading : ∀ x ∈ c.times, x.reading = .ok (id x) := by
    intro x hx
    obtain ⟨y, hy, hBeside⟩ := Seconds.exists_reading (hFinite x hx)
    rw [hy, hBeside.same (hShort x hx), id]
  have hTexts := readText_mapTimes hIndex hReading
  rwa [Shape.mapTimes_id] at hTexts

/-- The first time comes back, the second is read as the one before it. -/
theorem beside_of_texts_drifted :
    let segment : Segment :=
      ⟨1, ⟨0x3FF8000000000000⟩, ⟨0x4057EE1191E74A21⟩, some 3, none, "", Tags.ofList []⟩
    let c : Cut := ⟨[segment], ⟨[], []⟩⟩
    (∀ s ∈ c.segments, s.index < 2 ^ 64) ∧ (∀ x ∈ c.times, x.isFinite = true) ∧
      ∃ d, shape.readText c.compactJson = .ok d ∧ shape.readText c.prettyJson = .ok d ∧
        c.Reread d ∧ List.Forall₂ Seconds.Beside c.times d.times := by
  intro segment c
  have hIndex : ∀ s ∈ c.segments, s.index < 2 ^ 64 := by decide
  have hFinite : ∀ x ∈ c.times, x.isFinite = true := by decide
  exact ⟨hIndex, hFinite, beside_of_texts c hIndex hFinite⟩

/-- A cut with a finite time that is not read as it was. -/
theorem texts_lose_time :
    let c : Cut := ⟨[], ⟨[⟨.malformedMarker, ⟨0x4057EE1191E74A21⟩, ""⟩], []⟩⟩
    (∀ x ∈ c.times, x.isFinite = true) ∧
      shape.readText c.compactJson ≠ .ok c ∧ shape.readText c.prettyJson ≠ .ok c := by
  intro c
  have hFinite : ∀ x ∈ c.times, x.isFinite = true := by decide
  have hMagnitude : Number.magnitude? (Seconds.shortest ⟨0x4057EE1191E74A21⟩).spelling.whole
      ((Seconds.shortest ⟨0x4057EE1191E74A21⟩).spelling.fraction.getD [])
      ((Seconds.shortest ⟨0x4057EE1191E74A21⟩).spelling.exponent?.getD 0) =
        some 0x4057EE1191E74A20 := by
    decide +kernel
  have hReading : Seconds.reading ⟨0x4057EE1191E74A21⟩ = .ok ⟨0x4057EE1191E74A20⟩ := by
    refine Seconds.reading_of_spelled (by decide) ?_
    rw [Decimal.number_spelling, Number.ofDigits, hMagnitude]
    rfl
  obtain ⟨hCompact, hPretty⟩ := readText_mapTimes (c := c)
    (f := fun _ => ⟨0x4057EE1191E74A20⟩) (by decide) (by
      intro x hx
      obtain rfl := List.mem_singleton.mp hx
      exact hReading)
  have hOther : shape.mapTimes (fun _ => ⟨0x4057EE1191E74A20⟩) c ≠ c :=
    fun hSame => absurd (congrArg Cut.times hSame) (by decide)
  rw [hCompact, hPretty]
  exact ⟨hFinite, fun h => hOther (Except.ok.inj h), fun h => hOther (Except.ok.inj h)⟩

end Cut

end RoughCut
