import Mathlib.Data.List.Forall2
import RoughCut.Proofs.Json.WrittenShapes
import RoughCut.Record

/-!
Cuts as they are stored. Both texts of a cut are read as one cut, which differs
from the one that was written in its times at most, and each of these is what its
own text is read as.
-/

namespace RoughCut

open Json

/-- The second segment is the first with its times read from their texts. -/
structure Segment.Reread (s t : Segment) : Prop where
  index : t.index = s.index
  start : s.start.reading = .ok t.start
  stop : s.stop.reading = .ok t.stop
  scene : t.scene = s.scene
  step : t.step = s.step
  label : t.label = s.label
  tags : t.tags = s.tags

structure Issue.Reread (i j : Issue) : Prop where
  kind : j.kind = i.kind
  start : i.start.reading = .ok j.start
  detail : j.detail = i.detail

/-- The second cut has the segments and the issues of the first in the same order,
with their times read from their texts. -/
structure Cut.Reread (c d : Cut) : Prop where
  segments : List.Forall₂ Segment.Reread c.segments d.segments
  errors : List.Forall₂ Issue.Reread c.report.errors d.report.errors
  warnings : List.Forall₂ Issue.Reread c.report.warnings d.report.warnings

/-- All times of a cut. -/
def Cut.times (c : Cut) : List Seconds :=
  c.segments.flatMap (fun s => [s.start, s.stop]) ++
    (c.report.errors ++ c.report.warnings).map Issue.start

variable {P : Seconds → Prop} {f : Seconds → Seconds}

namespace Json.Shape

theorem fits_word32 (n : UInt32) : word32.Fits P n := by
  have hWord := n.toNat_lt
  exact ⟨Nat.le_sub_one_of_lt hWord, Nat.le_trans (Nat.le_of_lt hWord) (by decide)⟩

theorem mapTimes_word32 (n : UInt32) : word32.mapTimes f n = n :=
  UInt32.ofNat_toNat

theorem fits_scene (n : Option UInt32) : (nullable word32).Fits P n :=
  fun m _ => ⟨Value.noConfusion, fits_word32 m⟩

theorem mapTimes_scene (n : Option UInt32) : (nullable word32).mapTimes f n = n := by
  cases n with
  | none => rfl
  | some n => exact congrArg some (mapTimes_word32 n)

/-- Tags can always be told from their text, for they are texts in order, each of them
once. -/
theorem fits_tags (t : Tags) : tags.Fits P t :=
  fun _ _ => trivial

theorem mapTimes_tags (t : Tags) : tags.mapTimes f t = t := by
  have hTexts : t.toList.map (string.mapTimes f) = t.toList := List.map_id t.toList
  change Tags.ofList (t.toList.map (string.mapTimes f)) = t
  rw [hTexts, Tags.ofList_toList]

end Json.Shape

namespace Segment

variable {s : Segment}

/-- A segment can be told from its text if its index is a machine word and its times can
be. Its other fields always can. -/
theorem fits (hIndex : s.index < 2 ^ 64) (hStart : P s.start) (hStop : P s.stop) :
    shape.Fits P s := by
  have hIndex : s.index ≤ Nat.pow 2 64 - 1 := Nat.le_sub_one_of_lt hIndex
  exact ⟨⟨hIndex, hIndex⟩, by decide, hStart, by decide, hStop, by decide,
    Json.Shape.fits_scene s.scene, by decide, Json.Shape.fits_scene s.step, by decide, trivial,
    by decide, Json.Shape.fits_tags s.tags, by decide, trivial⟩

/-- To replace the times of a segment by what they are read as is all that reading does
to it. -/
theorem reread_mapTimes (hStart : s.start.reading = .ok (f s.start))
    (hStop : s.stop.reading = .ok (f s.stop)) : s.Reread (shape.mapTimes f s) where
  index := rfl
  start := hStart
  stop := hStop
  scene := Json.Shape.mapTimes_scene s.scene
  step := Json.Shape.mapTimes_scene s.step
  label := rfl
  tags := Json.Shape.mapTimes_tags s.tags

end Segment

namespace Issue

variable {i : Issue}

theorem fits (h : P i.start) : shape.Fits P i :=
  ⟨trivial, by decide, h, by decide, trivial, by decide, trivial⟩

/-- To replace the time of an issue by what it is read as is all that reading does to
it. -/
theorem reread_mapTimes (h : i.start.reading = .ok (f i.start)) : i.Reread (shape.mapTimes f i) :=
  ⟨rfl, h, rfl⟩

end Issue

namespace Cut

variable {c : Cut}

theorem forall₂_map {α : Type} {R : α → α → Prop} {g : α → α} {l : List α}
    (h : ∀ a ∈ l, R a (g a)) : List.Forall₂ R l (l.map g) := by
  rw [List.forall₂_map_right_iff]
  exact List.forall₂_same.mpr h

theorem start_mem_times {s : Segment} (h : s ∈ c.segments) : s.start ∈ c.times := by
  simp only [times, List.mem_append, List.mem_flatMap]
  exact Or.inl ⟨s, h, by simp⟩

theorem stop_mem_times {s : Segment} (h : s ∈ c.segments) : s.stop ∈ c.times := by
  simp only [times, List.mem_append, List.mem_flatMap]
  exact Or.inl ⟨s, h, by simp⟩

theorem error_mem_times {i : Issue} (h : i ∈ c.report.errors) : i.start ∈ c.times := by
  simp only [times, List.mem_append, List.mem_map]
  exact Or.inr ⟨i, Or.inl h, rfl⟩

theorem warning_mem_times {i : Issue} (h : i ∈ c.report.warnings) : i.start ∈ c.times := by
  simp only [times, List.mem_append, List.mem_map]
  exact Or.inr ⟨i, Or.inr h, rfl⟩

/-- A cut can be told from its text if its times can be and its indices are machine
words. -/
theorem fits (hIndex : ∀ s ∈ c.segments, s.index < 2 ^ 64) (hTimes : ∀ x ∈ c.times, P x) :
    shape.Fits P c := by
  refine ⟨?_, by decide, ⟨?_, by decide, ?_, by decide, trivial⟩, by decide, trivial⟩
  · exact fun s hs => Segment.fits (hIndex s hs) (hTimes _ (start_mem_times hs))
      (hTimes _ (stop_mem_times hs))
  · exact fun i hi => Issue.fits (hTimes _ (error_mem_times hi))
  · exact fun i hi => Issue.fits (hTimes _ (warning_mem_times hi))

/-- To replace the times of a cut by what they are read as is all that reading does to
it. -/
theorem reread_mapTimes (h : ∀ x ∈ c.times, x.reading = .ok (f x)) :
    c.Reread (shape.mapTimes f c) where
  segments := forall₂_map fun _ hs =>
    Segment.reread_mapTimes (h _ (start_mem_times hs)) (h _ (stop_mem_times hs))
  errors := forall₂_map fun _ hi =>
    Issue.reread_mapTimes (h _ (error_mem_times hi))
  warnings := forall₂_map fun _ hi =>
    Issue.reread_mapTimes (h _ (warning_mem_times hi))

/-- Both texts of a cut are read as the cut with its times replaced by what their own
texts are read as. -/
theorem readText_mapTimes (hIndex : ∀ s ∈ c.segments, s.index < 2 ^ 64)
    (hReading : ∀ x ∈ c.times, x.reading = .ok (f x)) :
    shape.readText c.compactJson = .ok (shape.mapTimes f c) ∧
      shape.readText c.prettyJson = .ok (shape.mapTimes f c) :=
  have hFits := fits hIndex hReading
  ⟨Json.Shape.readText_compactText (fun _ h => h) hFits,
    Json.Shape.readText_prettyText (fun _ h => h) hFits⟩

/-- Both texts of a cut are read as the same cut, which has all that was written and
its times as their own texts are read. An index is a machine word. -/
theorem reread_of_texts (c : Cut) (hIndex : ∀ s ∈ c.segments, s.index < 2 ^ 64)
    (hTimes : ∀ x ∈ c.times, ∃ y, x.reading = .ok y) :
    ∃ d, shape.readText c.compactJson = .ok d ∧ shape.readText c.prettyJson = .ok d ∧
      c.Reread d := by
  have hReading : ∀ x ∈ c.times, x.reading = .ok x.reread := by
    intro x hx
    obtain ⟨y, hRead⟩ := hTimes x hx
    exact Seconds.reading_eq_reread hRead
  obtain ⟨hCompact, hPretty⟩ := readText_mapTimes hIndex hReading
  exact ⟨shape.mapTimes Seconds.reread c, hCompact, hPretty, reread_mapTimes hReading⟩

/-- A label with a quote, a line break and a letter beyond ASCII, a tag, a number that
is missing and one that is there. -/
theorem reread_of_texts_escaped :
    let segment : Segment :=
      ⟨1, ⟨0x3FF8000000000000⟩, ⟨0x4004CCCCCCCCCCCD⟩, some 3, none, "\"hall\"\n\u00e9",
        Tags.ofList ["broll"]⟩
    let c : Cut := ⟨[segment], ⟨[], [⟨.deprecatedCommand, ⟨0x3FE0000000000000⟩, "end\t1"⟩]⟩⟩
    (∀ s ∈ c.segments, s.index < 2 ^ 64) ∧ (∀ x ∈ c.times, ∃ y, x.reading = .ok y) ∧
      ∃ d, shape.readText c.compactJson = .ok d ∧ shape.readText c.prettyJson = .ok d ∧
        c.Reread d := by
  intro segment c
  have hIndex : ∀ s ∈ c.segments, s.index < 2 ^ 64 := by
    intro s hs
    obtain rfl := List.mem_singleton.mp hs
    decide
  have hTimes : ∀ x ∈ c.times, ∃ y, x.reading = .ok y := by
    have hAll : c.times.all (fun x => x.reading.isOk) = true := by decide +kernel
    intro x hx
    have hOk := List.all_eq_true.mp hAll x hx
    cases hReading : x.reading with
    | ok y => exact ⟨y, rfl⟩
    | error fault => simp [hReading, Except.isOk, Except.toBool] at hOk
  exact ⟨hIndex, hTimes, reread_of_texts c hIndex hTimes⟩

end Cut

end RoughCut
