import RoughCut.Proofs.StoredTimes
import RoughCut.Proofs.TranscriptForms

/-!
Cuts taken for transcripts. Nothing in the text of a cut tells that it is none: its
segments are taken for stretches of speech, in which members that are not known are
passed over and words that are not there are none. So a cut is read as a transcript
in which nothing is said.
-/

namespace RoughCut

open Json

/-- A cut as a machine can have it and write it: its times are finite, and an index is
a machine word. -/
structure Cut.Storable (c : Cut) : Prop where
  index : ∀ s ∈ c.segments, s.index < 2 ^ 64
  finite : ∀ x ∈ c.times, x.isFinite = true

/-- The transcript in which nothing is said, of a length that is not known. -/
def Transcript.silent : Transcript := ⟨[], Seconds.zero⟩

namespace Json

variable {σ α : Type} {f : Seconds → Seconds}

/-- However the first value is laid out, it is read as the second, if as many levels as
this may be read. -/
def Value.IsReadAs (levels : Nat) (v w : Value) : Prop :=
  ∀ l : Layout, ∀ depth, levels ≤ depth → l.Reads depth v w

/-- A record is read as an object with members for its fields. -/
theorem Fields.ComeBack.exists_members {fields : Fields σ α} {a : α} (h : fields.ComeBack f a) :
    ∃ ns, ns.map Prod.fst = fields.names ∧
      (Value.object (fields.toMembers a)).IsReadAs (fields.depth + 1) (.object ns) := by
  obtain ⟨ns, hReads, -⟩ := h
  refine ⟨ns, ?_, fun l depth hDepth => ?_⟩
  · rw [Layout.keys_eq (hReads Layout.compact fields.depth (Nat.le_refl _)),
      fields.map_toMembers]
  · obtain ⟨depth, rfl⟩ := Nat.exists_eq_add_of_le' (Nat.le_trans (Nat.le_add_left 1 _) hDepth)
    exact Layout.reads_object (hReads l depth (Nat.le_of_succ_le_succ hDepth))

end Json

/-- An object without words is a stretch of silence, whatever else it has. The words
have a default, and fields that are not known are passed over. -/
theorem Whisper.ofValue_segment {ms : List (String × Value)} (h : "words" ∉ ms.map Prod.fst) :
    segment.ofValue (.object ms) = .ok [] := by
  have hFound : (Fields.field "words" (.anywhere []) (.list word) .done).FoundIn ms (none, ()) := by
    refine ⟨?_, trivial⟩
    rw [valuesOf_eq_nil h]
    exact .nil
  rw [segment, Shape.ofValue, Shape.ofValue_record hFound]
  rfl

namespace Segment

variable {s : Segment}

/-- However a segment is laid out, what is read is a stretch of silence. -/
theorem exists_silence (hIndex : s.index < 2 ^ 64) (hStart : s.start.isFinite = true)
    (hStop : s.stop.isFinite = true) :
    ∃ w, Whisper.segment.ofValue w = .ok [] ∧ (shape.toValue s).IsReadAs 2 w := by
  have hFits : shape.Fits (fun x => x.isFinite = true) s := fits hIndex hStart hStop
  obtain ⟨ns, hKeys, hReads⟩ :=
    (Fields.comeBack (fun _ => Seconds.reading_of_isFinite) _ _ hFits).exists_members
  refine ⟨.object ns, Whisper.ofValue_segment ?_, hReads⟩
  rw [hKeys]
  decide

end Segment

namespace Whisper

/-- Stretches of silence are read one by one, and no word is in them. -/
theorem mapM_ofValue_segment {ws : List Value} (h : ∀ w ∈ ws, segment.ofValue w = .ok []) :
    ws.mapM segment.ofValue = .ok (ws.map fun _ => []) := by
  induction ws with
  | nil => rfl
  | cons w ws ih =>
      rw [List.mapM_cons, h w List.mem_cons_self, ok_bind,
        ih fun v hv => h v (List.mem_cons_of_mem w hv)]
      rfl

/-- An object with silent segments and no duration is a silent transcript, whatever its
other member is. -/
theorem ofValue_transcript {ws : List Value} (h : ∀ w ∈ ws, segment.ofValue w = .ok [])
    (report : Value) :
    transcript.ofValue (.object [("segments", .array ws), ("report", report)]) =
      .ok Transcript.silent := by
  have hFound : (Fields.field "duration" (.anywhere Seconds.zero) .seconds
      (.field "segments" .required (.list segment) .done)).FoundIn
        [("segments", .array ws), ("report", report)]
        (none, some (ws.map fun _ => []), ()) := by
    refine ⟨.nil, .cons ?_ .nil, trivial⟩
    exact mapM_ofValue_segment h
  have hFlatten : (ws.map fun _ => ([] : List Token)).flatten = [] := by simp
  rw [transcript, Shape.ofValue, Shape.ofValue_record hFound]
  change Except.ok (Transcript.mk _ _) = _
  rw [hFlatten]
  rfl

end Whisper

namespace Cut

variable {c : Cut}

/-- However a cut is laid out, what is read has silent segments and a report. -/
theorem exists_silence (h : c.Storable) :
    ∃ ws report, (shape.toValue c).IsReadAs 4
        (.object [("segments", .array ws), ("report", report)]) ∧
      ∀ w ∈ ws, Whisper.segment.ofValue w = .ok [] := by
  obtain ⟨ws, hSegments⟩ := exists_forall₂
    (R := fun w s => Whisper.segment.ofValue w = .ok [] ∧ (Segment.shape.toValue s).IsReadAs 2 w)
    fun s hs => Segment.exists_silence (h.index s hs) (h.finite _ (start_mem_times hs))
      (h.finite _ (stop_mem_times hs))
  obtain ⟨hSilent, hLaidOut⟩ := (List.forall₂_and_left ..).mp hSegments
  have hReport : Report.shape.Fits (fun x => x.isFinite = true) c.report :=
    (fits h.index h.finite).2.2.1
  obtain ⟨report, hReads, -⟩ :=
    Report.shape.comesBack (fun _ => Seconds.reading_of_isFinite) c.report hReport
  refine ⟨ws, report, fun l depth hDepth => ?_, hSilent⟩
  obtain ⟨depth, rfl⟩ := Nat.exists_eq_add_of_le' (Nat.le_trans (Nat.le_add_left 2 2) hDepth)
  have hItems : List.Forall₂ (l.Reads depth) (c.segments.map Segment.shape.toValue) ws := by
    rw [List.forall₂_map_left_iff]
    exact hLaidOut.flip.imp fun s w hSegment => hSegment l depth (by omega)
  exact Layout.reads_object (.cons ⟨rfl, Layout.reads_array hItems⟩
    (.cons ⟨rfl, hReads l (depth + 1) (by change 3 ≤ _; omega)⟩ .nil))

/-- A cut laid out in any way is taken for a silent transcript. It has no member for
tokens, so it is read in the form of the transcriber. -/
theorem ofJson_layout (h : c.Storable) (l : Layout) :
    Transcript.ofJson (String.ofList (l.chars 0 (shape.toValue c))) = .ok Transcript.silent := by
  obtain ⟨ws, report, hReads, hSilent⟩ := exists_silence h
  have hWhole := hReads l Value.depthLimit (by decide) 0 [] (fun b hb => by cases hb)
  have hParse : Value.parse (String.ofList (l.chars 0 (shape.toValue c))) =
      .ok (.object [("segments", .array ws), ("report", report)]) := by
    rw [List.append_nil] at hWhole
    rw [Value.parse, Text.Utf8.encode_ofList, hWhole]
    rfl
  rw [Transcript.ofJson_object hParse]
  exact congrArg mismatched (Whisper.ofValue_transcript hSilent report)

/-- Both texts of a cut are taken for a silent transcript. -/
theorem Storable.ofJson_texts (h : c.Storable) :
    Transcript.ofJson c.compactJson = .ok Transcript.silent ∧
      Transcript.ofJson c.prettyJson = .ok Transcript.silent := by
  rw [compactJson, Value.compactText, ← Layout.chars_compact 0, prettyJson, Value.prettyText,
    ← Layout.chars_pretty]
  exact ⟨ofJson_layout h _, ofJson_layout h _⟩

end Cut

end RoughCut
