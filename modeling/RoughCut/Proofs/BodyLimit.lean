import Mathlib.Algebra.Group.Action.Defs
import Mathlib.Algebra.Order.BigOperators.Group.List
import RoughCut.Proofs.Json.Lengths
import RoughCut.Proofs.StoredCuts
import RoughCut.Proofs.TranscriptRoutes

/-!
The limit on bodies and the limit on tokens. The first counts the bytes of
tokens and not the commas between them, so it holds all transcripts that the
second admits where there is room for the commas, and not where tokens take all
the bytes that are counted on.
-/

namespace RoughCut

open Json

/-- The bytes of the token as a record without a blank. -/
def Token.size (t : Token) : Nat :=
  (shape.toValue t).size

/-- A token is written with its text, its time and twenty-three bytes around them. So it
keeps to its room where its text and its time leave that many bytes of it. -/
theorem Token.size_eq (t : Token) :
    t.size = (Value.text t.text).size + (Value.number (.decimal t.start)).size + 23 := by
  have hKeys : (Value.text "text").size = 6 ∧ (Value.text "start_time").size = 12 := by
    rw [Value.size_eq, Value.size_eq]
    decide
  have hObject : t.size =
      (Value.object [("text", .text t.text), ("start_time", .number (.decimal t.start))]).size :=
    rfl
  simp only [hObject, Value.size_object, Value.memberSize, hKeys, List.map_cons, List.map_nil,
    List.sum_cons, List.sum_nil, List.length_cons, List.length_nil]
  omega

namespace Transcript

variable {t : Transcript}

/-- The transcript as a text without a blank. -/
def compactJson (t : Transcript) : String :=
  (shape.toValue t).compactText

/-- All times of the transcript are finite. -/
def HasFiniteTimes (t : Transcript) : Prop :=
  t.duration.isFinite = true ∧ ∀ token ∈ t.tokens, token.start.isFinite = true

/-- The bytes of a transcript: its tokens, the commas between them, its duration,
and thirty-one more for the names of the two fields and the marks around them. -/
theorem length_compactJson (t : Transcript) :
    (Text.Utf8.encode t.compactJson).length =
      (t.tokens.map Token.size).sum + (t.tokens.length - 1) +
        (Value.number (.decimal t.duration)).size + 31 := by
  have hKeys : (Value.text "tokens").size = 8 ∧ (Value.text "total_duration").size = 16 := by
    rw [Value.size_eq, Value.size_eq]
    decide
  have hObject : (Text.Utf8.encode t.compactJson).length =
      (Value.object [("tokens", .array (t.tokens.map Token.shape.toValue)),
        ("total_duration", .number (.decimal t.duration))]).size := rfl
  have hTokens : (t.tokens.map Token.shape.toValue).map Value.size = t.tokens.map Token.size :=
    List.map_map
  simp only [hObject, Value.size_object, Value.size_array, Value.memberSize, hKeys, hTokens,
    List.map_cons, List.map_nil, List.sum_cons, List.sum_nil, List.length_cons, List.length_nil,
    List.length_map]
  omega

/-- Where each token takes so many bytes at most, a transcript with finite times
takes no more than these, a comma for each token and fifty-five. -/
theorem length_compactJson_le (hTimes : t.HasFiniteTimes) {limit : Nat}
    (hTokens : ∀ token ∈ t.tokens, token.size ≤ limit) :
    (Text.Utf8.encode t.compactJson).length ≤
      limit * t.tokens.length + (t.tokens.length - 1) + 55 := by
  have hSum : (t.tokens.map Token.size).sum ≤ (t.tokens.map Token.size).length • limit :=
    List.sum_le_card_nsmul _ _ (List.forall_mem_map.mpr hTokens)
  have hDuration := Value.size_time_le hTimes.1
  rw [List.length_map, smul_eq_mul, Nat.mul_comm] at hSum
  rw [length_compactJson]
  omega

/-- The text of a transcript with finite times is read as one with as many tokens. Times
may be read as others beside them, but the token limit only counts. -/
theorem readText_compactJson (h : t.HasFiniteTimes) :
    ∃ u, shape.readText t.compactJson = .ok u ∧ u.tokens.length = t.tokens.length := by
  have hFits : shape.Fits (fun x => x.isFinite = true) t :=
    ⟨fun token hMem => ⟨trivial, by decide, h.2 token hMem, by decide, trivial⟩, by decide, h.1,
      by decide, trivial⟩
  exact ⟨shape.mapTimes Seconds.reread t,
    Shape.readText_compactText (fun _ => Seconds.reading_of_isFinite) hFits, List.length_map _⟩

end Transcript

namespace Web

/-- A transcript that keeps to the limit on tokens is not refused for its bytes,
as long as there is room for the commas: in what is left of the limit, or in what
is counted on for each token. Its length is a number of sixty-four bits, as that
of every text is. -/
theorem status_of_small_tokens {t : Transcript} {maxTokens : Nat}
    (hCount : t.tokens.length ≤ maxTokens) (hTimes : t.HasFiniteTimes)
    (hTokens : ∀ token ∈ t.tokens, token.size ≤ bytesPerToken)
    (hCommas : (bytesPerToken + 1) * t.tokens.length + 54 ≤ bytesPerToken * maxTokens + bytesAround ∨
      ∀ token ∈ t.tokens, token.size + 1 ≤ bytesPerToken)
    (hLength : (Text.Utf8.encode t.compactJson).length < 2 ^ 64) :
    (Text.Utf8.encode t.compactJson).length ≤ bodyLimit maxTokens ∧
      ∀ request : Request, request.Posts t.compactJson → (respond maxTokens request).status = 200 := by
  have hPer : bytesPerToken = 256 := rfl
  have hAround : bytesAround = 1024 := rfl
  have hRoom : (Text.Utf8.encode t.compactJson).length ≤
      bytesPerToken * maxTokens + bytesAround := by
    rcases hCommas with hRest | hEach
    · have hAll := Transcript.length_compactJson_le hTimes hTokens
      rw [hPer] at hAll hRest ⊢
      omega
    · have hEach : ∀ token ∈ t.tokens, token.size ≤ bytesPerToken - 1 :=
        fun token hMem => Nat.le_sub_one_of_lt (hEach token hMem)
      have hAll := Transcript.length_compactJson_le hTimes hEach
      rw [hPer] at hAll ⊢
      omega
  have hLimit : (Text.Utf8.encode t.compactJson).length ≤ bodyLimit maxTokens :=
    Nat.le_min.mpr ⟨hRoom, Nat.le_sub_one_of_lt hLength⟩
  refine ⟨hLimit, fun request hPosts => ?_⟩
  obtain ⟨u, hRead, hSame⟩ := Transcript.readText_compactJson hTimes
  have hBody := readBody_of_readFront (Shape.readFront_of_readText hRead) hLimit
    (by rw [hSame]; exact hCount)
  rw [hPosts.respond_eq, cutResponse, hPosts.readRequest_eq, hBody]
  rfl

/-- A token of which the record takes all the bytes that are counted on. -/
def longToken : Token :=
  ⟨String.ofList (List.replicate 228 'a'), Seconds.zero⟩

/-- A letter of ASCII takes one byte. -/
theorem size_letters (count : Nat) :
    (Value.text (String.ofList (List.replicate count 'a'))).size = count + 2 := by
  have hLetter : Literal.charText 'a' = ['a'] := by decide
  have hByte : String.utf8EncodeChar 'a' = [0x61] := by decide
  have hQuote : String.utf8EncodeChar '"' = [Byte.quote] := by decide
  rw [Value.size_eq, Value.compact, Literal.chars, String.toList_ofList, List.flatMap_replicate,
    hLetter, List.flatten_replicate_singleton, List.flatMap_append, List.flatMap_cons,
    List.flatMap_replicate, hByte, List.flatten_replicate_singleton, List.flatMap_singleton, hQuote]
  simp

/-- A token of just the size for which there is room can be spelled. -/
theorem size_longToken : longToken.size = bytesPerToken := by
  have hText : (Value.text longToken.text).size = 230 := size_letters 228
  have hZero : (Value.number (.decimal longToken.start)).size = 3 := by
    rw [Value.size_eq]
    decide +kernel
  rw [Token.size_eq, hText, hZero]
  rfl

/-- So many long tokens one after the other. -/
def longTranscript (count : Nat) : Transcript :=
  ⟨List.replicate count longToken, Seconds.zero⟩

/-- The request that posts a transcript without a blank. -/
def posting (t : Transcript) : Request :=
  ⟨"POST", "/segments", some "application/json", Text.Utf8.encode t.compactJson⟩

theorem posts_posting (t : Transcript) : (posting t).Posts t.compactJson where
  method := rfl
  resource := show Resource.ofTarget? "/segments" = some .segments by decide
  contentType := show MediaType.announcesJson "application/json" = true by decide
  body := rfl

section LongTranscript

variable (count : Nat)

theorem count_longTranscript : (longTranscript count).tokens.length = count :=
  List.length_replicate

theorem finite_longTranscript : (longTranscript count).HasFiniteTimes := by
  have hZero : Seconds.zero.isFinite = true := by decide
  exact ⟨hZero, fun _ hMem => List.eq_of_mem_replicate hMem ▸ hZero⟩

/-- None of the long tokens takes more room than there is for each. -/
theorem size_of_mem_longTranscript :
    ∀ token ∈ (longTranscript count).tokens, token.size ≤ bytesPerToken :=
  fun _ hMem => by rw [List.eq_of_mem_replicate hMem, size_longToken]

/-- Beside its tokens a transcript has the commas between them and thirty-four bytes
around them, which count as well. -/
theorem length_longTranscript :
    (Text.Utf8.encode (longTranscript count).compactJson).length =
      bytesPerToken * count + (count - 1) + 34 := by
  have hZero : (Value.number (.decimal Seconds.zero)).size = 3 := by
    rw [Value.size_eq]
    decide +kernel
  rw [Transcript.length_compactJson]
  simp only [longTranscript, List.map_replicate, size_longToken, List.sum_replicate, smul_eq_mul,
    List.length_replicate, hZero, Nat.mul_comm count]

end LongTranscript

/-- The commas leave room for as many long tokens, to the last byte that is kept
for the longest duration. -/
theorem status_of_small_tokens_long :
    (longTranscript 970).tokens.length ≤ 970 ∧ (longTranscript 970).HasFiniteTimes ∧
      (∀ token ∈ (longTranscript 970).tokens, token.size ≤ bytesPerToken) ∧
      (posting (longTranscript 970)).Posts (longTranscript 970).compactJson ∧
      (respond 970 (posting (longTranscript 970))).status = 200 := by
  have hCount : (longTranscript 970).tokens.length = 970 := count_longTranscript 970
  have hLength := length_longTranscript 970
  have hPer : bytesPerToken = 256 := rfl
  have hAround : bytesAround = 1024 := rfl
  rw [hPer] at hLength
  obtain ⟨-, hStatus⟩ := status_of_small_tokens (Nat.le_of_eq hCount) (finite_longTranscript 970)
    (size_of_mem_longTranscript 970) (Or.inl (by rw [hCount, hPer, hAround])) (by omega)
  exact ⟨Nat.le_of_eq hCount, finite_longTranscript 970, size_of_mem_longTranscript 970,
    posts_posting _, hStatus _ (posts_posting _)⟩

/-- A thousand long tokens are admitted by the one limit and refused by the other. The
commas between the records have used up the room around them. -/
theorem bodyLimit_lt_thousand :
    (longTranscript 1000).tokens.length ≤ 1000 ∧ (longTranscript 1000).HasFiniteTimes ∧
      (∀ token ∈ (longTranscript 1000).tokens, token.size ≤ bytesPerToken) ∧
      bodyLimit 1000 < (Text.Utf8.encode (longTranscript 1000).compactJson).length ∧
      (respond 1000 (posting (longTranscript 1000))).status = 413 := by
  have hLong : bodyLimit 1000 < (Text.Utf8.encode (longTranscript 1000).compactJson).length := by
    rw [length_longTranscript]
    decide
  refine ⟨Nat.le_of_eq (count_longTranscript 1000), finite_longTranscript 1000,
    size_of_mem_longTranscript 1000, hLong, ?_⟩
  have hPosts := posts_posting (longTranscript 1000)
  rw [hPosts.respond_eq, cutResponse, hPosts.readRequest_eq, readBody, if_pos hLong]
  rfl

end Web

end RoughCut
