import Mathlib.Algebra.Group.Nat.Defs
import RoughCut.Proofs.Json.Refused
import RoughCut.Proofs.Json.Settled
import RoughCut.Proofs.TranscriptRoutes

/-!
What becomes of a posted body. It is answered by itself: its length is looked at before
anything in it, then the first problem that reading it meets, and the count of tokens
last. Main statement: the answer to every body that is posted as JSON.
-/

namespace RoughCut.Web

open Json

/-- The nearest count of sixty-four bits. -/
def saturate (n : Nat) : Nat :=
  min n (2 ^ 64 - 1)

/-- Counting with sixty-four bits at each step comes to the same limit. -/
theorem bodyLimit_eq_saturate (maxTokens : Nat) :
    bodyLimit maxTokens = saturate (saturate (maxTokens * bytesPerToken) + bytesAround) := by
  have hPower : Nat.pow 2 64 = 2 ^ 64 := rfl
  simp only [bodyLimit, saturate, bytesPerToken, bytesAround, hPower]
  omega

variable {maxTokens : Nat} {request : Request} {body : List UInt8} {t : Transcript}
  {fault : Fault}

/-- The request posts something as JSON to be cut. -/
structure Request.PostsJson (request : Request) : Prop where
  method : request.method = "POST"
  resource : Resource.ofTarget? request.target = some .segments
  contentType : request.contentType.any MediaType.announcesJson = true

/-- The answer to a body that is posted as JSON. -/
def answer (maxTokens : Nat) (body : List UInt8) : Response :=
  match readBody maxTokens body with
  | .ok t => .json t.cut.compactJson
  | .error refusal => .text refusal.status refusal.message

/-- Nothing but its body tells how a request is answered. There is no state that
requests before it could have changed. -/
theorem Request.PostsJson.respond_eq (h : request.PostsJson) (maxTokens : Nat) :
    respond maxTokens request = answer maxTokens request.body := by
  have hMethod : request.method ∈ Resource.methods .segments := by
    rw [h.method]
    decide
  simp only [respond, h.resource, if_pos hMethod, cutResponse, readRequest, if_pos h.contentType]
  rfl

/-! Why a body is refused. -/

/-- A body over the limit is refused before anything is read of it. -/
theorem readBody_of_longer (h : bodyLimit maxTokens < body.length) :
    readBody maxTokens body = .error .tooLong :=
  if_pos h

/-- A body within the limit is refused with the first fault of a reader. -/
theorem readBody_of_fault (hLength : body.length ≤ bodyLimit maxTokens)
    (h : Transcript.shape.readFront body = .error fault) :
    readBody maxTokens body = .error (.unread fault) := by
  rw [readBody, if_neg (Nat.not_lt.mpr hLength), h]

/-- A transcript with too many tokens is refused only after it could be read. A body
with both problems is answered for the one of its text. -/
theorem readBody_of_more (hLength : body.length ≤ bodyLimit maxTokens)
    (h : Transcript.shape.readFront body = .ok t) (hCount : maxTokens < t.tokens.length) :
    readBody maxTokens body = .error (.tooManyTokens t.tokens.length maxTokens) := by
  rw [readBody, if_neg (Nat.not_lt.mpr hLength), h]
  exact if_pos hCount

/-- A body is accepted if it and its transcript keep to the limits, and in no other case. -/
theorem readBody_eq_ok_iff : readBody maxTokens body = .ok t ↔
    body.length ≤ bodyLimit maxTokens ∧ Transcript.shape.readFront body = .ok t ∧
      t.tokens.length ≤ maxTokens := by
  constructor
  · intro h
    have hRead := readFront_of_readBody h
    refine ⟨Nat.not_lt.mp fun hLonger => ?_, hRead, Nat.not_lt.mp fun hMore => ?_⟩
    · rw [readBody_of_longer hLonger] at h
      cases h
    · have hLength : body.length ≤ bodyLimit maxTokens := by
        by_contra hLonger
        rw [readBody_of_longer (Nat.not_le.mp hLonger)] at h
        cases h
      rw [readBody_of_more hLength hRead hMore] at h
      cases h
  · rintro ⟨hLength, hRead, hCount⟩
    exact readBody_of_readFront hRead hLength hCount

/-- What was refused is answered with the status and the words of the refusal. -/
theorem answer_of_refusal {refusal : Refusal} (h : readBody maxTokens body = .error refusal) :
    answer maxTokens body = .text refusal.status refusal.message := by
  rw [answer, h]

/-- An answer is 200 exactly if a transcript could be read and none of the limits was
passed. -/
theorem status_answer_iff : (answer maxTokens body).status = 200 ↔
    ∃ t, readBody maxTokens body = .ok t := by
  unfold answer
  cases readBody maxTokens body with
  | ok t => exact iff_of_true rfl ⟨t, rfl⟩
  | error refusal => exact iff_of_false refusal.status_ne (by simp)

/-- How a body is answered, case by case. Within the limit the first problem that reading
meets decides. So a body with a whole value in it is cut or refused by what is spelled, in
the order of the text, but for the items that an array has left over for a record, which
stand where it should be closed. And what the beginning of a body is refused for, unless
it just ends too early, the body is refused for. -/
structure Answers (maxTokens : Nat) (body : List UInt8) (response : Response) : Prop where
  ok_iff : response.status = 200 ↔ body.length ≤ bodyLimit maxTokens ∧
    ∃ t, Transcript.shape.readFront body = .ok t ∧ t.tokens.length ≤ maxTokens
  cut (t : Transcript) (hStatus : response.status = 200)
    (hRead : Transcript.shape.readFront body = .ok t) : response = .json t.cut.compactJson
  tooLong (hLonger : bodyLimit maxTokens < body.length) : response.status = 413
  tooMany (t : Transcript) (hLength : body.length ≤ bodyLimit maxTokens)
    (hRead : Transcript.shape.readFront body = .ok t) (hMore : maxTokens < t.tokens.length) :
    response.status = 413
  mismatch (m : Mismatch) (hLength : body.length ≤ bodyLimit maxTokens)
    (hRead : Transcript.shape.readFront body = .error (.mismatch m)) : response.status = 422
  malformed (hLength : body.length ≤ bodyLimit maxTokens)
    (hRead : Transcript.shape.readFront body = .error .malformed ∨
      Transcript.shape.readFront body = .error .ended) : response.status = 400
  spelled (v : Value) (t : Transcript) (depth : Nat) (r : List UInt8)
    (hLength : body.length ≤ bodyLimit maxTokens)
    (hWhole : Value.readDeep depth body = .ok (v, r))
    (hSpelled : Transcript.shape.ofSpelled v = .ok t) :
    (t.tokens.length ≤ maxTokens ∧ response = .json t.cut.compactJson) ∨
      (maxTokens < t.tokens.length ∧ response.status = 413)
  misspelled (v : Value) (m : Mismatch) (depth : Nat) (r : List UInt8)
    (hLength : body.length ≤ bodyLimit maxTokens)
    (hWhole : Value.readDeep depth body = .ok (v, r))
    (hSpelled : Transcript.shape.ofSpelled v = .error m) :
    (response.status = 400 ∧ ∃ n, m = .tooLong n) ∨
      (response.status = 422 ∧ ∀ n, m ≠ .tooLong n)
  beginning (first rest : List UInt8) (hLength : body.length ≤ bodyLimit maxTokens)
    (hBody : body = first ++ rest) (hRest : Number.Stops rest) :
    (∀ m, Transcript.shape.readFront first = .error (.mismatch m) → response.status = 422) ∧
      (Transcript.shape.readFront first = .error .malformed → response.status = 400)

/-- Too many tokens are answered with 413, as a body over the limit is. -/
theorem status_of_more (hLength : body.length ≤ bodyLimit maxTokens)
    (h : Transcript.shape.readFront body = .ok t) (hMore : maxTokens < t.tokens.length) :
    (answer maxTokens body).status = 413 := by
  rw [answer_of_refusal (readBody_of_more hLength h hMore)]
  rfl

/-- A text of the wrong shape is answered with 422. -/
theorem status_of_mismatch {m : Mismatch} (hLength : body.length ≤ bodyLimit maxTokens)
    (h : Transcript.shape.readFront body = .error (.mismatch m)) :
    (answer maxTokens body).status = 422 := by
  rw [answer_of_refusal (readBody_of_fault hLength h)]
  rfl

/-- What is no text of JSON, or not the whole of one, is answered with 400. -/
theorem status_of_malformed (hLength : body.length ≤ bodyLimit maxTokens)
    (h : Transcript.shape.readFront body = .error .malformed ∨
      Transcript.shape.readFront body = .error .ended) :
    (answer maxTokens body).status = 400 := by
  rcases h with hFault | hFault
  · rw [answer_of_refusal (readBody_of_fault hLength hFault)]
    rfl
  · rw [answer_of_refusal (readBody_of_fault hLength hFault)]
    rfl

/-- The answer to a body is what the limits and the reader make it, whatever the body
is. -/
theorem answers_answer (maxTokens : Nat) (body : List UInt8) :
    Answers maxTokens body (answer maxTokens body) where
  ok_iff := by
    rw [status_answer_iff]
    constructor
    · rintro ⟨t, hBody⟩
      obtain ⟨hLength, hRead, hCount⟩ := readBody_eq_ok_iff.mp hBody
      exact ⟨hLength, t, hRead, hCount⟩
    · rintro ⟨hLength, t, hRead, hCount⟩
      exact ⟨t, readBody_eq_ok_iff.mpr ⟨hLength, hRead, hCount⟩⟩
  cut t hStatus hRead := by
    obtain ⟨u, hBody⟩ := status_answer_iff.mp hStatus
    rw [readFront_of_readBody hBody] at hRead
    cases hRead
    rw [answer, hBody]
  tooLong hLonger := by
    rw [answer_of_refusal (readBody_of_longer hLonger)]
    rfl
  tooMany t := status_of_more
  mismatch m := status_of_mismatch
  malformed := status_of_malformed
  spelled v t depth r hLength hWhole hSpelled := by
    have hRead : Transcript.shape.readFront body = .ok t :=
      map_eq_ok_iff.mpr ⟨_, Transcript.shape.readsSpelled.read hWhole hSpelled, rfl⟩
    rcases Nat.lt_or_ge maxTokens t.tokens.length with hMore | hCount
    · exact Or.inr ⟨hMore, status_of_more hLength hRead hMore⟩
    · refine Or.inl ⟨hCount, ?_⟩
      rw [answer, readBody_of_readFront hRead hLength hCount]
  misspelled v m depth r hLength hWhole hSpelled := by
    have hRead : Transcript.shape.readFront body = .error m.fault :=
      map_eq_error_iff.mpr (Transcript.shape.refusesSpelled Transcript.shape_plain hWhole hSpelled)
    cases m with
    | tooLong n => exact Or.inl ⟨status_of_malformed hLength (Or.inl hRead), n, rfl⟩
    | _ => exact Or.inr ⟨status_of_mismatch hLength hRead, fun n => nofun⟩
  beginning first rest hLength hBody hRest := by
    subst hBody
    constructor
    · intro m hFirst
      exact status_of_mismatch hLength (Shape.readFront_append hRest hFirst nofun)
    · intro hFirst
      exact status_of_malformed hLength (Or.inl (Shape.readFront_append hRest hFirst nofun))

/-- Bodies that are posted as JSON, one after the other, are answered each by itself and as
`Answers` says: two hundred and fifty-six bytes a token and a thousand and twenty-four more
are read, as far as sixty-four bits can count, and so many tokens are cut. -/
theorem respond_posted (maxTokens : Nat) :
    bodyLimit maxTokens = min (256 * maxTokens + 1024) (2 ^ 64 - 1) ∧
    bodyLimit maxTokens = saturate (saturate (maxTokens * bytesPerToken) + bytesAround) ∧
    ∃ answer : List UInt8 → Response,
      (∀ requests : List Request, (∀ request ∈ requests, request.PostsJson) →
        requests.map (respond maxTokens) = requests.map fun request => answer request.body) ∧
      ∀ body, Answers maxTokens body (answer body) := by
  refine ⟨rfl, bodyLimit_eq_saturate maxTokens, answer maxTokens, fun requests hPosts => ?_,
    answers_answer maxTokens⟩
  exact List.map_congr_left fun request hMem => (hPosts request hMem).respond_eq maxTokens

/-- A body that is cut, one with a token too many, one with a token of another shape before
what is no JSON, one the other way round, and one that is too long. -/
theorem respond_posted_each :
    let text (tokens : String) : List UInt8 := Text.Utf8.encode ("\x7b\"tokens\":[" ++ tokens)
    let bodies : List (List UInt8) :=
      [text "[\"a\",0]]\x7d", text "[\"a\",0],[\"b\",1]]\x7d", text "5,x]\x7d", text "x,5]\x7d",
        List.replicate 1281 0x20]
    let requests : List Request :=
      bodies.map fun body => ⟨"POST", "/segments", some "application/json", body⟩
    (∀ request ∈ requests, request.PostsJson) ∧
      (requests.map (respond 1)).map Response.status = [200, 413, 422, 400, 413] := by
  intro text bodies requests
  have hPosts : ∀ request ∈ requests, request.PostsJson := by
    have hTarget : Resource.ofTarget? "/segments" = some .segments := by decide
    have hType : (some "application/json").any MediaType.announcesJson = true := by decide
    intro request hMem
    obtain ⟨body, -, rfl⟩ := List.mem_map.mp hMem
    exact ⟨rfl, hTarget, hType⟩
  obtain ⟨-, -, answer, hAnswers, hCases⟩ := respond_posted 1
  refine ⟨hPosts, ?_⟩
  rw [hAnswers requests hPosts]
  have hRead (body : List UInt8) (count : Nat)
      (h : (Transcript.shape.readFront body).toOption.map (·.tokens.length) = some count) :
      ∃ t, Transcript.shape.readFront body = .ok t ∧ t.tokens.length = count := by
    cases hFront : Transcript.shape.readFront body with
    | ok t =>
        rw [hFront] at h
        exact ⟨t, rfl, Option.some.inj h⟩
    | error fault => simp [hFront, Except.toOption] at h
  have hCut : (answer (text "[\"a\",0]]\x7d")).status = 200 := by
    obtain ⟨t, hFront, hCount⟩ := hRead (text "[\"a\",0]]\x7d") 1 (by decide +kernel)
    exact (hCases _).ok_iff.mpr ⟨by decide +kernel, t, hFront, hCount.le⟩
  have hMore : (answer (text "[\"a\",0],[\"b\",1]]\x7d")).status = 413 := by
    obtain ⟨t, hFront, hCount⟩ :=
      hRead (text "[\"a\",0],[\"b\",1]]\x7d") 2 (by decide +kernel)
    exact (hCases _).tooMany t (by decide +kernel) hFront (by omega)
  have hStops : Number.Stops [0x2C, 0x78, 0x5D, 0x7D] ∧ Number.Stops [0x2C, 0x35, 0x5D, 0x7D] := by
    constructor <;> constructor <;> rintro _ ⟨⟩ <;> decide
  have hShape : (answer (text "5,x]\x7d")).status = 422 := by
    have hBody : text "5,x]\x7d" = text "5" ++ [0x2C, 0x78, 0x5D, 0x7D] := by decide +kernel
    have hFirst : Transcript.shape.readFront (text "5") =
        .error (.mismatch (.wrongType (.integer 5) (recordType "Token"))) := by
      have hBytes : text "5" =
          [0x7B, 0x22, 0x74, 0x6F, 0x6B, 0x65, 0x6E, 0x73, 0x22, 0x3A, 0x5B, 0x35] := by
        decide +kernel
      rw [hBytes]
      rfl
    exact ((hCases _).beginning _ _ (by decide +kernel) hBody hStops.1).1 _ hFirst
  have hText : (answer (text "x,5]\x7d")).status = 400 := by
    have hBody : text "x,5]\x7d" = text "x" ++ [0x2C, 0x35, 0x5D, 0x7D] := by decide +kernel
    have hFirst : Transcript.shape.readFront (text "x") = .error .malformed := by
      have hBytes : text "x" =
          [0x7B, 0x22, 0x74, 0x6F, 0x6B, 0x65, 0x6E, 0x73, 0x22, 0x3A, 0x5B, 0x78] := by
        decide +kernel
      rw [hBytes]
      rfl
    exact ((hCases _).beginning _ _ (by decide +kernel) hBody hStops.2).2 hFirst
  have hLong : (answer (List.replicate 1281 0x20)).status = 413 :=
    (hCases _).tooLong (by decide +kernel)
  simp only [requests, bodies, List.map_cons, List.map_nil, hCut, hMore, hShape, hText, hLong]

end RoughCut.Web
