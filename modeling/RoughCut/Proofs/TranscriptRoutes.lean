import RoughCut.Proofs.Json.Once
import RoughCut.Web.Service

/-!
The two routes of a transcript. A file is read as a whole and may be in the form
of the transcriber; a posted body is read on the way. Main statement: where both
routes come to a transcript it is the same, and a file that names its tokens and
spells no field twice can be posted.
-/

namespace RoughCut

open Json

namespace Json.Shape

variable {σ α β : Type} {name record : String} {shape : Shape α} {rest : Fields σ β}

/-- An object without a member for a required field is no record. -/
theorem mem_keys_of_ofValue {ms : List (String × Value)} {x : α × β}
    (h : (Shape.record record (.field name .required shape rest)).ofValue (.object ms) = .ok x) :
    name ∈ ms.map Prod.fst := by
  obtain ⟨⟨slot, slots⟩, hSlots, hFinish⟩ := bind_eq_ok_iff.mp h
  obtain ⟨hOwn, _⟩ := Fields.foldlM_ofMember.mp hSlots
  by_contra hAbsent
  rw [Value.latest_dictionary ms name, valuesOf_eq_nil hAbsent] at hOwn
  cases hOwn
  cases hFinish

end Json.Shape

/-- A record of two fields, neither of which is spelled twice. -/
theorem Json.Fields.onceIn_of_two {α β : Type} {first second : String} {absence : Absence α}
    {absence' : Absence β} {shape : Shape α} {shape' : Shape β} {ms : List (String × Value)}
    (hNames : second ≠ first) (hFirst : (ms.map Prod.fst).count first ≤ 1)
    (hSecond : (ms.map Prod.fst).count second ≤ 1)
    (hInside : ∀ v, (first, v) ∈ ms → shape.Once v)
    (hInside' : ∀ v, (second, v) ∈ ms → shape'.Once v) :
    (Fields.field first absence shape (.field second absence' shape' .done)).OnceIn ms := by
  have hOthers : valuesOf second (without first ms) = valuesOf second ms := by
    rw [valuesOf_without, if_neg hNames]
  refine ⟨by rwa [length_valuesOf], fun v hv => hInside v (mem_valuesOf.mp hv), ?_, ?_, trivial⟩
  · rwa [hOthers, length_valuesOf]
  · rw [hOthers]
    exact fun v hv => hInside' v (mem_valuesOf.mp hv)

namespace Transcript

/-- No choice is in a transcript, so the way of reading makes no difference to what is
refused. -/
theorem shape_plain : shape.Plain :=
  ⟨⟨trivial, trivial, trivial⟩, trivial, trivial⟩

/-- A transcript in the form of the library is none in that of the transcriber,
unless it has a member for its tokens. -/
theorem hasMember_of_both {v : Value} {t u : Transcript} (hOwn : shape.ofValue v = .ok t)
    (hOther : Whisper.transcript.ofValue v = .ok u) : v.hasMember "tokens" = true := by
  obtain ⟨x, hOwn, _⟩ := map_eq_ok_iff.mp hOwn
  obtain ⟨y, hOther, _⟩ := map_eq_ok_iff.mp hOther
  cases v with
  | object ms => exact hasMember_iff.mpr (Shape.mem_keys_of_ofValue hOwn)
  | array vs =>
      cases vs with
      | nil => cases hOwn
      | cons v vs =>
          obtain ⟨_, hOwn, _⟩ := bind_eq_ok_iff.mp hOwn
          obtain ⟨_, hTokens, _⟩ := bind_eq_ok_iff.mp hOwn
          obtain ⟨_, hOther, _⟩ := bind_eq_ok_iff.mp hOther
          obtain ⟨_, hDuration, _⟩ := bind_eq_ok_iff.mp hOther
          cases v with
          | array items => cases hDuration
          | _ => cases hTokens
  | _ => cases hOwn

/-- How an object spells a transcript: it names the tokens, and neither in it nor
in an object for a token a field is spelled twice. -/
structure SpelledOnce (ms : List (String × Value)) : Prop where
  tokens : (ms.map Prod.fst).count "tokens" = 1
  duration : (ms.map Prod.fst).count "total_duration" ≤ 1
  token {vs : List Value} {token : List (String × Value)} (hTokens : ("tokens", .array vs) ∈ ms)
    (hToken : .object token ∈ vs) :
    (token.map Prod.fst).count "text" ≤ 1 ∧ (token.map Prod.fst).count "start_time" ≤ 1

/-- Where the fields of a transcript are spelled once, they are so in every token too.
Then the two ways of reading have nothing to differ in. -/
theorem SpelledOnce.once {ms : List (String × Value)} (h : SpelledOnce ms) :
    shape.Once (.object ms) := by
  refine Fields.onceIn_of_two (by decide) h.tokens.le h.duration ?_ (fun _ _ => trivial)
  intro v hTokens
  cases v with
  | array vs =>
      intro v hToken
      cases v with
      | object token =>
          obtain ⟨hText, hStart⟩ := h.token hTokens hToken
          exact Fields.onceIn_of_two (by decide) hText hStart (fun _ _ => trivial)
            (fun _ _ => trivial)
      | array items =>
          cases items with
          | nil => trivial
          | cons first items =>
              refine ⟨trivial, ?_⟩
              cases items <;> trivial
      | _ => trivial
  | _ => trivial

/-- Where the tokens of a transcript are spelled, the text is taken for one in its own
format. -/
theorem SpelledOnce.hasMember {ms : List (String × Value)} (h : SpelledOnce ms) :
    (Value.object ms).hasMember "tokens" = true := by
  have hNamed : 0 < (ms.map Prod.fst).count "tokens" := by
    rw [h.tokens]
    decide
  exact hasMember_iff.mpr (List.count_pos_iff.mp hNamed)

/-- What a file holds, by the form it is in. -/
theorem ofValue_of_ofJson {text : String} {t : Transcript} (h : ofJson text = .ok t) :
    ∃ v, Value.parse text = .ok v ∧
      (if v.hasMember "tokens" then shape else Whisper.transcript).ofValue v = .ok t := by
  obtain ⟨v, hParse, hTaken⟩ := bind_eq_ok_iff.mp h
  exact ⟨v, hParse, mismatched_eq_ok_iff.mp hTaken⟩

end Transcript

namespace Web

/-- The request posts this text as JSON to be cut. -/
structure Request.Posts (request : Request) (text : String) : Prop where
  method : request.method = "POST"
  resource : Resource.ofTarget? request.target = some .segments
  contentType : request.contentType.any MediaType.announcesJson = true
  body : request.body = Text.Utf8.encode text

/-- A request that posts a text is handed to the route that cuts transcripts. -/
theorem Request.Posts.respond_eq {request : Request} {text : String} (h : request.Posts text)
    (maxTokens : Nat) : respond maxTokens request = cutResponse maxTokens request := by
  have hMethod : request.method ∈ Resource.methods .segments := by
    rw [h.method]
    decide
  simp only [respond, h.resource, if_pos hMethod]

/-- Of a request that posts a text nothing matters but the text. -/
theorem Request.Posts.readRequest_eq {request : Request} {text : String} (h : request.Posts text)
    (maxTokens : Nat) :
    readRequest maxTokens request = readBody maxTokens (Text.Utf8.encode text) := by
  rw [readRequest, if_pos h.contentType, h.body]

/-- Nothing that is refused is answered with 200. -/
theorem Refusal.status_ne (refusal : Refusal) : refusal.status ≠ 200 := by
  cases refusal with
  | unread fault => cases fault <;> simp [status]
  | notJson => decide
  | tooLong => decide
  | tooManyTokens count limit => simp [status]

/-- A body is read as what is read on the way. -/
theorem readFront_of_readBody {maxTokens : Nat} {body : List UInt8} {t : Transcript}
    (h : readBody maxTokens body = .ok t) : Transcript.shape.readFront body = .ok t := by
  unfold readBody at h
  split_ifs at h
  split at h
  · cases h
  · next u hRead =>
    split_ifs at h
    cases h
    exact hRead

/-- A transcript that can be read at the front of a body is taken, if it keeps to both
limits. -/
theorem readBody_of_readFront {maxTokens : Nat} {body : List UInt8} {t : Transcript}
    (hRead : Transcript.shape.readFront body = .ok t)
    (hLength : body.length ≤ bodyLimit maxTokens) (hCount : t.tokens.length ≤ maxTokens) :
    readBody maxTokens body = .ok t := by
  rw [readBody, if_neg (Nat.not_lt.mpr hLength), hRead]
  exact if_neg (Nat.not_lt.mpr hCount)

end Web

/-- A text that is accepted as a file is read on the way as the same transcript or
not at all, so that posting it is answered with the cut of the file or refused. It
is not refused when it names its tokens, spells no field twice and keeps to the
limits. -/
theorem Transcript.ofJson_posted {text : String} {t : Transcript} (hFile : ofJson text = .ok t) :
    (∀ u, shape.readFront (Text.Utf8.encode text) = .ok u → u = t) ∧
    (∀ maxTokens (request : Web.Request), request.Posts text →
      (Web.respond maxTokens request).status = 200 →
        Web.respond maxTokens request = .json t.cut.compactJson) ∧
    ∀ ms, Value.parse text = .ok (.object ms) → SpelledOnce ms →
      shape.readText text = .ok t ∧
      ∀ maxTokens (request : Web.Request), request.Posts text →
        request.body.length ≤ Web.bodyLimit maxTokens → t.tokens.length ≤ maxTokens →
          Web.respond maxTokens request = .json t.cut.compactJson := by
  obtain ⟨v, hParse, hTaken⟩ := ofValue_of_ofJson hFile
  have hSame (u : Transcript) (hRead : shape.readFront (Text.Utf8.encode text) = .ok u) :
      u = t := by
    have hOwn := Shape.ofValue_of_readFront shape_plain hParse hRead
    cases hMember : v.hasMember "tokens" with
    | true =>
        rw [hMember, if_pos rfl, hOwn] at hTaken
        cases hTaken
        rfl
    | false =>
        rw [hMember] at hTaken
        have hNamed := hasMember_of_both hOwn hTaken
        rw [hMember] at hNamed
        cases hNamed
  refine ⟨hSame, ?_, ?_⟩
  · intro maxTokens request hPosts hStatus
    rw [hPosts.respond_eq, Web.cutResponse, hPosts.readRequest_eq] at hStatus ⊢
    cases hBody : Web.readBody maxTokens (Text.Utf8.encode text) with
    | ok u => rw [hSame u (Web.readFront_of_readBody hBody)]
    | error refusal =>
        rw [hBody] at hStatus
        exact absurd hStatus refusal.status_ne
  · intro ms hObject hOnce
    rw [hParse] at hObject
    cases hObject
    rw [hOnce.hasMember, if_pos rfl] at hTaken
    have hRead := Shape.readText_of_ofValue hOnce.once hParse hTaken
    refine ⟨hRead, ?_⟩
    intro maxTokens request hPosts hLength hCount
    rw [hPosts.body] at hLength
    rw [hPosts.respond_eq, Web.cutResponse, hPosts.readRequest_eq,
      Web.readBody_of_readFront (Shape.readFront_of_readText hRead) hLength hCount]

/-- A text with one token as an array and one as an object, the fields of which are in
reverse. A field that a transcript does not know is spelled twice, which does no harm.
-/
theorem Transcript.ofJson_posted_shuffled :
    let text :=
      "\x7b\"x\":0,\"tokens\":[[\"a\",2],\x7b\"start_time\":1,\"text\":\"b\"\x7d],\"x\":0\x7d"
    let token : List (String × Value) := [("start_time", .number (.integer 1)), ("text", .text "b")]
    let ms : List (String × Value) :=
      [("x", .number (.integer 0)),
        ("tokens", .array [.array [.text "a", .number (.integer 2)], .object token]),
        ("x", .number (.integer 0))]
    let t : Transcript := ⟨[⟨"a", Seconds.ofInt 2⟩, ⟨"b", Seconds.ofInt 1⟩], Seconds.zero⟩
    let request : Web.Request :=
      ⟨"POST", "/segments", some "application/json", Text.Utf8.encode text⟩
    ofJson text = .ok t ∧ Value.parse text = .ok (.object ms) ∧ SpelledOnce ms ∧
      request.Posts text ∧ Web.respond 2 request = .json t.cut.compactJson := by
  intro text token ms t request
  have hBytes : Text.Utf8.encode text =
      [0x7B, 0x22, 0x78, 0x22, 0x3A, 0x30, 0x2C, 0x22, 0x74, 0x6F, 0x6B, 0x65, 0x6E, 0x73,
      0x22, 0x3A, 0x5B, 0x5B, 0x22, 0x61, 0x22, 0x2C, 0x32, 0x5D, 0x2C, 0x7B, 0x22, 0x73,
      0x74, 0x61, 0x72, 0x74, 0x5F, 0x74, 0x69, 0x6D, 0x65, 0x22, 0x3A, 0x31, 0x2C, 0x22,
      0x74, 0x65, 0x78, 0x74, 0x22, 0x3A, 0x22, 0x62, 0x22, 0x7D, 0x5D, 0x2C, 0x22, 0x78,
      0x22, 0x3A, 0x30, 0x7D] := by
    decide +kernel
  have hParse : Value.parse text = .ok (.object ms) := by
    rw [Value.parse, hBytes]
    rfl
  have hFile : ofJson text = .ok t := by
    rw [ofJson, hParse]
    rfl
  have hOnce : SpelledOnce ms := by
    refine ⟨by decide, by decide, ?_⟩
    intro vs object hTokens hToken
    obtain rfl : vs = _ := by simpa [ms] using hTokens
    obtain rfl : object = token := by simpa using hToken
    decide
  have hPosts : request.Posts text := ⟨rfl, by decide, by decide, rfl⟩
  obtain ⟨_, _, hAccepted⟩ := ofJson_posted hFile
  obtain ⟨_, hRespond⟩ := hAccepted ms hParse hOnce
  exact ⟨hFile, hParse, hOnce, hPosts, hRespond 2 request hPosts (by decide +kernel) (by decide)⟩

end RoughCut
