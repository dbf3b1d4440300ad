import RoughCut.Record
import RoughCut.Web.MediaType
import RoughCut.Web.Target

/-!
The service that cuts transcripts over HTTP. A transcript is posted as JSON and
answered with its cut, and nothing is kept. How many tokens a transcript may
have is limited, and so, in proportion, is the size of a body.
-/

namespace RoughCut.Web

/-- What is asked of the service. -/
structure Request where
  method : String
  /-- the path with all that follows it, or a whole address -/
  target : String
  contentType : Option String
  body : List UInt8

/-- What the service answers. -/
structure Response where
  status : Nat
  contentType : Option String
  /-- the methods that would be answered, where the one asked for is not -/
  allow : Option String
  body : String
  deriving DecidableEq

namespace Response

def empty (status : Nat) : Response := ⟨status, none, none, ""⟩

def text (status : Nat) (body : String) : Response :=
  ⟨status, some "text/plain; charset=utf-8", none, body⟩

def json (body : String) : Response := ⟨200, some "application/json", none, body⟩

end Response

/-- What is counted on as the most bytes of one token. -/
def bytesPerToken : Nat := 256

/-- The bytes for what stands around the tokens. -/
def bytesAround : Nat := 1024

/-- The largest body that is read, no more than a count of sixty-four bits can say. -/
def bodyLimit (maxTokens : Nat) : Nat :=
  min (bytesPerToken * maxTokens + bytesAround) (Nat.pow 2 64 - 1)

/-- Why a body is not cut. -/
inductive Refusal where
  | notJson
  | tooLong
  | unread (fault : Json.Fault)
  | tooManyTokens (count limit : Nat)

namespace Refusal

def status : Refusal → Nat
  | notJson => 415
  | tooLong => 413
  | unread (.mismatch _) => 422
  | unread .ended => 400
  | unread .malformed => 400
  | tooManyTokens _ _ => 413

def message : Refusal → String
  | notJson => "Expected request with `Content-Type: application/json`"
  | tooLong => "Failed to buffer the request body: length limit exceeded"
  | unread (.mismatch m) =>
    "Failed to deserialize the JSON body into the target type: " ++ m.message
  | unread .ended => "Failed to parse the request body as JSON: it ends too early"
  | unread .malformed => "Failed to parse the request body as JSON"
  | tooManyTokens count limit =>
    "Transcript has " ++ toString count ++ " tokens, limit is " ++ toString limit

end Refusal

/-- The transcript in a body. What follows it in the body is not looked at. -/
def readBody (maxTokens : Nat) (body : List UInt8) : Except Refusal Transcript :=
  if bodyLimit maxTokens < body.length then .error .tooLong
  else
    match Transcript.shape.readFront body with
    | .error fault => .error (.unread fault)
    | .ok t =>
      if maxTokens < t.tokens.length then .error (.tooManyTokens t.tokens.length maxTokens)
      else .ok t

/-- The transcript that is sent in. -/
def readRequest (maxTokens : Nat) (request : Request) : Except Refusal Transcript :=
  if request.contentType.any MediaType.announcesJson then readBody maxTokens request.body
  else .error .notJson

/-- What there is to ask for. -/
inductive Resource where
  /-- whether the service runs -/
  | health
  /-- the segments of a transcript -/
  | segments
  deriving DecidableEq

namespace Resource

def path : Resource → String
  | health => "/health"
  | segments => "/segments"

/-- The methods that a resource answers. -/
def methods : Resource → List String
  | health => ["GET", "HEAD"]
  | segments => ["POST"]

/-- The resource with a path. -/
def ofPath? (path : String) : Option Resource :=
  [health, segments].find? fun r => r.path = path

/-- The resource at a target. -/
def ofTarget? (target : String) : Option Resource :=
  (Target.path? target).bind ofPath?

end Resource

/-- The answer to a posted transcript. -/
def cutResponse (maxTokens : Nat) (request : Request) : Response :=
  match readRequest maxTokens request with
  | .ok t => .json t.cut.compactJson
  | .error refusal => .text refusal.status refusal.message

/-- The answer to a request. -/
def respond (maxTokens : Nat) (request : Request) : Response :=
  match Resource.ofTarget? request.target with
  | none => .empty 404
  | some resource =>
    if request.method ∈ resource.methods then
      match resource with
      | .health => .text 200 (if request.method = "HEAD" then "" else "ok")
      | .segments => cutResponse maxTokens request
    else { Response.empty 405 with allow := some (",".intercalate resource.methods) }

end RoughCut.Web
