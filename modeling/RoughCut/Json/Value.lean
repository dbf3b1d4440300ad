import RoughCut.Json.Number
import RoughCut.Json.Literal

/-!
JSON values as trees, and how a whole text is read as one.
-/

namespace RoughCut.Json

/-- A value with the members of objects in the order of the text, so that a
key may occur more than once. -/
inductive Value where
  | null
  | boolean (b : Bool)
  | number (n : Number)
  | text (s : String)
  | array (items : List Value)
  | object (members : List (String × Value))

namespace Value

/-- How many arrays and objects may lie inside one another. -/
def depthLimit : Nat := 127

/-- Reads a value with the given reader for the values inside it. Without one
no array and no object is read. -/
def readWith (inner : Option (Reader Value)) : Reader Value :=
  Reader.byKind {
    null := .ok .null
    boolean := fun b => .ok (.boolean b)
    number := fun negative s => do
      let (n, s) ← Number.read negative s
      return (.number n, s)
    text := fun s => do
      let (t, s) ← Literal.read s
      return (.text t, s)
    array := fun s =>
      match inner with
      | none => .error .malformed
      | some inner => do
        let (vs, s) ← Reader.items (fun vs s => do
          let (v, s) ← inner s
          return (v :: vs, s)) s true [] s
        return (.array vs.reverse, s)
    object := fun s =>
      match inner with
      | none => .error .malformed
      | some inner => do
        let (ms, s) ← Reader.members Literal.read (fun ms k s => do
          let ((), s) ← Reader.colon s
          let (v, s) ← inner s
          return ((k, v) :: ms, s)) s true [] s
        return (.object ms.reverse, s) }

/-- Reads a value in which arrays and objects lie at most this deep. -/
def readDeep : Nat → Reader Value
  | 0 => readWith none
  | depth + 1 => readWith (some (readDeep depth))

/-- Reads a text that is one value and nothing else but blanks around it. -/
def parse (text : String) : Except Fault Value := do
  let (v, s) ← readDeep depthLimit (Text.Utf8.encode text)
  if Reader.skipBlanks s = [] then .ok v else .error .malformed

/-- Puts a member into a list that is ordered by key, in place of one with the
same key. -/
def insertMember (k : String) (v : Value) : List (String × Value) → List (String × Value)
  | [] => [(k, v)]
  | (j, w) :: ms =>
    if k < j then (k, v) :: (j, w) :: ms
    else if k = j then (k, v) :: ms
    else (j, w) :: insertMember k v ms

/-- The members ordered by key, each key once with the last of its values. -/
def dictionary (members : List (String × Value)) : List (String × Value) :=
  members.foldl (fun d (k, v) => insertMember k v d) []

/-- Whether the value is an object with a member of this name. -/
def hasMember (name : String) : Value → Bool
  | object members => members.any fun (k, _) => k == name
  | _ => false

def found : Value → Found
  | null => .null
  | boolean b => .boolean b
  | number n => n.found
  | text s => .text s
  | array _ => .sequence
  | object _ => .map

end Value

end RoughCut.Json
