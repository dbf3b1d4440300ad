import RoughCut.Json.Skip
import RoughCut.Json.Print

/-!
Shapes of JSON values. One description of a type gives its three forms: it is
written as a value, taken from a value that has been read as a whole, and read
from a text on the way. The last two differ where a text is at odds with
itself. A whole value has each key once, its last value in force, and is
looked at in the order of keys; on the way the order of the text decides which
problem comes first, and a second value for a field is refused.
-/

namespace RoughCut.Json

/-- Whether a field may be left out of its record, and what stands for it. -/
inductive Absence (α : Type) where
  | required
  /-- from an object, but not from an array -/
  | inObject (value : α)
  /-- from both -/
  | anywhere (value : α)

namespace Absence

/-- What stands for a field that an object leaves out. -/
def inObject? : Absence α → Option α
  | required => none
  | inObject a => some a
  | anywhere a => some a

/-- What stands for a field that an array ends before. -/
def inArray? : Absence α → Option α
  | required => none
  | inObject _ => none
  | anywhere a => some a

end Absence

mutual

/-- How values of a type are written in JSON. The names of types are for
messages about values that are none of theirs. -/
inductive Shape : Type → Type 1 where
  | seconds : Shape Seconds
  /-- whole numbers up to a limit -/
  | whole (typeName : String) (limit : Nat) : Shape Nat
  | text (typeName : String) : Shape String
  /-- one of some names, where each value has a name and is found by it -/
  | choice {α : Type} (choices : List (String × α)) (name : α → String)
      (found : ∀ a, (choices.find? fun (n, _) => n == name a) = some (name a, a)) : Shape α
  | list {α : Type} (item : Shape α) : Shape (List α)
  /-- either `null` or a value -/
  | nullable {α : Type} (inner : Shape α) : Shape (Option α)
  /-- an object with these fields, or an array with one item for each -/
  | record {σ α : Type} (name : String) (fields : Fields σ α) : Shape α
  /-- the values of one type seen as those of another, of which none is lost -/
  | view {α β : Type} (toView : α → β) (ofView : β → α) (inner : Shape α)
      (same : ∀ b, toView (ofView b) = b) : Shape β

/-- The fields of a record in order. The first parameter holds what has been
read so far, with `none` for a field that is still open; the second holds the
complete values. -/
inductive Fields : Type → Type → Type 1 where
  | done : Fields Unit Unit
  | field {α σ β : Type} (name : String) (absence : Absence α) (shape : Shape α)
      (rest : Fields σ β) : Fields (Option α × σ) (α × β)

end

namespace Fields

/-- The record with every field open. -/
def blank : Fields σ α → σ
  | done => ()
  | field _ _ _ rest => (none, rest.blank)

/-- How many fields there are. -/
def count : Fields σ α → Nat
  | done => 0
  | field _ _ _ rest => rest.count + 1

/-- Completes a record that was written as an object. The first field that is
open and may not be left out is a mismatch. -/
def finish : Fields σ α → σ → Except Mismatch α
  | done, () => .ok ()
  | field name absence _ rest, (slot, slots) =>
    match slot.or absence.inObject? with
    | none => .error (.missing name)
    | some a => (rest.finish slots).map fun b => (a, b)

end Fields

/-- The value for a name in a list of choices. -/
def chosen (choices : List (String × α)) (name : String) : Except Mismatch α :=
  match choices.find? fun (n, _) => n == name with
  | some (_, a) => .ok a
  | none => .error (.unknownChoice name (choices.map Prod.fst))

/-! The types in messages, where their values have no name of their own. -/

def secondsType : String := "f64"

def choiceType : String := "string or map"

def listType : String := "a sequence"

def recordType (name : String) : String := "struct " ++ name

/-- A whole number, if it is one and within the limit. -/
def Number.toWhole (n : Number) (typeName : String) (limit : Nat) : Except Mismatch Nat :=
  match n with
  | .integer i =>
    if 0 ≤ i ∧ i ≤ limit then .ok i.toNat else .error (.outOfRange i typeName)
  | .decimal x => .error (.wrongType (.decimal x) typeName)

/-! Writing. -/

mutual

def Shape.toValue : {α : Type} → Shape α → α → Value
  | _, .seconds, x => .number (.decimal x)
  | _, .whole _ _, n => .number (.integer n)
  | _, .text _, s => .text s
  | _, .choice _ name _, a => .text (name a)
  | _, .list item, as => .array (as.map item.toValue)
  | _, .nullable _, none => .null
  | _, .nullable inner, some a => inner.toValue a
  | _, .record _ fields, a => .object (fields.toMembers a)
  | _, .view _ ofView inner _, b => inner.toValue (ofView b)

def Fields.toMembers : {σ α : Type} → Fields σ α → α → List (String × Value)
  | _, _, .done, () => []
  | _, _, .field name _ shape rest, (a, b) => (name, shape.toValue a) :: rest.toMembers b

end

/-! Taking from a whole value. -/

mutual

def Shape.ofValue : {α : Type} → Shape α → Value → Except Mismatch α
  | _, .seconds, v =>
    match v with
    | .number n => .ok n.toSeconds
    | v => .error (.wrongType v.found secondsType)
  | _, .whole typeName limit, v =>
    match v with
    | .number n => n.toWhole typeName limit
    | v => .error (.wrongType v.found typeName)
  | _, .text typeName, v =>
    match v with
    | .text s => .ok s
    | v => .error (.wrongType v.found typeName)
  | _, .choice choices _ _, v =>
    match v with
    | .text s => chosen choices s
    | v => .error (.wrongType v.found choiceType)
  | _, .list item, v =>
    match v with
    | .array vs => vs.mapM item.ofValue
    | v => .error (.wrongType v.found listType)
  | _, .nullable inner, v =>
    match v with
    | .null => .ok none
    | v => (inner.ofValue v).map some
  | _, .record name fields, v =>
    match v with
    | .object members => do
      let slots ← (Value.dictionary members).foldlM
        (fun slots (k, v) => fields.ofMember k v slots) fields.blank
      fields.finish slots
    | .array vs => do
      let (a, left) ← fields.ofItems name fields.count 0 vs
      if left.isEmpty then return a else .error (.tooLong vs.length)
    | v => .error (.wrongType v.found (recordType name))
  | _, .view toView _ inner _, v => (inner.ofValue v).map toView

/-- Takes one member of an object, if it is a field. -/
def Fields.ofMember : {σ α : Type} → Fields σ α → String → Value → σ → Except Mismatch σ
  | _, _, .done, _, _, () => .ok ()
  | _, _, .field name _ shape rest, k, v, (slot, slots) =>
    if k = name then (shape.ofValue v).map fun a => (some a, slots)
    else (rest.ofMember k v slots).map fun slots => (slot, slots)

/-- Takes the fields from the front of an array, `index` of them having been
taken before. The items that are left are given back. -/
def Fields.ofItems : {σ α : Type} → Fields σ α → String → Nat → Nat → List Value →
    Except Mismatch (α × List Value)
  | _, _, .done, _, _, _, vs => .ok ((), vs)
  | _, _, .field _ absence shape rest, record, total, index, vs =>
    match vs with
    | v :: vs => do
      let a ← shape.ofValue v
      let (b, vs) ← rest.ofItems record total (index + 1) vs
      return ((a, b), vs)
    | [] =>
      match absence.inArray? with
      | some a => do
        let (b, vs) ← rest.ofItems record total (index + 1) []
        return ((a, b), vs)
      | none => .error (.tooShort index record total)

end

/-! Reading on the way. -/

/-- A mismatch for each kind of value, for a reader to accept some of them
instead. Arrays and objects are recognized by what opens them. -/
def refusing (expected : String) : Reader.Kinds α :=
  let refuse (found : Found) : Fault := .mismatch (.wrongType found expected)
  { null := .error (refuse .null)
    boolean := fun b => .error (refuse (.boolean b))
    number := fun negative s => do
      let (n, _) ← Number.read negative s
      .error (refuse n.found)
    text := fun s => do
      let (t, _) ← Literal.read s
      .error (refuse (.text t))
    array := fun _ => .error (refuse .sequence)
    object := fun _ => .error (refuse .map) }

/-- A fault out of a mismatch. -/
def mismatched : Except Mismatch α → Except Fault α
  | .ok a => .ok a
  | .error m => .error (.mismatch m)

/-- Reads a name to choose by. Nothing but a text is even looked at. -/
def readChoice (choices : List (String × α)) : Reader α := fun s =>
  match Reader.skipBlanks s with
  | [] => .error .ended
  | b :: s =>
    if b = Byte.quote then do
      let (name, s) ← Literal.read s
      return (← mismatched (chosen choices name), s)
    else .error .malformed

/-- Reads a choice: its name, or an object of which its name is the one key and
`null` the value. -/
def readChosen (choices : List (String × α)) : Reader α := fun s =>
  match Reader.skipBlanks s with
  | [] => .error .ended
  | b :: r =>
    if b = Byte.openBrace then do
      let (a, s) ← readChoice choices r
      let ((), s) ← Reader.colon s
      let ((), s) ← Reader.byKind { refusing "unit" with null := .ok () } s
      match Reader.skipBlanks s with
      | [] => .error .ended
      | c :: s => if c = Byte.closeBrace then .ok (a, s) else .error .malformed
    else readChoice choices (b :: r)

mutual

def Shape.read : {α : Type} → Shape α → Reader α
  | _, .seconds => Reader.byKind { refusing secondsType with
      number := fun negative s => do
        let (n, s) ← Number.read negative s
        return (n.toSeconds, s) }
  | _, .whole typeName limit => Reader.byKind { refusing typeName with
      number := fun negative s => do
        let (n, s) ← Number.read negative s
        return (← mismatched (n.toWhole typeName limit), s) }
  | _, .text typeName => Reader.byKind { refusing typeName with text := Literal.read }
  | _, .choice choices _ _ => readChosen choices
  | _, .list item => Reader.byKind { refusing listType with
      array := fun s => do
        let (as, s) ← Reader.items (fun as s => do
          let (a, s) ← item.read s
          return (a :: as, s)) s true [] s
        return (as.reverse, s) }
  | _, .nullable inner => fun s =>
    match Reader.skipBlanks s with
    | [] => .error .ended
    | b :: r =>
      if b = 0x6E then do
        let ((), r) ← Reader.word Reader.nullTail r
        return (none, r)
      else do
        let (a, r) ← inner.read (b :: r)
        return (some a, r)
  | _, .record name fields => Reader.byKind { refusing (recordType name) with
      array := fun s => do
        let (a, s) ← fields.readItems name fields.count 0 s
        let ((), s) ← Reader.closeItems s
        return (a, s)
      object := fun s => do
        let (slots, s) ← Reader.members Literal.read
          (fun slots k => fields.readMember k slots) s true fields.blank s
        return (← mismatched (fields.finish slots), s) }
  | _, .view toView _ inner _ => fun s => do
    let (a, s) ← inner.read s
    return (toView a, s)

/-- Reads the value of a member after its key. The value of a field that is
complete is not read again, and that of a key without a field is passed over. -/
def Fields.readMember : {σ α : Type} → Fields σ α → String → σ → Reader σ
  | _, _, .done, _, () => fun s => do
    let ((), s) ← Reader.colon s
    Skip.value s
  | _, _, .field name _ shape rest, k, (slot, slots) => fun s =>
    if k = name then
      if slot.isSome then .error (.mismatch (.repeated name))
      else do
        let ((), s) ← Reader.colon s
        let (a, s) ← shape.read s
        return ((some a, slots), s)
    else do
      let (slots, s) ← rest.readMember k slots s
      return ((slot, slots), s)

/-- Reads the items of an array as fields, `index` of them having been read. -/
def Fields.readItems : {σ α : Type} → Fields σ α → String → Nat → Nat → Reader α
  | _, _, .done, _, _, _ => fun s => .ok ((), s)
  | _, _, .field _ absence shape rest, record, total, index => fun s => do
    let (more, s) ← Reader.nextItem (index == 0) s
    let (a, s) ←
      if more then shape.read s
      else
        match absence.inArray? with
        | some a => .ok (a, s)
        | none => .error (.mismatch (.tooShort index record total))
    let (b, s) ← rest.readItems record total (index + 1) s
    return ((a, b), s)

end

namespace Shape

/-- Takes a value out of a text that is read as a whole first. -/
def parse (shape : Shape α) (text : String) : Except Fault α := do
  mismatched (shape.ofValue (← Value.parse text))

/-- Reads a text on the way. Nothing but blanks may follow the value. -/
def readText (shape : Shape α) (text : String) : Except Fault α := do
  let (a, s) ← shape.read (Text.Utf8.encode text)
  if Reader.skipBlanks s = [] then .ok a else .error .malformed

/-- Reads bytes on the way and leaves what follows the value alone. -/
def readFront (shape : Shape α) (bytes : List UInt8) : Except Fault α :=
  (shape.read bytes).map Prod.fst

end Shape

end RoughCut.Json
