import RoughCut.Json.Fault

/-!
Reading JSON from bytes. A reader takes the bytes that are left and gives what
it read with the bytes after it, or the first fault. This module holds the
bytes with a meaning and the grammar of arrays and objects, into which readers
for the items and the members are put.
-/

namespace RoughCut.Json

/-- Reads from the front of the bytes. -/
abbrev Reader (α : Type) := List UInt8 → Except Fault (α × List UInt8)

namespace Byte

abbrev quote : UInt8 := 0x22
abbrev comma : UInt8 := 0x2C
abbrev minus : UInt8 := 0x2D
abbrev point : UInt8 := 0x2E
abbrev colon : UInt8 := 0x3A
abbrev openBracket : UInt8 := 0x5B
abbrev backslash : UInt8 := 0x5C
abbrev closeBracket : UInt8 := 0x5D
abbrev openBrace : UInt8 := 0x7B
abbrev closeBrace : UInt8 := 0x7D

def isDigit (b : UInt8) : Bool :=
  decide (0x30 ≤ b) && decide (b ≤ 0x39)

/-- The blanks between the parts of a JSON text. -/
def isBlank (b : UInt8) : Bool :=
  b == 0x20 || b == 0x0A || b == 0x0D || b == 0x09

end Byte

namespace Reader

/-- The bytes from the first that is not blank. -/
def skipBlanks (s : List UInt8) : List UInt8 :=
  s.dropWhile Byte.isBlank

/-- Reads the rest of a word of which the first letter has been seen. -/
def word : List UInt8 → Reader Unit
  | [], s => .ok ((), s)
  | _ :: _, [] => .error .ended
  | w :: ws, b :: s => if b = w then word ws s else .error .malformed

/-- Decides whether another item of an array follows, and goes to where it
begins. A closing bracket is left to be read. -/
def nextItem (first : Bool) (s : List UInt8) : Except Fault (Bool × List UInt8) :=
  match skipBlanks s with
  | [] => .error .ended
  | b :: r =>
    if b = Byte.closeBracket then .ok (false, b :: r)
    else if first then .ok (true, b :: r)
    else if b = Byte.comma then
      match skipBlanks r with
      | [] => .error .ended
      | c :: t => if c = Byte.closeBracket then .error .malformed else .ok (true, c :: t)
    else .error .malformed

/-- Reads the closing bracket of an array. -/
def closeItems : Reader Unit := fun s =>
  match skipBlanks s with
  | [] => .error .ended
  | b :: r => if b = Byte.closeBracket then .ok ((), r) else .error .malformed

/-- Decides whether another member of an object follows. If so the opening
quote of its key has been read, and if not the closing brace. -/
def nextMember (first : Bool) (s : List UInt8) : Except Fault (Bool × List UInt8) :=
  match skipBlanks s with
  | [] => .error .ended
  | b :: r =>
    if b = Byte.closeBrace then .ok (false, r)
    else if first then
      if b = Byte.quote then .ok (true, r) else .error .malformed
    else if b = Byte.comma then
      match skipBlanks r with
      | [] => .error .ended
      | c :: t => if c = Byte.quote then .ok (true, t) else .error .malformed
    else .error .malformed

/-- Reads the colon after a key. -/
def colon : Reader Unit := fun s =>
  match skipBlanks s with
  | [] => .error .ended
  | b :: r => if b = Byte.colon then .ok ((), r) else .error .malformed

/-- Reads the items of an array after its opening bracket and its closing
bracket, folding each into what came of those before it. Every item takes at
least one byte, so the bytes at the start, given once more as `clock`, bound
the number of rounds. -/
def items (item : σ → Reader σ) : (clock : List UInt8) → Bool → σ → Reader σ
  | [], _, _, _ => .error .ended
  | _ :: clock, first, acc, s => do
    let (more, s) ← nextItem first s
    if more then
      let (acc, s) ← item acc s
      items item clock false acc s
    else
      let ((), s) ← closeItems s
      return (acc, s)

/-- Reads the members of an object after its opening brace and its closing
brace in the same way, each by its key. -/
def members (key : Reader κ) (member : σ → κ → Reader σ) :
    (clock : List UInt8) → Bool → σ → Reader σ
  | [], _, _, _ => .error .ended
  | _ :: clock, first, acc, s => do
    let (more, s) ← nextMember first s
    if more then
      let (k, s) ← key s
      let (acc, s) ← member acc k s
      members key member clock false acc s
    else
      return (acc, s)

/-- What to do with a value of each kind. A number is handed over after its
minus, a text after its opening quote, an array and an object after the
bracket that opens them. -/
structure Kinds (α : Type) where
  null : Except Fault α
  boolean : Bool → Except Fault α
  number : (negative : Bool) → Reader α
  text : Reader α
  array : Reader α
  object : Reader α

/-! The words after their first letters. -/

def nullTail : List UInt8 := [0x75, 0x6C, 0x6C]
def trueTail : List UInt8 := [0x72, 0x75, 0x65]
def falseTail : List UInt8 := [0x61, 0x6C, 0x73, 0x65]

/-- Reads a value by its kind, which its first byte tells. -/
def byKind (k : Kinds α) : Reader α := fun s =>
  match skipBlanks s with
  | [] => .error .ended
  | b :: r =>
    if b = Byte.quote then k.text r
    else if b = Byte.openBracket then k.array r
    else if b = Byte.openBrace then k.object r
    else if b = Byte.minus then k.number true r
    else if Byte.isDigit b then k.number false (b :: r)
    else if b = 0x6E then do
      let ((), r) ← word nullTail r
      return (← k.null, r)
    else if b = 0x74 then do
      let ((), r) ← word trueTail r
      return (← k.boolean true, r)
    else if b = 0x66 then do
      let ((), r) ← word falseTail r
      return (← k.boolean false, r)
    else .error .malformed

end Reader

end RoughCut.Json
