import RoughCut.Json.Reader
import RoughCut.Text.Utf8

/-!
Quoted texts of JSON. Reading resolves the escapes and checks that the bytes
are text; characters beyond U+FFFF may be escaped as two halves. Writing
escapes the quote, the backslash and the control characters, and nothing else.
-/

namespace RoughCut.Json.Literal

/-- Where a reader stands inside a quoted text. -/
inductive Place where
  | plain
  /-- after a backslash -/
  | escape
  /-- inside the four digits of a code unit, perhaps the second of a pair -/
  | unit (missing : Nat) (value : Nat) (firstHalf : Option Nat)
  /-- after the first half of a pair, where the second has to follow -/
  | pair (firstHalf : Nat)
  /-- after the backslash that leads to the second half -/
  | pairEscape (firstHalf : Nat)

def hexValue (b : UInt8) : Option Nat :=
  if 0x30 ≤ b ∧ b ≤ 0x39 then some (b.toNat - 48)
  else if 0x61 ≤ b ∧ b ≤ 0x66 then some (b.toNat - 87)
  else if 0x41 ≤ b ∧ b ≤ 0x46 then some (b.toNat - 55)
  else none

/-- The byte that a backslash and this byte stand for. -/
def escaped (b : UInt8) : Option UInt8 :=
  if b = 0x22 ∨ b = 0x5C ∨ b = 0x2F then some b
  else if b = 0x62 then some 0x08
  else if b = 0x66 then some 0x0C
  else if b = 0x6E then some 0x0A
  else if b = 0x72 then some 0x0D
  else if b = 0x74 then some 0x09
  else none

/-- The bytes of a character. -/
def charBytes (n : Nat) : List UInt8 :=
  String.utf8EncodeChar (Char.ofNat n)

/-- What a complete code unit leads to: bytes, or the wait for a second half. -/
def finishUnit (n : Nat) : Option Nat → Except Fault (Place × List UInt8)
  | none =>
    if 0xDC00 ≤ n ∧ n ≤ 0xDFFF then .error .malformed
    else if 0xD800 ≤ n ∧ n ≤ 0xDBFF then .ok (.pair n, [])
    else .ok (.plain, charBytes n)
  | some first =>
    if 0xDC00 ≤ n ∧ n ≤ 0xDFFF then
      .ok (.plain, charBytes (0x10000 + (first - 0xD800) * 0x400 + (n - 0xDC00)))
    else .error .malformed

/-- Reads up to the closing quote, gathering the bytes in reverse. The digits
of a code unit are only looked at when the text has four more bytes. -/
def content : Place → List UInt8 → Reader (List UInt8)
  | _, _, [] => .error .ended
  | .plain, acc, b :: s =>
    if b = Byte.quote then .ok (acc.reverse, s)
    else if b = Byte.backslash then content .escape acc s
    else if b < 0x20 then .error .malformed
    else content .plain (b :: acc) s
  | .escape, acc, b :: s =>
    if b = 0x75 then
      if (s.drop 3).isEmpty then .error .ended else content (.unit 3 0 none) acc s
    else
      match escaped b with
      | some c => content .plain (c :: acc) s
      | none => .error .malformed
  | .unit missing value half, acc, b :: s =>
    match hexValue b with
    | none => .error .malformed
    | some d =>
      match missing with
      | 0 => do
        let (place, bytes) ← finishUnit (value * 16 + d) half
        content place (bytes.reverse ++ acc) s
      | missing + 1 => content (.unit missing (value * 16 + d) half) acc s
  | .pair half, acc, b :: s =>
    if b = Byte.backslash then content (.pairEscape half) acc s else .error .malformed
  | .pairEscape half, acc, b :: s =>
    if b = 0x75 then
      if (s.drop 3).isEmpty then .error .ended else content (.unit 3 0 (some half)) acc s
    else .error .malformed

/-- Reads a text after its opening quote. -/
def read : Reader String := fun s => do
  let (bytes, s) ← content .plain [] s
  match Text.Utf8.decode? bytes with
  | some t => .ok (t, s)
  | none => .error .malformed

/-- One character of a written text. -/
def charText (c : Char) : List Char :=
  match c with
  | '"' => ['\\', '"']
  | '\\' => ['\\', '\\']
  | '\x08' => ['\\', 'b']
  | '\t' => ['\\', 't']
  | '\n' => ['\\', 'n']
  | '\x0c' => ['\\', 'f']
  | '\r' => ['\\', 'r']
  | c =>
    if c.toNat < 0x20 then
      ['\\', 'u', '0', '0', Nat.digitChar (c.toNat / 16), Nat.digitChar (c.toNat % 16)]
    else [c]

/-- A text with its quotes. -/
def chars (t : String) : List Char :=
  '"' :: t.toList.flatMap charText ++ ['"']

end RoughCut.Json.Literal
