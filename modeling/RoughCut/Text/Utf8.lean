/-!
Text from bytes. `units` cuts any bytes into characters and faults: a fault is
a longest run of bytes that begins the encoding of a character but does not
complete it, or a byte that begins none. `decode?` accepts bytes without a
fault and `decodeLossy` writes U+FFFD for each.
-/

namespace RoughCut.Text.Utf8

/-- A character of which some bytes have been read: the value of the bits so
far, how many bytes are missing, and the range in which the next one must lie. -/
structure Partial where
  value : Nat
  missing : Nat
  low : UInt8
  high : UInt8

/-- What a byte is at the start of a character. -/
inductive Start where
  | complete (c : Char)
  | opens (p : Partial)
  | fault

/-- The range of the second byte excludes overlong forms, surrogates and
values past the last code point. -/
def start (b : UInt8) : Start :=
  if b < 0x80 then .complete (Char.ofNat b.toNat)
  else if b < 0xC2 then .fault
  else if b < 0xE0 then .opens ⟨b.toNat % 32, 1, 0x80, 0xBF⟩
  else if b < 0xF0 then
    .opens ⟨b.toNat % 16, 2, if b = 0xE0 then 0xA0 else 0x80, if b = 0xED then 0x9F else 0xBF⟩
  else if b < 0xF5 then
    .opens ⟨b.toNat % 8, 3, if b = 0xF0 then 0x90 else 0x80, if b = 0xF4 then 0x8F else 0xBF⟩
  else .fault

/-- Cuts bytes into characters and faults, going on after the given partial
character if there is one. A byte that cannot continue a character faults the
bytes before it and is looked at again as a start. -/
def unitsFrom : Option Partial → List UInt8 → List (Option Char)
  | none, [] => []
  | some _, [] => [none]
  | none, b :: bs =>
    match start b with
    | .complete c => some c :: unitsFrom none bs
    | .opens p => unitsFrom (some p) bs
    | .fault => none :: unitsFrom none bs
  | some p, b :: bs =>
    if p.low ≤ b ∧ b ≤ p.high then
      let value := p.value * 64 + b.toNat % 64
      if p.missing = 1 then some (Char.ofNat value) :: unitsFrom none bs
      else unitsFrom (some ⟨value, p.missing - 1, 0x80, 0xBF⟩) bs
    else
      none :: match start b with
        | .complete c => some c :: unitsFrom none bs
        | .opens p => unitsFrom (some p) bs
        | .fault => none :: unitsFrom none bs

/-- The characters of the bytes in order, with `none` for each fault. -/
def units (bytes : List UInt8) : List (Option Char) :=
  unitsFrom none bytes

/-- The text that the bytes encode, if they encode one. -/
def decode? (bytes : List UInt8) : Option String :=
  ((units bytes).mapM id).map String.ofList

/-- The text of the bytes with the replacement character for each fault. -/
def decodeLossy (bytes : List UInt8) : String :=
  String.ofList ((units bytes).map fun u => u.getD '\uFFFD')

/-- The bytes that encode a text. -/
def encode (s : String) : List UInt8 :=
  s.toUTF8.toList

end RoughCut.Text.Utf8
