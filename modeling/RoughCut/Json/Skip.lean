import RoughCut.Json.Value

/-!
Passing over a value without reading it. Only the outline of the text is
checked: a number may be out of range, an escaped half of a pair may stand
alone, bytes need not be text, and arrays and objects may lie inside one
another to any depth.
-/

namespace RoughCut.Json.Skip

/-- Where a reader stands inside a text that is passed over. -/
inductive Place where
  | plain
  | escape
  | unit (missing : Nat)

/-- Passes over a text after its opening quote. -/
def literalFrom : Place → Reader Unit
  | _, [] => .error .ended
  | .plain, b :: s =>
    if b = Byte.quote then .ok ((), s)
    else if b = Byte.backslash then literalFrom .escape s
    else if b < 0x20 then .error .malformed
    else literalFrom .plain s
  | .escape, b :: s =>
    if b = 0x75 then
      if (s.drop 3).isEmpty then .error .ended else literalFrom (.unit 3) s
    else if (Literal.escaped b).isSome then literalFrom .plain s
    else .error .malformed
  | .unit missing, b :: s =>
    match Literal.hexValue b with
    | none => .error .malformed
    | some _ =>
      match missing with
      | 0 => literalFrom .plain s
      | missing + 1 => literalFrom (.unit missing) s

def literal : Reader Unit :=
  literalFrom .plain

/-- Passes over digits of which there has to be at least one. Here even an
early end is a fault in the number. -/
def digits : Reader Unit := fun s =>
  match s with
  | [] => .error .malformed
  | b :: _ => if Byte.isDigit b then .ok ((), s.dropWhile Byte.isDigit) else .error .malformed

def fraction : Reader Unit := fun s =>
  match s with
  | b :: r => if b = Byte.point then digits r else .ok ((), s)
  | [] => .ok ((), s)

def exponent : Reader Unit := fun s =>
  match s with
  | b :: r => if Number.isExponentMark b then digits (Number.exponentSign r).2 else .ok ((), s)
  | [] => .ok ((), s)

/-- Passes over a number after its minus. -/
def number : Reader Unit := fun s =>
  match s with
  | 0x30 :: b :: r => if Byte.isDigit b then .error .malformed else afterWhole (b :: r)
  | s => do
    let ((), s) ← digits s
    afterWhole s
where
  afterWhole : Reader Unit := fun s => do
    let ((), s) ← fraction s
    exponent s

/-- Passes over a value. Each level of arrays and objects takes at least one
byte, so the bytes at the start, given once more as `clock`, bound the depth. -/
def valueWithin : (clock : List UInt8) → Reader Unit
  | [] => fun _ => .error .ended
  | _ :: clock => Reader.byKind {
    null := .ok ()
    boolean := fun _ => .ok ()
    number := fun _ s => number s
    text := literal
    array := fun s => Reader.items (fun () s => valueWithin clock s) s true () s
    object := fun s => Reader.members literal (fun () () s => do
      let ((), s) ← Reader.colon s
      valueWithin clock s) s true () s }

/-- Passes over a value, whatever it is. -/
def value : Reader Unit := fun s =>
  valueWithin s s

end RoughCut.Json.Skip
