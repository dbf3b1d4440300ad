import RoughCut.Json.Reader

/-!
Numbers in a JSON text. A whole number that fits into sixty-four bits stays
one. Every other number is a time that is found in three steps: the digits are
gathered as long as they fit into sixty-four bits, the integer so gathered is
rounded to a time, and the time is scaled by a power of ten. Each step may
round, so the result can be one neighbour off the nearest time.
-/

namespace RoughCut.Json

/-- A number as it is read: one that stays whole, or a time. -/
inductive Number where
  | integer (n : Int)
  | decimal (x : Seconds)

namespace Number

/-- The largest integer that digits are gathered into. -/
def gatherLimit : Nat := Nat.pow 2 64 - 1

/-- The value of an ASCII digit. -/
def digitValue (b : UInt8) : Nat :=
  b.toNat - 48

/-- Appends digits to an integer as long as it stays within the limit. The
digits from the first that does not fit are given back. -/
def gather : Nat → List UInt8 → Nat × List UInt8
  | n, [] => (n, [])
  | n, b :: s =>
    if n * 10 + digitValue b ≤ gatherLimit then gather (n * 10 + digitValue b) s
    else (n, b :: s)

/-- The power of ten nearest to `10 ^ k`. -/
def powerOfTen (k : Nat) : Nat :=
  Seconds.nearest (Nat.pow 10 k) 1

/-- Divides by `10 ^ 308` as often as told, but not below zero, and then by
`10 ^ last`. -/
def scaleDown : Nat → Nat → Nat → Nat
  | m, 0, last => Seconds.divMagnitude m (powerOfTen last)
  | m, rounds + 1, last =>
    if m = 0 then 0 else scaleDown (Seconds.divMagnitude m (powerOfTen 308)) rounds last

/-- Scales a magnitude by a power of ten. There is none for a result beyond
the finite times. -/
def scale (m : Nat) (exponent : Int) : Option Nat :=
  if m = 0 then some 0
  else if exponent < 0 then
    let k := (-exponent).toNat
    some (scaleDown m ((k - 1) / 308) ((k - 1) % 308 + 1))
  else if 308 < exponent then none
  else
    let product := Seconds.mulMagnitude m (powerOfTen exponent.toNat)
    if product < Seconds.infiniteMagnitude then some product else none

/-- The magnitude for digits before and after the point and a power of ten.
Digits before the point that do not fit count as zeros, those after it as
nothing. -/
def magnitude? (whole fraction : List UInt8) (exponent : Int) : Option Nat :=
  let (n, lost) := gather 0 whole
  let (n, rest) := gather n fraction
  let taken := fraction.length - rest.length
  scale (Seconds.nearest n 1) (exponent + lost.length - taken)

/-- The time of a magnitude, if there is one. -/
def ofMagnitude? (negative : Bool) : Option Nat → Except Fault Number
  | some m => .ok (.decimal (Seconds.ofMagnitude negative m))
  | none => .error .malformed

/-- The time for digits before and after the point and a power of ten. -/
def ofDigits (negative : Bool) (whole fraction : List UInt8) (exponent : Int) :
    Except Fault Number :=
  ofMagnitude? negative (magnitude? whole fraction exponent)

/-- A number without point and exponent. One that does not fit into sixty-four
bits, or the zero with a minus, is a time. -/
def ofWhole (negative : Bool) (whole : List UInt8) : Except Fault Number :=
  let (n, lost) := gather 0 whole
  if lost = [] ∧ ¬ negative then .ok (.integer n)
  else if lost = [] ∧ 0 < n ∧ n ≤ Nat.pow 2 63 then .ok (.integer (-n))
  else ofDigits negative whole [] 0

/-- Reads digits of which there has to be at least one. -/
def someDigits : Reader (List UInt8) := fun s =>
  match s with
  | [] => .error .ended
  | b :: _ =>
    if Byte.isDigit b then .ok (s.takeWhile Byte.isDigit, s.dropWhile Byte.isDigit)
    else .error .malformed

/-- Reads the digits before the point. A zero stands alone. -/
def wholeDigits : Reader (List UInt8) := fun s => do
  let (ds, r) ← someDigits s
  if ds.head? = some 0x30 ∧ 1 < ds.length then .error .malformed else .ok (ds, r)

/-- Reads a point and the digits after it, or nothing. -/
def fractionDigits : Reader (Option (List UInt8)) := fun s =>
  match s with
  | b :: r =>
    if b = Byte.point then do
      let (ds, r) ← someDigits r
      return (some ds, r)
    else .ok (none, s)
  | [] => .ok (none, s)

/-- Reads the sign of an exponent, which may be left out. -/
def exponentSign (s : List UInt8) : Bool × List UInt8 :=
  match s with
  | b :: r => if b = Byte.minus then (true, r) else if b = 0x2B then (false, r) else (false, s)
  | [] => (false, s)

def isExponentMark (b : UInt8) : Bool :=
  b == 0x65 || b == 0x45

/-- Reads an exponent with its mark, or nothing. -/
def exponent : Reader (Option Int) := fun s =>
  match s with
  | b :: r =>
    if isExponentMark b then do
      let (negative, r) := exponentSign r
      let (ds, r) ← someDigits r
      let n := ds.foldl (fun n b => n * 10 + digitValue b) 0
      return (some (if negative then -(n : Int) else n), r)
    else .ok (none, s)
  | [] => .ok (none, s)

/-- Reads a number after its minus. -/
def read (negative : Bool) : Reader Number := fun s => do
  let (whole, s) ← wholeDigits s
  let (fraction, s) ← fractionDigits s
  let (power, s) ← exponent s
  let n ← match fraction, power with
    | none, none => ofWhole negative whole
    | _, _ => ofDigits negative whole (fraction.getD []) (power.getD 0)
  return (n, s)

/-- The number as a time. -/
def toSeconds : Number → Seconds
  | integer n => Seconds.ofInt n
  | decimal x => x

def found : Number → Found
  | integer n => .integer n
  | decimal x => .decimal x

end Number

end RoughCut.Json
