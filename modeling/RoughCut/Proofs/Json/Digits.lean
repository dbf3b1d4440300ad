import RoughCut.Proofs.Json.Whole
import RoughCut.Proofs.Text.Utf8
import RoughCut.Json.Print

/-!
Numbers by their digits. `Spelling` is what the text of a number consists of, and
a text that is spelled so is read as these digits with what follows them left
over, as long as that cannot belong to the number.
-/

namespace RoughCut.Json

section Except

variable {ε α β : Type}

theorem ok_bind (a : α) (f : α → Except ε β) : (.ok a >>= f) = f a :=
  rfl

theorem bind_pure_eq_map (x : Except ε α) (f : α → β) :
    (x >>= fun a => pure (f a)) = x.map f := by
  cases x <;> rfl

end Except

/-- A digit begins a number. -/
theorem Opening.read_of_isDigit {b : UInt8} (h : Byte.isDigit b = true) (s : List UInt8) :
    Opening.read (b :: s) = .ok (.number false, b :: s) := by
  have hNot {c : UInt8} (hc : Byte.isDigit c = false) : b ≠ c := by
    rintro rfl
    exact absurd h (by simp [hc])
  have hBlank : Byte.isBlank b = false := by
    have hSpace := hNot (c := 0x20) (by decide)
    have hLine := hNot (c := 0x0A) (by decide)
    have hReturn := hNot (c := 0x0D) (by decide)
    have hTab := hNot (c := 0x09) (by decide)
    simp [Byte.isBlank, hSpace, hLine, hReturn, hTab]
  have hSkip : Reader.skipBlanks (b :: s) = b :: s := by
    rw [Reader.skipBlanks, List.dropWhile_cons_of_neg (by simp [hBlank])]
  unfold Opening.read Reader.byKind
  rw [hSkip]
  simp only [if_neg (hNot (c := Byte.quote) (by decide)),
    if_neg (hNot (c := Byte.openBracket) (by decide)),
    if_neg (hNot (c := Byte.openBrace) (by decide)),
    if_neg (hNot (c := Byte.minus) (by decide)), if_pos h]

namespace Number

variable {r : List UInt8}

/-- Bytes that do not go on with a number that they follow. -/
def Ends (r : List UInt8) : Prop :=
  ∀ b ∈ r.head?, Byte.isDigit b = false ∧ b ≠ Byte.point ∧ isExponentMark b = false

/-- At least one digit and nothing else. -/
def AreDigits (ds : List UInt8) : Prop :=
  ds ≠ [] ∧ ∀ b ∈ ds, Byte.isDigit b = true

/-- The digits of a number before the point, after it and in its exponent. -/
structure Spelling where
  whole : List UInt8
  fraction : Option (List UInt8)
  power : Option (Bool × List UInt8)

namespace Spelling

/-- The digits are digits, and the first of them is no zero unless it stands alone. -/
structure Valid (n : Spelling) : Prop where
  whole : AreDigits n.whole
  zero : n.whole.head? = some 0x30 → n.whole.length = 1
  fraction : ∀ ds ∈ n.fraction, AreDigits ds
  power : ∀ p ∈ n.power, AreDigits p.2

def fractionBytes (n : Spelling) : List UInt8 :=
  n.fraction.elim [] fun ds => Byte.point :: ds

def powerBytes (n : Spelling) : List UInt8 :=
  n.power.elim [] fun p => 0x65 :: (if p.1 then Byte.minus else 0x2B) :: p.2

def bytes (n : Spelling) : List UInt8 :=
  n.whole ++ n.fractionBytes ++ n.powerBytes

/-- The power of ten of the exponent. -/
def exponent? (n : Spelling) : Option Int :=
  n.power.map fun (negative, ds) =>
    let e := ds.foldl (fun e b => e * 10 + digitValue b) 0
    if negative then -(e : Int) else e

end Spelling

theorem someDigits_append {ds : List UInt8} (h : AreDigits ds)
    (hr : ∀ b ∈ r.head?, Byte.isDigit b = false) : someDigits (ds ++ r) = .ok (ds, r) := by
  obtain ⟨hNonempty, hDigits⟩ := h
  have hTake : (ds ++ r).takeWhile Byte.isDigit = ds := by
    rw [List.takeWhile_append_of_pos hDigits]
    cases r with
    | nil => simp
    | cons b r => simp [hr b rfl]
  have hDrop : (ds ++ r).dropWhile Byte.isDigit = r := by
    rw [List.dropWhile_append_of_pos hDigits]
    cases r with
    | nil => rfl
    | cons b r => simp [hr b rfl]
  cases ds with
  | nil => exact absurd rfl hNonempty
  | cons d ds =>
      rw [List.cons_append] at *
      rw [someDigits, if_pos (hDigits d List.mem_cons_self), hTake, hDrop]

namespace Spelling

variable {n : Spelling}

/-- Behind a fraction comes no digit and no point, but an exponent or the end of the
number. -/
theorem Ends.powerBytes (hr : Ends r) (b : UInt8) (hb : b ∈ (n.powerBytes ++ r).head?) :
    Byte.isDigit b = false ∧ b ≠ Byte.point := by
  unfold Spelling.powerBytes at hb
  cases hPower : n.power with
  | none =>
      rw [hPower] at hb
      exact ⟨(hr b hb).1, (hr b hb).2.1⟩
  | some p =>
      rw [hPower] at hb
      obtain rfl : 0x65 = b := by simpa using hb
      decide

theorem isDigit_head_fractionBytes (hr : Ends r) (b : UInt8)
    (hb : b ∈ (n.fractionBytes ++ (n.powerBytes ++ r)).head?) : Byte.isDigit b = false := by
  unfold fractionBytes at hb
  cases hFraction : n.fraction with
  | none =>
      rw [hFraction] at hb
      exact (Ends.powerBytes hr b hb).1
  | some ds =>
      rw [hFraction] at hb
      obtain rfl : Byte.point = b := by simpa using hb
      decide

/-- What is spelled is recognized as a number. -/
theorem opening_bytes (h : n.Valid) (r : List UInt8) :
    Opening.read (n.bytes ++ r) = .ok (.number false, n.bytes ++ r) := by
  obtain ⟨hNonempty, hDigits⟩ := h.whole
  obtain ⟨b, ds, hWhole⟩ := List.exists_cons_of_ne_nil hNonempty
  have hDigit : Byte.isDigit b = true := hDigits b (by rw [hWhole]; exact List.mem_cons_self)
  rw [bytes, hWhole]
  exact Opening.read_of_isDigit hDigit _

/-- The digits before the point of a spelling are read, and no more. -/
theorem wholeDigits_bytes (h : n.Valid) (hr : Ends r) :
    wholeDigits (n.bytes ++ r) = .ok (n.whole, n.fractionBytes ++ (n.powerBytes ++ r)) := by
  have hDigits : someDigits (n.bytes ++ r) =
      .ok (n.whole, n.fractionBytes ++ (n.powerBytes ++ r)) := by
    rw [bytes, List.append_assoc, List.append_assoc]
    exact someDigits_append h.whole (isDigit_head_fractionBytes hr)
  rw [wholeDigits, hDigits]
  exact if_neg fun hZero => absurd (h.zero hZero.1) (by omega)

theorem fractionDigits_bytes (h : n.Valid) (hr : Ends r) :
    fractionDigits (n.fractionBytes ++ (n.powerBytes ++ r)) =
      .ok (n.fraction, n.powerBytes ++ r) := by
  have hPower := Ends.powerBytes (n := n) hr
  unfold fractionBytes
  cases hFraction : n.fraction with
  | none =>
      rw [Option.elim_none, List.nil_append]
      cases hRest : n.powerBytes ++ r with
      | nil => rfl
      | cons b t =>
          rw [hRest] at hPower
          exact if_neg (hPower b rfl).2
  | some ds =>
      have hDigits := someDigits_append (h.fraction ds hFraction) fun b hb => (hPower b hb).1
      rw [Option.elim_some, List.cons_append, fractionDigits, if_pos rfl, hDigits]
      rfl

theorem exponent_bytes (h : n.Valid) (hr : Ends r) :
    exponent (n.powerBytes ++ r) = .ok (n.exponent?, r) := by
  unfold powerBytes exponent?
  cases hPower : n.power with
  | none =>
      rw [Option.elim_none, List.nil_append]
      cases r with
      | nil => rfl
      | cons b t =>
          have hMark := (hr b rfl).2.2
          simp only [exponent, hMark]
          rfl
  | some p =>
      obtain ⟨negative, ds⟩ := p
      have hDigits := someDigits_append (h.power (negative, ds) hPower) fun b hb => (hr b hb).1
      have hMark : isExponentMark 0x65 = true := by decide
      rw [Option.elim_some, List.cons_append, exponent, if_pos hMark, List.cons_append]
      cases negative with
      | true => simp only [exponentSign, if_true, hDigits]; rfl
      | false =>
          have hPlus : (0x2B : UInt8) ≠ Byte.minus := by decide
          simp only [exponentSign, Bool.false_eq_true, if_false, if_neg hPlus, if_true, hDigits]
          rfl

/-- The number that is spelled. One with a point or an exponent is a time. -/
def number (n : Spelling) (negative : Bool) : Except Fault Number :=
  match n.fraction, n.exponent? with
  | none, none => ofWhole negative n.whole
  | _, _ => ofDigits negative n.whole (n.fraction.getD []) (n.exponent?.getD 0)

/-- What is spelled is read. The number ends where the spelling does, for no part of a
number may follow. -/
theorem read_bytes (h : n.Valid) (hr : Ends r) (negative : Bool) :
    read negative (n.bytes ++ r) = (n.number negative).map fun m => (m, r) := by
  rw [read, number, wholeDigits_bytes h hr]
  simp only [ok_bind, fractionDigits_bytes h hr, exponent_bytes h hr]
  cases n.fraction <;> cases n.exponent? <;> exact bind_pure_eq_map _ _

end Spelling

end Number

end RoughCut.Json
