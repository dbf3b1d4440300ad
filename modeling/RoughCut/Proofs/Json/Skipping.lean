import RoughCut.Json.Skip
import RoughCut.Proofs.Json.Whole

/-!
What can be read can be passed over. Passing over checks less than reading does,
and comes to the same place.
-/

namespace RoughCut.Json.Skip

variable {s r : List UInt8}

/-- A half of a pair is read on for the other half, and passed over as it is. -/
def Place.ofReading : Literal.Place → Place
  | .plain => .plain
  | .escape => .escape
  | .unit missing _ _ => .unit missing
  | .pair _ => .plain
  | .pairEscape _ => .escape

/-- At the end of an escape a reader that skips is where a reader that keeps the text
is, among plain characters. -/
theorem ofReading_finishUnit {n : Nat} {half : Option Nat} {place : Literal.Place}
    {bytes : List UInt8} (h : Literal.finishUnit n half = .ok (place, bytes)) :
    Place.ofReading place = .plain := by
  unfold Literal.finishUnit at h
  split at h <;> split_ifs at h <;> cases h <;> rfl

/-- The inside of a string that can be read can be skipped, and ends at the same byte. -/
theorem literalFrom_of_content {place : Literal.Place} {acc bytes : List UInt8}
    (h : Literal.content place acc s = .ok (bytes, r)) :
    literalFrom (Place.ofReading place) s = .ok ((), r) := by
  induction s generalizing place acc with
  | nil => cases place <;> cases h
  | cons b s ih =>
      cases place with
      | plain =>
          unfold Literal.content at h
          unfold Place.ofReading literalFrom
          split_ifs at h ⊢ with hQuote hBackslash hControl
          · cases h
            rfl
          · exact ih h
          · exact ih h
      | escape =>
          unfold Literal.content at h
          unfold Place.ofReading literalFrom
          split_ifs at h ⊢ with hUnit hShort hEscaped
          · exact ih h
          · cases hChar : Literal.escaped b with
            | none => simp [hChar] at h
            | some c =>
                rw [hChar] at h
                exact ih h
          · rw [Option.not_isSome_iff_eq_none.mp hEscaped] at h
            cases h
      | unit missing value half =>
          unfold Literal.content at h
          unfold Place.ofReading literalFrom
          cases hHex : Literal.hexValue b with
          | none => simp [hHex] at h
          | some d =>
              rw [hHex] at h
              cases missing with
              | zero =>
                  obtain ⟨⟨place, unit⟩, hFinish, h⟩ := bind_eq_ok_iff.mp h
                  have hNext := ih h
                  rwa [ofReading_finishUnit hFinish] at hNext
              | succ missing => exact ih h
      | pair half =>
          unfold Literal.content at h
          split_ifs at h with hBackslash
          subst hBackslash
          exact ih h
      | pairEscape half =>
          unfold Literal.content at h
          unfold Place.ofReading literalFrom
          split_ifs at h ⊢ with hUnit hShort
          exact ih h

/-- A string that can be read can be skipped, and ends at the same byte. -/
theorem literal_of_read {text : String} (h : Literal.read s = .ok (text, r)) :
    literal s = .ok ((), r) := by
  obtain ⟨⟨bytes, t⟩, hContent, h⟩ := bind_eq_ok_iff.mp h
  simp only at h
  split at h
  · cases h
    exact literalFrom_of_content hContent
  · cases h

theorem digits_of_someDigits {ds : List UInt8} (h : Number.someDigits s = .ok (ds, r)) :
    digits s = .ok ((), r) := by
  unfold Number.someDigits at h
  unfold digits
  split at h
  · cases h
  · split at h
    · next hDigit =>
      cases h
      exact if_pos hDigit
    · cases h

theorem fraction_of_fractionDigits {ds : Option (List UInt8)}
    (h : Number.fractionDigits s = .ok (ds, r)) : fraction s = .ok ((), r) := by
  cases s with
  | nil =>
      cases h
      rfl
  | cons b u =>
      by_cases hPoint : b = Byte.point
      · simp only [Number.fractionDigits, if_pos hPoint] at h
        simp only [fraction, if_pos hPoint]
        obtain ⟨⟨ds', r'⟩, hDigits, h⟩ := bind_eq_ok_iff.mp h
        cases h
        exact digits_of_someDigits hDigits
      · simp only [Number.fractionDigits, if_neg hPoint] at h
        simp only [fraction, if_neg hPoint]
        cases h
        rfl

theorem exponent_of_exponent {power : Option Int} (h : Number.exponent s = .ok (power, r)) :
    exponent s = .ok ((), r) := by
  cases s with
  | nil =>
      cases h
      rfl
  | cons b u =>
      by_cases hMark : Number.isExponentMark b = true
      · simp only [Number.exponent, if_pos hMark] at h
        simp only [exponent, if_pos hMark]
        obtain ⟨⟨ds, r'⟩, hDigits, h⟩ := bind_eq_ok_iff.mp h
        cases h
        exact digits_of_someDigits hDigits
      · simp only [Number.exponent, if_neg hMark] at h
        simp only [exponent, if_neg hMark]
        cases h
        rfl

/-- What follows the digits before a point can be skipped where both its parts can be
read. -/
theorem afterWhole_of_parts {t : List UInt8} {ds : Option (List UInt8)} {power : Option Int}
    (hFraction : Number.fractionDigits s = .ok (ds, t))
    (hPower : Number.exponent t = .ok (power, r)) : number.afterWhole s = .ok ((), r) := by
  rw [number.afterWhole, fraction_of_fractionDigits hFraction]
  exact exponent_of_exponent hPower

/-- A zero that is read as a whole part has no digit after it. -/
theorem isDigit_after_zero {b : UInt8} {ds t : List UInt8}
    (h : Number.wholeDigits (0x30 :: b :: s) = .ok (ds, t)) :
    Byte.isDigit b = false ∧ t = b :: s := by
  obtain ⟨⟨ds', t'⟩, hDigits, h⟩ := bind_eq_ok_iff.mp h
  have hZero : Byte.isDigit 0x30 = true := by decide
  rw [Number.someDigits, if_pos hZero, List.takeWhile_cons_of_pos hZero,
    List.dropWhile_cons_of_pos hZero] at hDigits
  cases hDigits
  cases hDigit : Byte.isDigit b with
  | true => simp [hDigit] at h
  | false =>
      simp only [hDigit, Bool.false_eq_true, not_false_eq_true, List.takeWhile_cons_of_neg,
        List.dropWhile_cons_of_neg, List.length_singleton, lt_self_iff_false, and_false,
        if_false] at h
      cases h
      exact ⟨rfl, rfl⟩

/-- A number that can be read can be skipped. One that is out of range cannot be read,
but would be skipped too. -/
theorem number_of_read {negative : Bool} {n : Number} (h : Number.read negative s = .ok (n, r)) :
    number s = .ok ((), r) := by
  obtain ⟨whole, t, fraction, u, power, hWhole, hFraction, hPower⟩ := Number.parts_of_read h
  have hAfter := afterWhole_of_parts hFraction hPower
  unfold number
  split
  · next b s =>
    obtain ⟨hDigit, rfl⟩ := isDigit_after_zero hWhole
    rw [hDigit]
    exact hAfter
  · obtain ⟨⟨ds, t'⟩, hDigits, hWhole⟩ := bind_eq_ok_iff.mp hWhole
    simp only at hWhole
    split_ifs at hWhole
    cases hWhole
    rw [digits_of_someDigits hDigits]
    exact hAfter

/-- Whoever reads a value goes at least as deep as whoever passes over it. So what can
be read can be passed over, and ends at the same byte. -/
theorem valueWithin_of_readDeep {depth : Nat} {v : Value} {clock : List UInt8}
    (h : Value.readDeep depth s = .ok (v, r)) (hClock : s.length ≤ clock.length) :
    valueWithin clock s = .ok ((), r) := by
  induction depth using Nat.strong_induction_on generalizing v s r clock with
  | _ depth ih =>
      obtain ⟨o, t, hOpening, hRest⟩ := Value.rest_of_readDeep h
      have hShorter := Value.length_lt_of_readDeep h
      have hOpened := Opening.length_of_read hOpening
      cases clock with
      | nil => exact absurd hClock (by simp only [List.length_nil]; omega)
      | cons tick clock =>
          rw [List.length_cons] at hClock
          rw [valueWithin, Reader.byKind_of_opening _ hOpening]
          cases hRest with
          | null => rfl
          | boolean => rfl
          | number hRead => exact number_of_read hRead
          | text hRead => exact literal_of_read hRead
          | @array d vs t r hItems =>
              have hBracket := hOpened.resolve_right (by simp)
              have hInside := hItems.length_lt fun v u w => Value.length_lt_of_readDeep
              have hPassed := hItems.imp (fun v u w => Value.length_lt_of_readDeep)
                fun v u w hWithin hRead => ih d (Nat.lt_succ_self d) hRead
                  (show u.length ≤ clock.length by omega)
              exact hPassed.run (fun _ _ _ _ _ hRead _ => hRead) (by omega)
                (List.foldlM_pure (f := fun () _ => ()))
          | @object d ms t r hMembers =>
              have hBracket := hOpened.resolve_right (by simp)
              have hInside := hMembers.length_lt fun v u w => Value.length_lt_of_readDeep
              have hPassed := hMembers.imp (fun v u w => Value.length_lt_of_readDeep)
                fun v u w hWithin hRead => ih d (Nat.lt_succ_self d) hRead
                  (show u.length ≤ clock.length by omega)
              refine hPassed.run (fun _ _ _ => literal_of_read)
                (fun k v _ acc t u w hColon hRead (_ : pure () = Except.ok acc) => ?_)
                (by omega) (List.foldlM_pure (f := fun () _ => ()))
              rw [hColon]
              exact hRead

/-- A value that can be read can be skipped, however deep it is, and ends at the same
byte. -/
theorem value_of_readDeep {depth : Nat} {v : Value} (h : Value.readDeep depth s = .ok (v, r)) :
    value s = .ok ((), r) :=
  valueWithin_of_readDeep h (Nat.le_refl _)

end RoughCut.Json.Skip
