import RoughCut.Json.Value
import RoughCut.Proofs.Json.Grammar

/-!
Values that are read as a whole. What has been read is what its first byte
opens, and its items and members follow the grammar.
-/

namespace RoughCut.Json

namespace Number

variable {s r : List UInt8}

theorem length_lt_of_someDigits {ds : List UInt8} (h : someDigits s = .ok (ds, r)) :
    r.length < s.length := by
  unfold someDigits at h
  split at h
  · cases h
  · next b u =>
    split at h
    · next hDigit =>
      cases h
      have hRest := List.length_dropWhile_le Byte.isDigit u
      rw [List.dropWhile_cons_of_pos hDigit, List.length_cons]
      omega
    · cases h

theorem length_lt_of_wholeDigits {ds : List UInt8} (h : wholeDigits s = .ok (ds, r)) :
    r.length < s.length := by
  obtain ⟨⟨ds', r'⟩, hDigits, h⟩ := bind_eq_ok_iff.mp h
  simp only at h
  split at h
  · cases h
  · cases h
    exact length_lt_of_someDigits hDigits

theorem length_le_of_fractionDigits {ds : Option (List UInt8)}
    (h : fractionDigits s = .ok (ds, r)) : r.length ≤ s.length := by
  unfold fractionDigits at h
  split at h
  · split at h
    · obtain ⟨⟨ds', r'⟩, hDigits, h⟩ := bind_eq_ok_iff.mp h
      cases h
      exact Nat.le_succ_of_le (length_lt_of_someDigits hDigits).le
    · cases h
      exact Nat.le_refl _
  · cases h
    exact Nat.le_refl _

theorem length_exponentSign_le (s : List UInt8) : (exponentSign s).2.length ≤ s.length := by
  unfold exponentSign
  split
  · split_ifs <;> simp
  · exact Nat.le_refl _

theorem length_le_of_exponent {power : Option Int} (h : exponent s = .ok (power, r)) :
    r.length ≤ s.length := by
  unfold exponent at h
  split at h
  · next b u =>
    split at h
    · obtain ⟨⟨ds, r'⟩, hDigits, h⟩ := bind_eq_ok_iff.mp h
      cases h
      have hDigits : r.length < (exponentSign u).2.length := length_lt_of_someDigits hDigits
      have hSign := length_exponentSign_le u
      rw [List.length_cons]
      omega
    · cases h
      exact Nat.le_refl _
  · cases h
    exact Nat.le_refl _

/-- A number is read as the digits before a point, a fraction and an exponent, one after
the other. -/
theorem parts_of_read {negative : Bool} {n : Number} (h : read negative s = .ok (n, r)) :
    ∃ whole t fraction u power, wholeDigits s = .ok (whole, t) ∧
      fractionDigits t = .ok (fraction, u) ∧ exponent u = .ok (power, r) := by
  obtain ⟨⟨whole, t⟩, hWhole, h⟩ := bind_eq_ok_iff.mp h
  obtain ⟨⟨fraction, u⟩, hFraction, h⟩ := bind_eq_ok_iff.mp h
  obtain ⟨⟨power, v⟩, hPower, h⟩ := bind_eq_ok_iff.mp h
  obtain rfl : v = r := by
    cases fraction <;> cases power <;>
      (obtain ⟨n', _, hSame⟩ := bind_eq_ok_iff.mp h
       cases hSame
       rfl)
  exact ⟨whole, t, fraction, u, power, hWhole, hFraction, hPower⟩

theorem length_lt_of_read {negative : Bool} {n : Number} (h : read negative s = .ok (n, r)) :
    r.length < s.length := by
  obtain ⟨whole, t, fraction, u, power, hWhole, hFraction, hPower⟩ := parts_of_read h
  have hWhole := length_lt_of_wholeDigits hWhole
  have hFraction := length_le_of_fractionDigits hFraction
  have hPower := length_le_of_exponent hPower
  omega

end Number

namespace Value

/-- After what has opened it, the bytes `s` are the rest of a value with at most
so many levels of arrays and objects, and `r` follows. -/
inductive Rest : Nat → Opening → Value → List UInt8 → List UInt8 → Prop where
  | null {depth : Nat} {s : List UInt8} : Rest depth .null .null s s
  | boolean {depth : Nat} {b : Bool} {s : List UInt8} : Rest depth (.boolean b) (.boolean b) s s
  | number {depth : Nat} {negative : Bool} {n : Number} {s r : List UInt8}
      (hRead : Number.read negative s = .ok (n, r)) : Rest depth (.number negative) (.number n) s r
  | text {depth : Nat} {t : String} {s r : List UInt8} (hRead : Literal.read s = .ok (t, r)) :
      Rest depth .text (.text t) s r
  | array {depth : Nat} {vs : List Value} {s r : List UInt8}
      (hItems : Items (fun v s r => readDeep depth s = .ok (v, r)) true vs s r) :
      Rest (depth + 1) .array (.array vs) s r
  | object {depth : Nat} {ms : List (String × Value)} {s r : List UInt8}
      (hMembers : Members (fun v s r => readDeep depth s = .ok (v, r)) true ms s r) :
      Rest (depth + 1) .object (.object ms) s r

variable {depth : Nat} {v : Value} {s r : List UInt8}

/-- A value is read as how it opens and what the rest of it is by that. It turns round
what is read when the parts are known. -/
theorem rest_of_readDeep (h : readDeep depth s = .ok (v, r)) :
    ∃ o t, Opening.read s = .ok (o, t) ∧ Rest depth o v t r := by
  obtain ⟨inner, hInner, h⟩ : ∃ inner, readWith inner s = .ok (v, r) ∧
      ∀ read, inner = some read → ∃ d, depth = d + 1 ∧ read = readDeep d := by
    cases depth with
    | zero => exact ⟨none, h, fun _ hNone => by cases hNone⟩
    | succ d => exact ⟨some (readDeep d), h, fun _ hSome => ⟨d, rfl, (Option.some.inj hSome).symm⟩⟩
  obtain ⟨o, t, hOpening, hAfter⟩ := Reader.byKind_eq_ok hInner
  refine ⟨o, t, hOpening, ?_⟩
  cases o with
  | null =>
      cases hAfter
      exact .null
  | boolean b =>
      cases hAfter
      exact .boolean
  | number negative =>
      obtain ⟨⟨n, t'⟩, hRead, hSame⟩ := bind_eq_ok_iff.mp hAfter
      cases hSame
      exact .number hRead
  | text =>
      obtain ⟨⟨n, t'⟩, hRead, hSame⟩ := bind_eq_ok_iff.mp hAfter
      cases hSame
      exact .text hRead
  | array =>
      cases inner with
      | none => cases hAfter
      | some read =>
          obtain ⟨d, rfl, rfl⟩ := h read rfl
          obtain ⟨⟨found, t'⟩, hRead, hSame⟩ := bind_eq_ok_iff.mp hAfter
          cases hSame
          obtain ⟨vs, rfl, hItems⟩ := Items.of_items hRead
          simpa using Rest.array hItems
  | object =>
      cases inner with
      | none => cases hAfter
      | some read =>
          obtain ⟨d, rfl, rfl⟩ := h read rfl
          obtain ⟨⟨found, t'⟩, hRead, hSame⟩ := bind_eq_ok_iff.mp hAfter
          cases hSame
          obtain ⟨ms, rfl, hMembers⟩ := Members.of_members hRead
          simpa using Rest.object hMembers

theorem length_lt_of_readDeep (h : readDeep depth s = .ok (v, r)) : r.length < s.length := by
  induction depth using Nat.strong_induction_on generalizing v s r with
  | _ depth ih =>
      obtain ⟨o, t, hOpening, hRest⟩ := rest_of_readDeep h
      have hOpening := Opening.length_of_read hOpening
      cases hRest with
      | null => simpa using hOpening
      | boolean => simpa using hOpening
      | number hRead =>
          have hNumber := Number.length_lt_of_read hRead
          omega
      | text hRead =>
          have hText := Literal.length_lt_of_read hRead
          omega
      | @array d vs t r hItems =>
          have hInside := hItems.length_lt fun v s r hRead => ih d (Nat.lt_succ_self d) hRead
          omega
      | @object d ms t r hMembers =>
          have hInside := hMembers.length_lt fun v s r hRead => ih d (Nat.lt_succ_self d) hRead
          omega

theorem readDeep_skipBlanks (depth : Nat) (s : List UInt8) :
    readDeep depth (Reader.skipBlanks s) = readDeep depth s := by
  cases depth with
  | zero => exact Reader.byKind_skipBlanks _ s
  | succ depth => exact Reader.byKind_skipBlanks _ s

/-- The first byte tells whether a value is null. So a field that may be null is decided
before any value is read. -/
theorem null_or_other_of_readDeep (h : readDeep depth s = .ok (v, r)) :
    (v = .null ∧ ∃ u, Reader.skipBlanks s = 0x6E :: u ∧
        Reader.word Reader.nullTail u = .ok ((), r)) ∨
      (v ≠ .null ∧ ∃ b u, Reader.skipBlanks s = b :: u ∧ b ≠ 0x6E ∧
        readDeep depth (b :: u) = .ok (v, r)) := by
  obtain ⟨o, t, hOpening, hRest⟩ := rest_of_readDeep h
  obtain ⟨b, u, hSkip, hBegins⟩ := Opening.begins_of_read hOpening
  have hSame : readDeep depth (b :: u) = .ok (v, r) := by
    rw [← hSkip, readDeep_skipBlanks, h]
  by_cases hNull : b = 0x6E
  · obtain rfl := hBegins.null_iff.mp hNull
    cases hRest
    cases hBegins with
    | null hByte hWord => exact Or.inl ⟨rfl, u, by rw [hSkip, hNull], hWord⟩
  · refine Or.inr ⟨?_, b, u, hSkip, hNull, hSame⟩
    rintro rfl
    cases hRest
    exact hNull (hBegins.null_iff.mpr rfl)

end Value

end RoughCut.Json
