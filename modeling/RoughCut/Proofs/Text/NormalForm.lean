import Mathlib.Data.List.DropRight
import Mathlib.Data.List.Basic
import RoughCut.Token

/-!
The normal form of a word stays as it is: stripping what has been stripped
takes nothing more away. Tokens in normal form can therefore be normalized
again, and whoever gets them need not know whether they have been.
-/

namespace RoughCut

namespace Text

variable {p : Char → Bool} {s : List Char}

/-- To strip a text is to drop from its front and then from its end. -/
theorem strip_eq_rdropWhile (p : Char → Bool) (s : List Char) :
    strip p s = (s.dropWhile p).rdropWhile p := rfl

/-- Taking characters from the end leaves the first character where it is,
unless it takes that one as well. -/
theorem dropWhile_strip (p : Char → Bool) (s : List Char) :
    (strip p s).dropWhile p = strip p s := by
  rw [strip_eq_rdropWhile]
  have hPrefix := List.rdropWhile_prefix p (s.dropWhile p)
  have hFirst := List.dropWhile_idempotent p s
  generalize (s.dropWhile p).rdropWhile p = kept at hPrefix
  generalize s.dropWhile p = all at hPrefix hFirst
  obtain ⟨rest, rfl⟩ := hPrefix
  cases kept with
  | nil => rfl
  | cons c cs =>
      have hKeep := List.dropWhile_eq_self_iff.mp hFirst (by simp)
      simp only [List.cons_append, List.getElem_cons_zero] at hKeep
      simp [hKeep]

theorem strip_strip : strip p (strip p s) = strip p s := by
  rw [strip_eq_rdropWhile p (strip p s), dropWhile_strip, strip_eq_rdropWhile,
    List.rdropWhile_idempotent]

/-- Characters of the kind that is stripped may stand around a text or not. -/
theorem strip_around {u v : List Char} (hu : ∀ c ∈ u, p c = true) (hv : ∀ c ∈ v, p c = true) :
    strip p (u ++ s ++ v) = strip p s := by
  have hEnd (front : List Char) : (front ++ v).rdropWhile p = front.rdropWhile p := by
    rw [List.rdropWhile, List.rdropWhile, List.reverse_append,
      List.dropWhile_append_of_pos fun c hMem => hv c (List.mem_reverse.mp hMem)]
  rw [strip_eq_rdropWhile, strip_eq_rdropWhile, List.append_assoc,
    List.dropWhile_append_of_pos hu, List.dropWhile_append]
  split_ifs with hNone
  · rw [List.isEmpty_iff] at hNone
    rw [hNone, List.dropWhile_eq_nil_iff.mpr hv]
  · exact hEnd _

/-- The normal form of a text is its own normal form. -/
theorem normalize_normalize (text : String) : normalize (normalize text) = normalize text := by
  simp only [normalize, String.toList_ofList, strip_strip]

end Text

namespace Token

/-- A token in normal form has a word that normalizing keeps as it is. -/
def IsNormal (t : Token) : Prop :=
  Text.normalize t.text = t.text ∧ t.text ≠ ""

/-- A token has a normal form if something is left of its text, and keeps its time. -/
theorem normal?_eq_some_iff {t w : Token} :
    t.normal? = some w ↔ Text.normalize t.text ≠ "" ∧ w = ⟨Text.normalize t.text, t.start⟩ := by
  simp only [normal?, String.isEmpty_iff]
  by_cases hText : Text.normalize t.text = ""
  · simp [hText]
  · rw [if_neg hText, Option.some.injEq]
    exact ⟨fun hSame => ⟨hText, hSame.symm⟩, fun hWord => hWord.2.symm⟩

theorem IsNormal.normal? {t : Token} (h : t.IsNormal) : t.normal? = some t := by
  rw [normal?_eq_some_iff, h.1]
  exact ⟨h.2, rfl⟩

/-- All words of normalized tokens are in normal form, and none is empty. -/
theorem isNormal_of_mem_normalized {tokens : List Token} {w : Token}
    (h : w ∈ normalized tokens) : w.IsNormal := by
  obtain ⟨t, _, hNormal⟩ := List.mem_filterMap.mp h
  obtain ⟨hText, rfl⟩ := normal?_eq_some_iff.mp hNormal
  exact ⟨Text.normalize_normalize t.text, hText⟩

/-- A word keeps the time at which it was spoken. -/
theorem exists_start_of_mem_normalized {tokens : List Token} {w : Token}
    (h : w ∈ normalized tokens) : ∃ t ∈ tokens, t.start = w.start := by
  obtain ⟨t, hMem, hNormal⟩ := List.mem_filterMap.mp h
  obtain ⟨_, rfl⟩ := normal?_eq_some_iff.mp hNormal
  exact ⟨t, hMem, rfl⟩

theorem normalized_eq_self {tokens : List Token} (h : ∀ t ∈ tokens, t.IsNormal) :
    normalized tokens = tokens := by
  rw [normalized, List.filterMap_congr (fun t ht => (h t ht).normal?), List.filterMap_some]

theorem normalized_append (xs ys : List Token) :
    normalized (xs ++ ys) = normalized xs ++ normalized ys :=
  List.filterMap_append

end Token

end RoughCut
