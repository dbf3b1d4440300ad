import RoughCut.Command
import RoughCut.Proofs.Text.NormalForm

/-!
Normal forms by their ends. A text is in normal form when neither its first nor
its last character is one that is stripped, whatever stands between them, so
words in normal form can be joined into a phrase in normal form.
-/

namespace RoughCut

namespace Text

variable {p : Char → Bool} {s : List Char} {text a b : String}

theorem dropWhile_eq_self_iff_head? : s.dropWhile p = s ↔ ∀ c ∈ s.head?, p c = false := by
  cases s <;> simp [List.dropWhile_eq_self_iff]

theorem rdropWhile_eq_self_iff_getLast? :
    s.rdropWhile p = s ↔ ∀ c ∈ s.getLast?, p c = false := by
  rcases s.eq_nil_or_concat with rfl | ⟨front, c, rfl⟩ <;>
    simp [List.rdropWhile_eq_self_iff]

/-- Nothing is stripped where both ends are to stay. -/
theorem strip_eq_self_iff :
    strip p s = s ↔ (∀ c ∈ s.head?, p c = false) ∧ ∀ c ∈ s.getLast?, p c = false := by
  rw [← dropWhile_eq_self_iff_head?, ← rdropWhile_eq_self_iff_getLast?, strip_eq_rdropWhile]
  constructor
  · intro h
    have hFirst : s.dropWhile p = s := by
      have hSame := dropWhile_strip p s
      rwa [strip_eq_rdropWhile, h] at hSame
    exact ⟨hFirst, by rwa [hFirst] at h⟩
  · rintro ⟨hFirst, hLast⟩
    rw [hFirst, hLast]

/-- Neither the first nor the last character is one that is stripped. -/
structure CleanEnds (text : String) : Prop where
  first : ∀ c ∈ text.toList.head?, isTrimming c = false
  last : ∀ c ∈ text.toList.getLast?, isTrimming c = false

/-- A text is its own normal form exactly if nothing at its ends is to be trimmed. -/
theorem normalize_eq_self_iff : normalize text = text ↔ CleanEnds text := by
  have hList : normalize text = text ↔ strip isTrimming text.toList = text.toList := by
    rw [normalize, ← String.toList_inj, String.toList_ofList]
  rw [hList, strip_eq_self_iff]
  exact ⟨fun h => ⟨h.1, h.2⟩, fun h => ⟨h.first, h.last⟩⟩

theorem cleanEnds_empty : CleanEnds "" := by
  constructor <;> simp

/-- What stands between two clean texts is at neither end. -/
theorem CleanEnds.append (ha : CleanEnds a) (hb : CleanEnds b) (hFirst : a ≠ "") (hLast : b ≠ "")
    (between : String) : CleanEnds (a ++ between ++ b) := by
  have hFirst : a.toList ≠ [] := by simpa using hFirst
  have hLast : b.toList ≠ [] := by simpa using hLast
  constructor
  · simpa [List.head?_append, List.head?_eq_some_head hFirst] using ha.first
  · simpa [List.getLast?_append, List.getLast?_eq_some_getLast hLast] using hb.last

end Text

/-- Words of which none is empty make a phrase that is not empty either. -/
theorem phrase_ne_empty {words : List String} (hSome : words ≠ []) (h : ∀ w ∈ words, w ≠ "") :
    phrase words ≠ "" := by
  cases words with
  | nil => exact absurd rfl hSome
  | cons w ws =>
      have hFirst := h w (List.mem_cons_self ..)
      cases ws with
      | nil => simpa [phrase] using hFirst
      | cons v vs => simp [phrase, String.append_eq_empty_iff, hFirst]

/-- Words in normal form make a phrase in normal form. -/
theorem cleanEnds_phrase {words : List String} (hClean : ∀ w ∈ words, Text.CleanEnds w)
    (hSome : ∀ w ∈ words, w ≠ "") : Text.CleanEnds (phrase words) := by
  induction words with
  | nil => exact Text.cleanEnds_empty
  | cons w ws ih =>
      obtain ⟨hFirst, hRest⟩ := List.forall_mem_cons.mp hClean
      obtain ⟨hWord, hWords⟩ := List.forall_mem_cons.mp hSome
      have hPhrase := ih hRest hWords
      cases ws with
      | nil => simpa [phrase] using hFirst
      | cons v vs =>
          have hSaid : phrase (v :: vs) ≠ "" := phrase_ne_empty (by simp) hWords
          have hJoined : phrase (w :: v :: vs) = w ++ " " ++ phrase (v :: vs) :=
            String.intercalate_cons_cons
          rw [hJoined]
          exact hFirst.append hPhrase hWord hSaid " "

end RoughCut
