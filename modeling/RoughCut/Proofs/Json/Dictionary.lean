import Mathlib.Data.List.Induction
import RoughCut.Json.Value
import RoughCut.Tags

/-!
The members of an object by their keys. A dictionary has for every key the last
of its values (`latest_dictionary`), and nothing else is ever asked of it.
-/

namespace RoughCut.Json

/-- The values of a key, in order. -/
def valuesOf (k : String) : List (String × Value) → List Value
  | [] => []
  | (j, v) :: ms => if j = k then v :: valuesOf k ms else valuesOf k ms

/-- The members with other keys. -/
def without (k : String) (ms : List (String × Value)) : List (String × Value) :=
  ms.filter fun (j, _) => j ≠ k

section

variable {j k : String} {v : Value} {ms ds : List (String × Value)}

@[simp]
theorem valuesOf_nil : valuesOf k [] = [] := rfl

theorem valuesOf_cons_self : valuesOf k ((k, v) :: ms) = v :: valuesOf k ms :=
  if_pos rfl

theorem valuesOf_cons_of_ne (h : j ≠ k) : valuesOf k ((j, v) :: ms) = valuesOf k ms :=
  if_neg h

/-- The values of a key in two lists of members are those in the first and then those in
the second. -/
theorem valuesOf_append (k : String) (ms ns : List (String × Value)) :
    valuesOf k (ms ++ ns) = valuesOf k ms ++ valuesOf k ns := by
  induction ms with
  | nil => rfl
  | cons m ms ih =>
      obtain ⟨j, v⟩ := m
      by_cases hKey : j = k
      · subst hKey
        simp only [List.cons_append, valuesOf_cons_self, ih]
      · simp only [List.cons_append, valuesOf_cons_of_ne hKey, ih]

theorem valuesOf_eq_nil (h : k ∉ ms.map Prod.fst) : valuesOf k ms = [] := by
  induction ms with
  | nil => rfl
  | cons m ms ih =>
      obtain ⟨j, v⟩ := m
      simp only [List.map_cons, List.mem_cons, not_or] at h
      rw [valuesOf_cons_of_ne (Ne.symm h.1), ih h.2]

theorem mem_valuesOf : v ∈ valuesOf k ms ↔ (k, v) ∈ ms := by
  induction ms with
  | nil => simp
  | cons m ms ih =>
      obtain ⟨j, w⟩ := m
      by_cases hKey : j = k
      · subst hKey
        simp [valuesOf_cons_self, ih]
      · simp [valuesOf_cons_of_ne hKey, ih, Ne.symm hKey]

/-- An object has a member under a key exactly if the key is among its keys. -/
theorem hasMember_iff : (Value.object ms).hasMember k = true ↔ k ∈ ms.map Prod.fst := by
  simp only [Value.hasMember, List.any_eq_true, beq_iff_eq, List.mem_map]

theorem length_valuesOf : (valuesOf k ms).length = (ms.map Prod.fst).count k := by
  induction ms with
  | nil => rfl
  | cons m ms ih =>
      obtain ⟨j, w⟩ := m
      by_cases hKey : j = k
      · subst hKey
        simp [valuesOf_cons_self, ih]
      · simp [valuesOf_cons_of_ne hKey, ih, hKey]

theorem without_cons_self : without k ((k, v) :: ms) = without k ms := by
  simp [without]

theorem without_cons_of_ne (h : j ≠ k) : without k ((j, v) :: ms) = (j, v) :: without k ms := by
  simp [without, h]

/-- Without the members of one key every other key has the values that it had. -/
theorem valuesOf_without (j k : String) (ms : List (String × Value)) :
    valuesOf j (without k ms) = if j = k then [] else valuesOf j ms := by
  induction ms with
  | nil => simp [without]
  | cons m ms ih =>
      obtain ⟨i, w⟩ := m
      by_cases hGone : i = k
      · subst hGone
        rw [without_cons_self, ih]
        split_ifs with hKey
        · rfl
        · rw [valuesOf_cons_of_ne (Ne.symm hKey)]
      · rw [without_cons_of_ne hGone]
        by_cases hHere : i = j
        · subst hHere
          rw [valuesOf_cons_self, valuesOf_cons_self, ih, if_neg hGone, if_neg hGone]
        · rw [valuesOf_cons_of_ne hHere, valuesOf_cons_of_ne hHere, ih]

end

/-- For every key, `ds` has the last of its values in `ms` and no other. -/
def Latest (ds ms : List (String × Value)) : Prop :=
  ∀ k, valuesOf k ds = (valuesOf k ms).getLast?.toList

namespace Latest

variable {ds ms : List (String × Value)}

/-- The latest members without those of a key are the latest of the members without
those of the key. -/
theorem without (h : Latest ds ms) (k : String) : Latest (without k ds) (without k ms) := by
  intro j
  rw [valuesOf_without, valuesOf_without]
  split_ifs with hKey
  · rfl
  · exact h j

/-- Where a key has one value, that is the last. A dictionary keeps the last value of a
key, so only repeated keys lose any. -/
theorem valuesOf_eq (h : Latest ds ms) {k : String} (hOnce : (valuesOf k ms).length ≤ 1) :
    valuesOf k ds = valuesOf k ms := by
  rw [h k]
  match valuesOf k ms, hOnce with
  | [], _ => rfl
  | [v], _ => rfl

end Latest

namespace Value

variable {k : String} {v : Value} {d : List (String × Value)}

/-- A key is inserted among the keys of a dictionary as a tag is among tags. So what is
known of tags holds of these keys. -/
theorem keys_insertMember (k : String) (v : Value) (d : List (String × Value)) :
    (insertMember k v d).map Prod.fst = Tags.insertList k (d.map Prod.fst) := by
  induction d with
  | nil => rfl
  | cons m d ih =>
      obtain ⟨j, w⟩ := m
      unfold insertMember
      simp only [List.map_cons, Tags.insertList]
      split_ifs with hBefore hSame
      · rfl
      · rw [List.map_cons, hSame]
      · rw [List.map_cons, ih]

/-- A member that is inserted takes the place of any other with its key. -/
theorem valuesOf_insertMember_self (h : (d.map Prod.fst).Pairwise (· < ·)) :
    valuesOf k (insertMember k v d) = [v] := by
  induction d with
  | nil => exact valuesOf_cons_self
  | cons m d ih =>
      obtain ⟨j, w⟩ := m
      rw [List.map_cons, List.pairwise_cons] at h
      unfold insertMember
      split_ifs with hBefore hSame
      · have hAbsent : k ∉ ((j, w) :: d).map Prod.fst := by
          rw [List.map_cons, List.mem_cons, not_or]
          exact ⟨String.ne_of_lt hBefore, fun hThere =>
            String.lt_irrefl k (String.lt_trans hBefore (h.1 k hThere))⟩
        rw [valuesOf_cons_self, valuesOf_eq_nil hAbsent]
      · have hAbsent : k ∉ d.map Prod.fst := fun hThere =>
          String.lt_irrefl k (hSame ▸ h.1 k hThere)
        rw [valuesOf_cons_self, valuesOf_eq_nil hAbsent]
      · rw [valuesOf_cons_of_ne (Ne.symm hSame), ih h.2]

theorem valuesOf_insertMember_of_ne {j : String} (h : j ≠ k) :
    valuesOf j (insertMember k v d) = valuesOf j d := by
  induction d with
  | nil => exact valuesOf_cons_of_ne (Ne.symm h)
  | cons m d ih =>
      obtain ⟨i, w⟩ := m
      unfold insertMember
      split_ifs with hBefore hSame
      · exact valuesOf_cons_of_ne (Ne.symm h)
      · subst hSame
        rw [valuesOf_cons_of_ne (Ne.symm h), valuesOf_cons_of_ne (Ne.symm h)]
      · by_cases hHere : i = j
        · subst hHere
          rw [valuesOf_cons_self, valuesOf_cons_self, ih]
        · rw [valuesOf_cons_of_ne hHere, valuesOf_cons_of_ne hHere, ih]

/-- A dictionary is made by inserting the members in the order in which they are
spelled. -/
theorem dictionary_concat (ms : List (String × Value)) (k : String) (v : Value) :
    dictionary (ms ++ [(k, v)]) = insertMember k v (dictionary ms) := by
  rw [dictionary, List.foldl_append]
  rfl

/-- The keys of a dictionary are in order, each of them once. -/
theorem dictionary_increasing (ms : List (String × Value)) :
    ((dictionary ms).map Prod.fst).Pairwise (· < ·) := by
  induction ms using List.reverseRecOn with
  | nil => exact .nil
  | append_singleton ms m ih =>
      obtain ⟨k, v⟩ := m
      rw [dictionary_concat, keys_insertMember]
      exact Tags.insertList_increasing k ih

/-- A dictionary has the latest members of an object, whatever the order of their keys
was. -/
theorem latest_dictionary (ms : List (String × Value)) : Latest (dictionary ms) ms := by
  intro j
  induction ms using List.reverseRecOn with
  | nil => rfl
  | append_singleton ms m ih =>
      obtain ⟨k, v⟩ := m
      rw [dictionary_concat, valuesOf_append]
      by_cases hKey : k = j
      · subst hKey
        rw [valuesOf_insertMember_self (dictionary_increasing ms), valuesOf_cons_self]
        simp
      · rw [valuesOf_insertMember_of_ne (Ne.symm hKey), valuesOf_cons_of_ne hKey, ih]
        simp

end Value

end RoughCut.Json
