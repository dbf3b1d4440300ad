/-!
Sets of tags. A set is kept as the list of its members in the order of their
code points, so equal sets are equal lists.
-/

namespace RoughCut

/-- A finite set of texts, listed in increasing order. -/
@[ext]
structure Tags where
  toList : List String
  increasing : toList.Pairwise (· < ·)
  deriving DecidableEq

namespace Tags

def empty : Tags := ⟨[], .nil⟩

/-- Puts a text into an increasing list, unless it is there. -/
def insertList (s : String) : List String → List String
  | [] => [s]
  | t :: ts => if s < t then s :: t :: ts else if s = t then t :: ts else t :: insertList s ts

theorem mem_insertList {s x : String} {l : List String} :
    x ∈ insertList s l ↔ x = s ∨ x ∈ l := by
  induction l with
  | nil => simp [insertList]
  | cons t ts ih =>
    unfold insertList
    split
    · simp
    · split
      · next h => subst h; simp
      · simp only [List.mem_cons, ih]
        exact or_left_comm

theorem insertList_increasing (s : String) {l : List String} (h : l.Pairwise (· < ·)) :
    (insertList s l).Pairwise (· < ·) := by
  induction h with
  | nil => simp [insertList]
  | @cons t ts first rest ih =>
    unfold insertList
    split
    · next lt =>
      refine .cons (fun x hx => ?_) (.cons first rest)
      cases hx with
      | head => exact lt
      | tail _ hx => exact String.lt_trans lt (first x hx)
    · split
      · exact .cons first rest
      · next ge ne =>
        refine .cons (fun x hx => ?_) ih
        cases mem_insertList.mp hx with
        | inl same =>
          subst same
          exact Std.lt_of_le_of_ne (String.not_lt.mp ge) (Ne.symm ne)
        | inr there => exact first x there

def insert (tags : Tags) (s : String) : Tags :=
  ⟨insertList s tags.toList, insertList_increasing s tags.increasing⟩

/-- The set of the texts of a list, in whatever order they come. -/
def ofList (l : List String) : Tags :=
  l.foldl insert empty

/-- A text after all others is added at the end. -/
theorem insertList_of_forall_lt {s : String} {l : List String} (h : ∀ x ∈ l, x < s) :
    insertList s l = l ++ [s] := by
  induction l with
  | nil => rfl
  | cons t ts ih =>
    have lt := h t (List.mem_cons_self ..)
    have notLt : ¬ s < t := fun gt => String.lt_irrefl t (String.lt_trans lt gt)
    have ne : s ≠ t := fun same => String.lt_irrefl t (same ▸ lt)
    simp [insertList, notLt, ne, ih fun x hx => h x (List.mem_cons_of_mem _ hx)]

theorem toList_foldl_insert {l : List String} {t : Tags}
    (h : (t.toList ++ l).Pairwise (· < ·)) : (l.foldl insert t).toList = t.toList ++ l := by
  induction l generalizing t with
  | nil => simp
  | cons s l ih =>
    have before : ∀ x ∈ t.toList, x < s := fun x hx =>
      (List.pairwise_append.mp h).2.2 x hx s (List.mem_cons_self ..)
    have step : (t.insert s).toList = t.toList ++ [s] := insertList_of_forall_lt before
    rw [List.foldl_cons, ih (by rw [step]; simpa using h), step]
    simp

/-- A set is the set of its members. -/
theorem ofList_toList (t : Tags) : ofList t.toList = t := by
  ext1
  simpa [ofList, empty] using
    toList_foldl_insert (t := empty) (l := t.toList) (by simpa [empty] using t.increasing)

end Tags

end RoughCut
