import Mathlib.Data.List.Basic
import Mathlib.Data.List.Pairwise
import RoughCut.Timeline

/-!
The order in which commands are taken. Two lists in this order are the same
if they have the same commands at each time in the same sequence. So a command
more in a list is one command more in the ordered list, and nothing else moves.
-/

namespace RoughCut

/-- Sorting leaves members alone among themselves if they are all at most one
another. -/
theorem filter_mergeSort {α : Type} {le : α → α → Bool}
    (hTrans : ∀ a b c, le a b = true → le b c = true → le a c = true)
    (hTotal : ∀ a b, (le a b || le b a) = true) {p : α → Bool}
    (h : ∀ a b, p a = true → p b = true → le a b = true) (l : List α) :
    (l.mergeSort le).filter p = l.filter p := by
  have hSame : (l.filter p).Pairwise fun a b => le a b = true :=
    List.pairwise_of_forall_mem_list fun a ha b hb =>
      h a b (List.mem_filter.mp ha).2 (List.mem_filter.mp hb).2
  have hKept := (List.sublist_mergeSort hTrans hTotal hSame List.filter_sublist).filter p
  rw [List.filter_filter] at hKept
  simp only [Bool.and_self] at hKept
  exact (hKept.eq_of_length ((List.mergeSort_perm l le).filter p).length_eq.symm).symm

namespace Command

/-- Whether the command has this place in the order of times. -/
def hasPlace (place : Int) (c : Command) : Bool :=
  decide (c.start.order = place)

theorem hasPlace_self (c : Command) : hasPlace c.start.order c = true :=
  decide_eq_true rfl

/-- No command comes after one that starts later. -/
def Ordered (commands : List Command) : Prop :=
  commands.Pairwise fun a b => a.start.order ≤ b.start.order

instance (commands : List Command) : Decidable (Ordered commands) :=
  inferInstanceAs (Decidable (commands.Pairwise fun a b => a.start.order ≤ b.start.order))

/-- The first of some ordered commands is not after any of them. -/
theorem Ordered.head_le {x c : Command} {xs : List Command} (h : Ordered (x :: xs))
    (hMem : c ∈ x :: xs) : x.start.order ≤ c.start.order := by
  rcases List.mem_cons.mp hMem with rfl | hMem
  · exact Int.le_refl _
  · exact (List.pairwise_cons.mp h).1 c hMem

theorem notAfter_trans (a b c : Command) (hab : decide (a.start.order ≤ b.start.order) = true)
    (hbc : decide (b.start.order ≤ c.start.order) = true) :
    decide (a.start.order ≤ c.start.order) = true := by
  simp only [decide_eq_true_eq] at hab hbc ⊢
  omega

theorem notAfter_total (a b : Command) :
    (decide (a.start.order ≤ b.start.order) || decide (b.start.order ≤ a.start.order)) = true := by
  simp only [Bool.or_eq_true, decide_eq_true_eq]
  omega

/-- No command is lost or made up by sorting. -/
theorem perm_inOrder (commands : List Command) : (inOrder commands).Perm commands :=
  List.mergeSort_perm _ _

theorem ordered_inOrder (commands : List Command) : Ordered (inOrder commands) :=
  (List.pairwise_mergeSort notAfter_trans notAfter_total commands).imp of_decide_eq_true

/-- Commands that are given in order are taken as they are given. Nothing needs to be
known of the sorting but that it is a stable one. -/
theorem Ordered.inOrder_eq {commands : List Command} (h : Ordered commands) :
    inOrder commands = commands :=
  List.mergeSort_of_pairwise (h.imp decide_eq_true)

/-- Commands of one time keep the sequence in which they were given. -/
theorem filter_inOrder (place : Int) (commands : List Command) :
    (inOrder commands).filter (hasPlace place) = commands.filter (hasPlace place) := by
  refine filter_mergeSort notAfter_trans notAfter_total (fun a b ha hb => ?_) commands
  simp only [hasPlace, decide_eq_true_eq] at ha hb ⊢
  omega

theorem mem_of_filter_eq {xs ys : List Command} {c : Command}
    (h : ∀ place, xs.filter (hasPlace place) = ys.filter (hasPlace place)) (hMem : c ∈ xs) :
    c ∈ ys := by
  have hAt := List.mem_filter.mpr ⟨hMem, hasPlace_self c⟩
  rw [h] at hAt
  exact (List.mem_filter.mp hAt).1

/-- An ordered list is determined by what it has at each time. This is how two ways of
sorting are shown to come to the same list. -/
theorem Ordered.eq_of_filter_eq {xs ys : List Command} (hxs : Ordered xs) (hys : Ordered ys)
    (h : ∀ place, xs.filter (hasPlace place) = ys.filter (hasPlace place)) : xs = ys := by
  induction xs generalizing ys with
  | nil =>
      refine (List.eq_nil_iff_forall_not_mem.mpr fun c hMem => ?_).symm
      exact List.not_mem_nil (mem_of_filter_eq (fun place => (h place).symm) hMem)
  | cons x xs ih =>
      cases ys with
      | nil => exact absurd (mem_of_filter_eq h (List.mem_cons_self ..)) List.not_mem_nil
      | cons y ys =>
          -- both heads are earliest in both lists, so they have one place
          have hxy := hxs.head_le (mem_of_filter_eq (fun place => (h place).symm)
            (List.mem_cons_self ..))
          have hyx := hys.head_le (mem_of_filter_eq h (List.mem_cons_self ..))
          have hPlace : hasPlace x.start.order y = true :=
            decide_eq_true (Int.le_antisymm hyx hxy)
          have hHead := h x.start.order
          rw [List.filter_cons_of_pos (hasPlace_self x), List.filter_cons_of_pos hPlace] at hHead
          obtain rfl : x = y := (List.cons.inj hHead).1
          congr 1
          refine ih (List.pairwise_cons.mp hxs).2 (List.pairwise_cons.mp hys).2 fun place => ?_
          have hAt := h place
          simp only [List.filter_cons] at hAt
          split at hAt
          · exact (List.cons.inj hAt).2
          · exact hAt

/-- Commands that start no earlier than others are taken after them. So sorting may be
done apart on both sides of such a parting. -/
theorem inOrder_append {xs ys : List Command}
    (h : ∀ x ∈ xs, ∀ y ∈ ys, x.start.order ≤ y.start.order) :
    inOrder (xs ++ ys) = inOrder xs ++ inOrder ys := by
  refine (ordered_inOrder (xs ++ ys)).eq_of_filter_eq ?_ fun place => ?_
  · refine List.pairwise_append.mpr ⟨ordered_inOrder xs, ordered_inOrder ys, ?_⟩
    intro x hx y hy
    exact h x ((perm_inOrder xs).mem_iff.mp hx) y ((perm_inOrder ys).mem_iff.mp hy)
  · rw [List.filter_append]
    simp only [filter_inOrder, List.filter_append]

/-- A command more in a list takes a place in the order, and all others keep
theirs. -/
theorem inOrder_insert (xs ys : List Command) (c : Command) :
    ∃ before after, inOrder (xs ++ c :: ys) = before ++ c :: after ∧
      inOrder (xs ++ ys) = before ++ after := by
  -- among the commands of its own time it stands between those of `xs` and those of `ys`
  have hAt := filter_inOrder c.start.order (xs ++ c :: ys)
  rw [List.filter_append, List.filter_cons_of_pos (hasPlace_self c)] at hAt
  obtain ⟨before, rest, hSplit, hBefore, hRest⟩ := List.filter_eq_append_iff.mp hAt
  obtain ⟨between, after, rfl, hBetween, _, hAfter⟩ := List.filter_eq_cons_iff.mp hRest
  rw [← List.append_assoc] at hSplit
  refine ⟨before ++ between, after, hSplit, ?_⟩
  have hOrdered := ordered_inOrder (xs ++ c :: ys)
  rw [hSplit] at hOrdered
  refine (ordered_inOrder (xs ++ ys)).eq_of_filter_eq
    (hOrdered.sublist (List.Sublist.append_left (List.sublist_cons_self ..) _)) fun place => ?_
  rw [filter_inOrder]
  by_cases hSame : place = c.start.order
  · subst hSame
    have hNone : between.filter (hasPlace c.start.order) = [] :=
      List.filter_eq_nil_iff.mpr hBetween
    simp only [List.filter_append, hBefore, hNone, hAfter, List.append_nil]
  · have hOther : hasPlace place c = false := decide_eq_false (Ne.symm hSame)
    have hWhole := filter_inOrder place (xs ++ c :: ys)
    simp only [hSplit, List.filter_append, List.filter_cons, hOther] at hWhole ⊢
    exact hWhole.symm

end Command

end RoughCut
