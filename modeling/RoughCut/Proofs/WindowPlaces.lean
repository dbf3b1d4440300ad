import Mathlib.Data.List.Forall2
import RoughCut.Proofs.FaultIsolation

/-!
Where windows are among the tokens. Each window of a scan begins at a slate of
its own, and the scan gives them in the order in which these slates are spoken.
-/

namespace RoughCut

section Keys

variable {α β γ : Type} {R : α → β → Prop} {keys : List α} {l : List β}

theorem exists_key_of_mem (h : List.Forall₂ R keys l) {b : β} (hMem : b ∈ l) :
    ∃ k ∈ keys, R k b := by
  induction h with
  | nil => cases hMem
  | cons hHere _ ih =>
      rcases List.mem_cons.mp hMem with rfl | hLater
      · exact ⟨_, List.mem_cons_self, hHere⟩
      · obtain ⟨k, hKey, hKeeps⟩ := ih hLater
        exact ⟨k, List.mem_cons_of_mem _ hKey, hKeeps⟩

/-- Where every member of a list has a key, so has every image of a member, and
the keys keep their order. -/
theorem exists_sublist_filterMap {f : β → Option γ} (h : List.Forall₂ R keys l) :
    ∃ kept, kept.Sublist keys ∧
      List.Forall₂ (fun k c => ∃ b, R k b ∧ f b = some c) kept (l.filterMap f) := by
  induction h with
  | nil => exact ⟨[], List.Sublist.refl _, .nil⟩
  | @cons k b keys l hHere _ ih =>
      obtain ⟨kept, hKept, hRest⟩ := ih
      cases hImage : f b with
      | none => exact ⟨kept, hKept.cons k, by simpa [hImage] using hRest⟩
      | some c =>
          refine ⟨k :: kept, hKept.cons_cons k, ?_⟩
          simpa [List.filterMap_cons, hImage] using ⟨⟨b, hHere, hImage⟩, hRest⟩

theorem forall₂_comp {S : β → γ → Prop} {m : List γ} (h : List.Forall₂ R keys l)
    (hNext : List.Forall₂ S l m) : List.Forall₂ (fun k c => ∃ b, R k b ∧ S b c) keys m := by
  induction h generalizing m with
  | nil =>
      cases hNext
      exact .nil
  | cons hHere _ ih =>
      cases hNext with
      | cons hThere hRest => exact .cons ⟨_, hHere, hThere⟩ (ih hRest)

end Keys

namespace Token

variable {tokens ts : List Token} {t : Token} {w : Window} {place : Nat}

/-- A whole window begins at this place among the tokens. -/
def WindowAt (tokens : List Token) (place : Nat) (w : Window) : Prop :=
  ∃ window, window <+: tokens.drop place ∧ IsWindow window w

theorem WindowAt.cons (h : WindowAt ts place w) (t : Token) :
    WindowAt (t :: ts) (place + 1) w := h

/-- The windows are found in the order of the places at which they begin. -/
theorem exists_places_windows (tokens : List Token) :
    ∃ places : List Nat, places.Pairwise (· < ·) ∧
      List.Forall₂ (WindowAt tokens) places (windows tokens) := by
  induction tokens with
  | nil => exact ⟨[], .nil, .nil⟩
  | cons t ts ih =>
      obtain ⟨places, hOrder, hPlaces⟩ := ih
      have hLater : (places.map (· + 1)).Pairwise (· < ·) := by
        simpa [List.pairwise_map] using hOrder
      have hShifted : List.Forall₂ (WindowAt (t :: ts)) (places.map (· + 1)) (windows ts) := by
        rw [List.forall₂_map_left_iff]
        exact hPlaces.imp fun place w hw => hw.cons t
      have hSame (h : windows (t :: ts) = windows ts) :
          List.Forall₂ (WindowAt (t :: ts)) (places.map (· + 1)) (windows (t :: ts)) := by
        rwa [h]
      cases hSlate : t.isSlate with
      | false => exact ⟨_, hLater, hSame (by simp [windows, outcomes, hSlate])⟩
      | true =>
          cases hOutcome : OpenWindow.outcome ⟨t.start, []⟩ ts with
          | inr issue =>
              refine ⟨_, hLater, hSame ?_⟩
              simp [windows, outcomes_slate hSlate, hOutcome, List.filterMap_cons]
          | inl w =>
              have hFirst : WindowAt (t :: ts) 0 w := exists_isWindow_of_outcome hSlate hOutcome
              have hMore : windows (t :: ts) = w :: windows ts := by
                simp [windows, outcomes_slate hSlate, hOutcome]
              refine ⟨0 :: places.map (· + 1), by simpa using hLater, ?_⟩
              rw [hMore]
              exact .cons hFirst hShifted

/-- Each window lies somewhere among the tokens. -/
theorem exists_place_of_mem_windows (h : w ∈ windows tokens) :
    ∃ place, WindowAt tokens place w := by
  obtain ⟨places, -, hPlaces⟩ := exists_places_windows tokens
  obtain ⟨place, -, hPlace⟩ := exists_key_of_mem hPlaces h
  exact ⟨place, hPlace⟩

/-- The words of a window are words of the tokens. -/
theorem WindowAt.exists_of_mem_payload (h : WindowAt tokens place w) {word : String}
    (hWord : word ∈ w.payload) : ∃ t ∈ tokens, t.text = word := by
  obtain ⟨_, hWindow, @⟨slate, done, words, -, -, -⟩⟩ := h
  obtain ⟨t, hMem, hText⟩ := List.mem_map.mp hWord
  have hInside : t ∈ slate :: (words ++ [done]) := by simp [hMem]
  exact ⟨t, List.mem_of_mem_drop (hWindow.subset hInside), hText⟩

end Token

end RoughCut
