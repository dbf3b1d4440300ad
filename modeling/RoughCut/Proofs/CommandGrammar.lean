import Mathlib.Algebra.Group.Nat.Defs
import RoughCut.Proofs.CutStages
import RoughCut.Proofs.InsertedWindow
import RoughCut.Proofs.SpokenNumbers
import RoughCut.Proofs.SpokenWords

/-!
The grammar of commands. A window is a command where its words are those of a
category, and nowhere else: the name of the category in any case, a number where
the category has one, and a label, which a tag does not go without. A command is
said again by the name of its category and the digits of its number.
-/

namespace RoughCut

/-- A word names a category exactly if it is the word of it, in whatever case. -/
theorem Category.ofWord?_eq_some_iff {word : String} {category : Category} :
    ofWord? word = some category ↔ Text.sameLetters word category.word = true := by
  constructor
  · intro h
    have hName : category.word = Text.lower word := by
      simpa using List.find?_some h
    have hLower : Text.lower category.word = category.word := by
      cases category <;> decide
    rw [Text.sameLetters, hLower, hName, beq_self_eq_true]
  · exact ofWord?_of_sameLetters

namespace Command

/-- The words say a command of the category with the number, and the words after
these are said in it. -/
inductive Says : List String → Category → Option UInt32 → List String → Prop where
  | plain {word : String} {said : List String} {category : Category}
      (hCategory : category ∈ [.mark, .effect, .ending])
      (hName : Text.sameLetters word category.word = true) :
      Says (word :: said) category none said
  | numbered {word spoken : String} {said : List String} {category : Category} {n : UInt32}
      (hCategory : category ∈ [.scene, .step])
      (hName : Text.sameLetters word category.word = true)
      (hNumber : Numeral.ofWord? spoken = some n) :
      Says (word :: spoken :: said) category (some n) said
  | tag {word : String} {said : List String}
      (hName : Text.sameLetters word Category.apply.word = true)
      (hTag : phrase said ≠ "") : Says (word :: said) .apply none said

/-- The plainest words for a command: the name of its category, the digits of its
number and the words said in it. -/
def canonical (category : Category) (number : Option UInt32) (said : List String) :
    List String :=
  category.word :: ((number.map fun n => Nat.repr n.toNat).toList ++ said)

variable {payload said : List String} {category : Category} {number : Option UInt32}

namespace Says

/-- Only scenes and steps have a number, and these always have one. -/
theorem isSome_number (h : Says payload category number said) :
    number.isSome = true ↔ category = .scene ∨ category = .step := by
  cases h with
  | plain hCategory | numbered hCategory => revert hCategory; cases category <;> simp
  | tag => simp

/-- The number of a scene or of a step is one at least. -/
theorem pos_number (h : Says payload category number said) : ∀ n ∈ number, 1 ≤ n.toNat := by
  cases h with
  | plain | tag => simp
  | numbered _ _ hNumber => simpa using Numeral.pos_of_ofWord? hNumber

/-- The plainest words are in the grammar too. -/
theorem says_canonical (h : Says payload category number said) :
    Says (canonical category number said) category number said := by
  have hName (category : Category) :
      Text.sameLetters category.word category.word = true := beq_self_eq_true _
  cases h with
  | plain hCategory => exact .plain hCategory (hName _)
  | numbered hCategory _ hNumber =>
      exact .numbered hCategory (hName _) (Numeral.ofWord?_repr (Numeral.pos_of_ofWord? hNumber))
  | tag _ hTag => exact .tag (hName _) hTag

/-- No words of the grammar are refused. The command has the label that the words leave
after the category and the number. -/
theorem ofPayload_eq (h : Says payload category number said) (start stop : Seconds) :
    ofPayload payload start stop =
      .ok ⟨category.kind, start, stop, category, number, phrase said⟩ := by
  cases h with
  | plain hCategory hName =>
      have hPlain : category.isNumbered = false ∧ category ≠ .apply := by
        revert hCategory
        cases category <;> simp [Category.isNumbered]
      exact Window.command?_eq_some_iff.mp <|
        Window.command?_of_sameLetters category hName hPlain.1
          (fun hApply => absurd hApply hPlain.2) start stop
  | numbered hCategory hName hNumber =>
      have hNumbered : category.isNumbered = true ∧ category ≠ .apply := by
        revert hCategory
        cases category <;> simp [Category.isNumbered]
      refine ofPayload_eq_ok_iff.mpr ⟨_, _, category, some _, said, rfl,
        Category.ofWord?_of_sameLetters hName, ?_, fun hTag => hNumbered.2 hTag.1, rfl⟩
      simp only [splitNumber, hNumbered.1, if_true, hNumber]
  | tag hName hTag =>
      exact Window.command?_eq_some_iff.mp <|
        Window.command?_of_sameLetters .apply hName rfl (fun _ => hTag) start stop

end Says

/-- Nothing but words of the grammar makes a command. What was said can be had from the
command up to the spelling of its category and its number. -/
theorem exists_says {start stop : Seconds} {c : Command}
    (h : ofPayload payload start stop = .ok c) :
    ∃ said, Says payload c.category c.number said ∧
      c = ⟨c.category.kind, start, stop, c.category, c.number, phrase said⟩ := by
  obtain ⟨word, rest, category, number, said, rfl, hWord, hSplit, hTag, rfl⟩ :=
    ofPayload_eq_ok_iff.mp h
  refine ⟨said, ?_, rfl⟩
  have hName := Category.ofWord?_eq_some_iff.mp hWord
  have hNumber := of_splitNumber hSplit
  cases category with
  | scene | step =>
      obtain ⟨spoken, n, rfl, hValue, rfl⟩ := hNumber
      exact .numbered (by simp) hName hValue
  | mark | effect | ending =>
      obtain ⟨rfl, rfl⟩ := hNumber
      exact .plain (by simp) hName
  | apply =>
      obtain ⟨rfl, rfl⟩ := hNumber
      exact .tag hName (by simpa using hTag)

end Command

/-- To classify a window is to classify its payload at the times of the window. -/
theorem Window.classify_eq_ok_iff {w : Window} {c : Command} :
    w.classify = .ok c ↔ Command.ofPayload w.payload w.start w.stop = .ok c := by
  unfold classify
  cases Command.ofPayload w.payload w.start w.stop <;> simp

/-- A window is a command exactly where its words are in the grammar. The command
has the kind of its category, the times of the window, a positive number where it is
a scene or a step and nowhere else, and as its label the words that are left. Its
plainest words are the same command again. -/
theorem Window.classify_by_grammar (w : Window) :
    ((∃ c, w.classify = .ok c) ↔
      ∃ category number said, Command.Says w.payload category number said) ∧
    ∀ c, w.classify = .ok c →
      c.kind = c.category.kind ∧ c.start = w.start ∧ c.stop = w.stop ∧
      (c.number.isSome = true ↔ c.category = .scene ∨ c.category = .step) ∧
      (∀ n ∈ c.number, 1 ≤ n.toNat ∧ n.toNat ≤ 2 ^ 32 - 1) ∧
      ∃ said, Command.Says w.payload c.category c.number said ∧ c.label = phrase said ∧
        classify ⟨Command.canonical c.category c.number said, w.start, w.stop⟩ = .ok c := by
  refine ⟨⟨?_, ?_⟩, ?_⟩
  · rintro ⟨c, hCommand⟩
    obtain ⟨said, hSays, -⟩ := Command.exists_says (classify_eq_ok_iff.mp hCommand)
    exact ⟨c.category, c.number, said, hSays⟩
  · rintro ⟨category, number, said, hSays⟩
    exact ⟨_, classify_eq_ok_iff.mpr (hSays.ofPayload_eq w.start w.stop)⟩
  · intro c hCommand
    have hPayload := classify_eq_ok_iff.mp hCommand
    obtain ⟨hStart, hStop, hKind⟩ := Command.of_ofPayload hPayload
    obtain ⟨said, hSays, hWhole⟩ := Command.exists_says hPayload
    have hBits (n : UInt32) : n.toNat ≤ 2 ^ 32 - 1 := Nat.le_sub_one_of_lt n.toNat_lt
    refine ⟨hKind, hStart, hStop, hSays.isSome_number,
      fun n hn => ⟨hSays.pos_number n hn, hBits n⟩, said, hSays, ?_, ?_⟩
    · rw [hWhole]
    · rw [classify_eq_ok_iff, hSays.says_canonical.ofPayload_eq, ← hWhole]

/-- A step in capitals with its number in words is the same command as one in small
letters with digits, and its label keeps the case in which it was said. -/
theorem Window.classify_by_grammar_step :
    let w : Window :=
      ⟨["STEP", "Twenty-One", "Harbor", "at dawn"], ⟨0x3FF0000000000000⟩, ⟨0x4000000000000000⟩⟩
    let c : Command := ⟨.start, w.start, w.stop, .step, some 21, "Harbor at dawn"⟩
    w.classify = .ok c ∧ c.kind = c.category.kind ∧
      Command.Says w.payload .step (some 21) ["Harbor", "at dawn"] ∧
      classify ⟨["step", "21", "Harbor", "at dawn"], w.start, w.stop⟩ = .ok c := by
  intro w c
  have hPayload : Command.ofPayload w.payload w.start w.stop = .ok c := by decide +kernel
  have hCommand := classify_eq_ok_iff.mpr hPayload
  obtain ⟨hKind, -, -, -, -, said, hSays, -, hAgain⟩ := w.classify_by_grammar.2 c hCommand
  cases hSays with
  | numbered hCategory hName hNumber =>
      exact ⟨hCommand, hKind, .numbered hCategory hName hNumber, hAgain⟩

end RoughCut
