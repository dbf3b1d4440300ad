import RoughCut.Numeral
import RoughCut.Window

/-!
Commands, the meaning of windows. The first word decides what a command is
about and with it what the other words are: a number and a label, a label, or
the tag to apply.
-/

namespace RoughCut

/-- What a command is about. -/
inductive Category where
  | scene
  | step
  | mark
  | effect
  | apply
  | ending
  deriving DecidableEq

/-- What a command does. -/
inductive CommandKind where
  /-- opens a segment in a new scene or step -/
  | start
  /-- opens a segment in the scene and step there are -/
  | standalone
  /-- tags the segment before it -/
  | retroactive
  /-- does nothing, and is still understood -/
  | deprecatedEnding
  deriving DecidableEq

namespace Category

def all : List Category := [scene, step, mark, effect, apply, ending]

/-- The word that names the category. -/
def word : Category → String
  | scene => "scene"
  | step => "step"
  | mark => "mark"
  | effect => "effect"
  | apply => "apply"
  | ending => "ending"

/-- What the commands of the category do. -/
def kind : Category → CommandKind
  | scene | step => .start
  | mark | effect => .standalone
  | apply => .retroactive
  | ending => .deprecatedEnding

/-- Whether the command has a number after its first word. -/
def isNumbered : Category → Bool
  | scene | step => true
  | _ => false

/-- The category that a word names, whatever the case of its letters. -/
def ofWord? (w : String) : Option Category :=
  all.find? fun c => c.word == Text.lower w

end Category

/-- A command with the times of its window. Only scenes and steps have a number. -/
structure Command where
  kind : CommandKind
  start : Seconds
  stop : Seconds
  category : Category
  number : Option UInt32
  label : String
  deriving DecidableEq

/-- Why a window is no command. -/
inductive Misspoken where
  | empty
  | unknownWord
  | missingNumber
  | invalidNumber
  | missingTag
  deriving DecidableEq

def Misspoken.message : Misspoken → String
  | empty => "empty command"
  | unknownWord => "unknown command word"
  | missingNumber => "missing number"
  | invalidNumber => "invalid number"
  | missingTag => "apply needs a tag"

/-- The words joined by single spaces. -/
def phrase (words : List String) : String :=
  String.intercalate " " words

/-- What was said in a window that is no command, and why it is none. -/
structure Unrecognized where
  payload : String
  reason : Misspoken
  deriving DecidableEq

def Unrecognized.message (u : Unrecognized) : String :=
  "\"" ++ u.payload ++ "\": " ++ u.reason.message

namespace Command

/-- The number of a command and the words after it. -/
def splitNumber (category : Category) (words : List String) :
    Except Misspoken (Option UInt32 × List String) :=
  if category.isNumbered then
    match words with
    | [] => .error .missingNumber
    | w :: ws =>
      match Numeral.ofWord? w with
      | none => .error .invalidNumber
      | some n => .ok (some n, ws)
  else .ok (none, words)

/-- The command that the words of a window make. -/
def ofPayload (payload : List String) (start stop : Seconds) : Except Misspoken Command :=
  match payload with
  | [] => .error .empty
  | w :: ws =>
    match Category.ofWord? w with
    | none => .error .unknownWord
    | some category => do
      let (number, ws) ← splitNumber category ws
      let label := phrase ws
      if category = .apply ∧ label.isEmpty then .error .missingTag
      else return ⟨category.kind, start, stop, category, number, label⟩

end Command

/-- The command that a window stands for. -/
def Window.classify (w : Window) : Except Unrecognized Command :=
  match Command.ofPayload w.payload w.start w.stop with
  | .ok c => .ok c
  | .error reason => .error ⟨phrase w.payload, reason⟩

end RoughCut
