import FormalLanguage.Grammar.Basic
import FormalLanguage.Text.Basic

/-!
Grammars as text. Names are separated by blanks; a nonterminal that is not declared as such is
recognised by its angle brackets. A line gives one left side and, behind `::=`, its alternatives
with `|` between them; an alternative that is a single `$` is empty.
-/
namespace FormalLanguage

/-- Whether a name has angle brackets with something between them. -/
def isBracketed (name : String) : Bool :=
  match name.toList with
  | '<' :: _ :: c :: rest => (c :: rest).getLast? == some '>'
  | _ => false

/-- The symbol that a name denotes by its form alone. -/
def Symbol.ofName (name : String) : Symbol :=
  if name = endName then endMarker
  else if isBracketed name then nonterminal name
  else terminal name

theorem Symbol.name_ofName (name : String) : (Symbol.ofName name).name = name := by
  unfold ofName
  split
  next h => exact h.symm
  next =>
    split
    · rfl
    · rfl

/-- A left side with its alternatives, either as names or as symbols. -/
structure Line (α : Type) where
  left : α
  alternatives : List (List α)
deriving DecidableEq

namespace Line

/-- The words of a text, except that a text whose only word is the end marker has none. -/
def namesOf (cs : List Char) : List String :=
  let names := (Text.words cs).map String.ofList
  if names = [Symbol.endName] then [] else names

/-- The names in a sequence of symbols. -/
def names (text : String) : List String := namesOf text.toList

/-- The symbols of a sequence, each by the form of its name. -/
def symbols (text : String) : List Symbol := (names text).map Symbol.ofName

/-- What stands before and behind the first `::=`. -/
def sides : List Char → Option (List Char × List Char)
  | [] => none
  | ':' :: ':' :: '=' :: behind => some ([], behind)
  | c :: rest => (sides rest).map fun (before, behind) => (c :: before, behind)

/-- The names of a line. Its left side has to be one word. -/
def split (line : String) : Except GrammarFault (Line String) :=
  match sides line.toList with
  | none => .error (.malformedLine line)
  | some (before, behind) =>
      match Text.words before with
      | [left] => .ok ⟨String.ofList left, (behind.splitOn '|').map namesOf⟩
      | _ => .error (.malformedLine line)

/-- The symbols of a line, each by the form of its name. The left side has to be a
nonterminal. -/
def parse (line : String) : Except GrammarFault (Line Symbol) :=
  match split line with
  | .error e => .error e
  | .ok ⟨left, alternatives⟩ =>
      if (Symbol.ofName left).isTerminal then .error (.malformedLine line)
      else .ok ⟨.ofName left, alternatives.map (·.map Symbol.ofName)⟩

end Line

end FormalLanguage
