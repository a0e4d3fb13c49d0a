import FormalLanguage.Automaton.Edge
import FormalLanguage.Grammar.Vocabulary

/-!
Values as they are exchanged with other programs: scalars, lists, and records of named fields, and
one way to write and to read them. Reading is strict. No kind of value stands in for another one,
except that a record may also be given as the list of all its fields in their order.
-/

namespace FormalLanguage

/-- A value as it is exchanged. A number is whole or has decimal places, and which of the two it
is matters. -/
inductive Value where
  | null
  | boolean (b : Bool)
  | whole (n : Int)
  | decimal (digits : Int) (places : Nat)
  | text (s : String)
  | list (items : List Value)
  | record (fields : List (String × Value))
deriving Inhabited

namespace Value

def asText? : Value → Option String
  | text s => some s
  | _ => none

def asBoolean? : Value → Option Bool
  | boolean b => some b
  | _ => none

/-- A whole number that fits 32 bits without a sign. -/
def asUInt32? : Value → Option UInt32
  | whole n => if 0 ≤ n ∧ n < 4294967296 then some (UInt32.ofNat n.toNat) else none
  | _ => none

def ofUInt32 (n : UInt32) : Value := whole n.toNat

/-- A list all of whose items can be read. -/
def asList? {α : Type} (read : Value → Option α) : Value → Option (List α)
  | list items => items.mapM read
  | _ => none

/-- Either nothing, for null, or something that can be read. -/
def asOption? {α : Type} (read : Value → Option α) : Value → Option (Option α)
  | null => some none
  | v => (read v).map some

def ofOption {α : Type} (write : α → Value) : Option α → Value
  | none => null
  | some x => write x

/-- The fields of a record in the order of their names, each with what the record has for it.
Further fields are ignored; a list stands for a record if it has exactly one item a field. -/
def fields? (names : List String) : Value → Option (List (Option Value))
  | record fields => some (names.map fun name => List.lookup name fields)
  | list items => if items.length = names.length then some (items.map some) else none
  | _ => none

end Value

/-!
The exchanged forms of letters, edges, grammar symbols, rules and FIRST sets. Each type has one
written form, which reading accepts among others. Rules that are read are taken as they are: a
lone end marker on a right side stays where it is.
-/

namespace Letter

def toValue (a : Letter) : Value := .text a

def ofValue? : Value → Option Letter := Value.asText?

end Letter

namespace Edge

def fieldNames : List String := ["source", "target", "label"]

def toValue (e : Edge) : Value :=
  .record [("source", .ofUInt32 e.source), ("target", .ofUInt32 e.target),
    ("label", .ofOption Letter.toValue e.label)]

/-- An edge without a label field is an epsilon edge. -/
def ofValue? (v : Value) : Option Edge :=
  match v.fields? fieldNames with
  | some [some source, some target, label] => do
      let source ← source.asUInt32?
      let target ← target.asUInt32?
      let label ← (label.getD .null).asOption? Letter.ofValue?
      return ⟨source, target, label⟩
  | _ => none

end Edge

namespace Symbol

def fieldNames : List String := ["name", "terminal"]

def toValue (s : Symbol) : Value :=
  .record [("name", .text s.name), ("terminal", .boolean s.isTerminal)]

def ofValue? (v : Value) : Option Symbol :=
  match v.fields? fieldNames with
  | some [some name, some kind] => do
      let name ← name.asText?
      let kind ← kind.asBoolean?
      return if kind then .terminal name else .nonterminal name
  | _ => none

end Symbol

namespace Rule

def fieldNames : List String := ["left_side", "right_side", "order"]

def toValue (r : Rule) : Value :=
  .record [("left_side", r.left.toValue), ("right_side", .list (r.right.map Symbol.toValue)),
    ("order", .ofUInt32 r.order)]

def ofValue? (v : Value) : Option Rule :=
  match v.fields? fieldNames with
  | some [some left, some right, some order] => do
      let left ← Symbol.ofValue? left
      let right ← right.asList? Symbol.ofValue?
      let order ← order.asUInt32?
      return ⟨left, right, order⟩
  | _ => none

end Rule

namespace FirstSet

def fieldNames : List String := ["terminals", "nullable"]

def toValue (F : FirstSet) : Value :=
  .record [("terminals", .list (F.terminals.toList.map Symbol.toValue)),
    ("nullable", .boolean F.nullable)]

/-- The symbols may be listed in any order and more than once. -/
def ofValue? (v : Value) : Option FirstSet :=
  match v.fields? fieldNames with
  | some [some terminals, some nullable] => do
      let terminals ← terminals.asList? Symbol.ofValue?
      let nullable ← nullable.asBoolean?
      return ⟨SortedSet.ofList terminals, nullable⟩
  | _ => none

end FirstSet

end FormalLanguage
