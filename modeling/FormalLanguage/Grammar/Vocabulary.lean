import FormalLanguage.Order.SortedSet

/-!
Grammar symbols and the vocabularies that declare them. One name is special: a symbol called `$`,
of either kind, is an end marker, which stands for nothing at all.
-/

namespace FormalLanguage

/-- A terminal and a nonterminal of one name are different symbols. -/
inductive Symbol where
  | nonterminal (name : String)
  | terminal (name : String)
deriving DecidableEq

namespace Symbol

def name : Symbol → String
  | nonterminal n | terminal n => n

@[simp] theorem name_nonterminal (n : String) : (nonterminal n).name = n := rfl

@[simp] theorem name_terminal (n : String) : (terminal n).name = n := rfl

def isTerminal : Symbol → Bool
  | nonterminal _ => false
  | terminal _ => true

@[simp] theorem isTerminal_nonterminal (n : String) : (nonterminal n).isTerminal = false := rfl

@[simp] theorem isTerminal_terminal (n : String) : (terminal n).isTerminal = true := rfl

/-- Symbols are ordered by name; of two with one name the nonterminal comes first. -/
def order : Symbol → Symbol → Ordering := compareLex (compareOn name) (compareOn isTerminal)

instance : Std.TransCmp order :=
  inferInstanceAs (Std.TransCmp (compareLex (compareOn name) (compareOn isTerminal)))

instance : Ord Symbol := ⟨order⟩

instance : Std.TransOrd Symbol := inferInstanceAs (Std.TransCmp order)

instance : Std.LawfulEqOrd Symbol where
  compare_self {s} := show order s s = .eq from Std.ReflCmp.compare_self
  eq_of_compare {s t} h := by
    obtain ⟨hn, hk⟩ := compareLex_eq_eq.mp h
    have names : s.name = t.name := Std.LawfulEqCmp.eq_of_compare hn
    have kinds : s.isTerminal = t.isTerminal := Std.LawfulEqCmp.eq_of_compare hk
    cases s <;> cases t <;> simp_all [name, isTerminal]

def endName : String := "$"

def endMarker : Symbol := terminal endName

/-- Whether a symbol is an end marker, which only its name decides. -/
def isEndMarker (s : Symbol) : Bool := s.name == endName

theorem isEndMarker_iff {s : Symbol} : s.isEndMarker = true ↔ s.name = endName := beq_iff_eq

theorem isEndMarker_eq_false_iff {s : Symbol} : s.isEndMarker = false ↔ s.name ≠ endName :=
  beq_eq_false_iff_ne

end Symbol

/-- The declared names, by what they were declared as. -/
structure Vocabulary where
  nonterminals : SortedSet String
  terminals : SortedSet String
deriving DecidableEq

namespace Vocabulary

/-- The vocabulary of two lists of symbols. A symbol counts as what its list says, whatever its
own kind. -/
def ofSymbols (nonterminals terminals : List Symbol) : Vocabulary where
  nonterminals := SortedSet.ofList (nonterminals.map Symbol.name)
  terminals := SortedSet.ofList (terminals.map Symbol.name)

/-- The declared symbols of both kinds. -/
def symbols (V : Vocabulary) : SortedSet Symbol :=
  SortedSet.ofList (V.nonterminals.toList.map .nonterminal ++ V.terminals.toList.map .terminal)

/-- Whether a symbol was declared, and as what it is. -/
def declares (V : Vocabulary) : Symbol → Bool
  | .nonterminal n => decide (n ∈ V.nonterminals)
  | .terminal n => decide (n ∈ V.terminals)

@[simp] theorem declares_nonterminal {V : Vocabulary} {n : String} :
    V.declares (.nonterminal n) = true ↔ n ∈ V.nonterminals := decide_eq_true_iff

@[simp] theorem declares_terminal {V : Vocabulary} {n : String} :
    V.declares (.terminal n) = true ↔ n ∈ V.terminals := decide_eq_true_iff

/-- The declared symbol with a name. -/
def symbol? (V : Vocabulary) (name : String) : Option Symbol :=
  if name ∈ V.nonterminals then some (.nonterminal name)
  else if name ∈ V.terminals then some (.terminal name)
  else none

/-- What a name means in a text: the end marker, a declared symbol, or nothing. -/
def meaning (V : Vocabulary) (name : String) : Option Symbol :=
  if name = Symbol.endName then some .endMarker else V.symbol? name

/-- The least name declared as both kinds. -/
def ambiguous? (V : Vocabulary) : Option String :=
  V.nonterminals.toList.find? fun n => decide (n ∈ V.terminals)

/-- Whether a symbol can stand on a left side: a declared nonterminal. -/
def allowsLeft (V : Vocabulary) (s : Symbol) : Bool := !s.isTerminal && V.declares s

/-- Whether a symbol can stand on a right side: a declared symbol or an end marker. -/
def allowsRight (V : Vocabulary) (s : Symbol) : Bool := s.isEndMarker || V.declares s

end Vocabulary

/-!
Productions of a grammar. The order number alone identifies a rule, so that equal alternatives
can be told apart; the sides play no part in comparing rules with each other.
-/

/-- A rule lets its right side stand in for its left side. -/
structure Rule where
  left : Symbol
  right : List Symbol
  order : UInt32
deriving DecidableEq

namespace Rule

/-- The rule with the given sides. A right side that is one end marker and nothing else means the
same as the empty one, and is stored as the empty one. -/
def ofSides (left : Symbol) (right : List Symbol) (order : UInt32) : Rule where
  left := left
  right := match right with
    | [s] => if s.isEndMarker then [] else [s]
    | _ => right
  order := order

theorem right_ofSides (left : Symbol) (right : List Symbol) (order : UInt32) :
    (ofSides left right order).right =
      if right.map Symbol.name = [Symbol.endName] then [] else right := by
  match right with
  | [] => rfl
  | [s] => simp [ofSides, Symbol.isEndMarker]
  | s :: t :: rest => simp [ofSides]

theorem names_ofSides_ne (left : Symbol) (right : List Symbol) (order : UInt32) :
    (ofSides left right order).right.map Symbol.name ≠ [Symbol.endName] := by
  rw [right_ofSides]
  split
  next => simp
  next h => exact h

/-- Whether nothing may stand in for the left side. -/
def isEpsilon (r : Rule) : Bool := r.right.isEmpty

/-- Whether two rules have the same identity. -/
def same (r s : Rule) : Bool := r.order == s.order

def precedence (r s : Rule) : Ordering := compare r.order s.order

/-- Rules by ascending order number; those with one number keep their places. -/
def sorted (rs : List Rule) : List Rule := rs.mergeSort fun r s => (r.precedence s).isLE

/-- An empty right side is shown as an end marker. -/
def text (r : Rule) : String :=
  r.left.name ++ " ::= " ++
    if r.isEpsilon then Symbol.endName else " ".intercalate (r.right.map Symbol.name)

/-- How messages point at a rule: its order number, then its sides in parentheses. -/
def citation (r : Rule) : String := "production #" ++ toString r.order ++ " (" ++ r.text ++ ")"

end Rule

/-!
FIRST sets: the terminals something can begin with, and whether it can also be empty.
-/

structure FirstSet where
  terminals : SortedSet Symbol
  nullable : Bool
deriving DecidableEq

namespace FirstSet

instance : EmptyCollection FirstSet := ⟨⟨∅, false⟩⟩

def insert (s : Symbol) (F : FirstSet) : FirstSet := { F with terminals := F.terminals.insert s }

/-- The symbols of both sets; nullable if either is. -/
def union (F G : FirstSet) : FirstSet := ⟨F.terminals ∪ G.terminals, F.nullable || G.nullable⟩

/-- Whether the terminal of that name is in the set. -/
def containsName (F : FirstSet) (name : String) : Bool := decide (.terminal name ∈ F.terminals)

/-- The names of the symbols, in the order of the symbols. -/
def names (F : FirstSet) : List String := F.terminals.toList.map Symbol.name

def text (F : FirstSet) : String :=
  "\x7b" ++ ", ".intercalate F.names ++ "\x7d" ++ if F.nullable then " (nullable)" else ""

end FirstSet

end FormalLanguage
