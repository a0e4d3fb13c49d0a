import FormalLanguage.Grammar.Basic
import FormalLanguage.Grammar.Line

/-!
Grammars under construction. Names may be declared before or after they are used and as often as
one likes, because a name is only given its kind when the draft is built. Rules are numbered in
the order in which they were added.
-/

namespace FormalLanguage

/-- What was declared so far. -/
structure Draft where
  start : String
  nonterminals : List String
  terminals : List String
  rules : List (String × List String)
deriving DecidableEq

/-- One addition to a draft. -/
inductive Draft.Addition where
  | nonterminal (name : String)
  | nonterminals (names : List String)
  | terminal (name : String)
  | terminals (names : List String)
  | rule (left : String) (right : List String)
  | line (text : String)
deriving DecidableEq

namespace Draft

/-- A draft that declares its start symbol and nothing else. -/
def new (start : String) : Draft := ⟨start, [start], [], []⟩

/-- The draft after one addition. Only a line can be refused. -/
def add (D : Draft) : Addition → Except GrammarFault Draft
  | .nonterminal name => .ok { D with nonterminals := D.nonterminals ++ [name] }
  | .nonterminals names => .ok { D with nonterminals := D.nonterminals ++ names }
  | .terminal name => .ok { D with terminals := D.terminals ++ [name] }
  | .terminals names => .ok { D with terminals := D.terminals ++ names }
  | .rule left right => .ok { D with rules := D.rules ++ [(left, right)] }
  | .line text =>
      match Line.split text with
      | .error e => .error e
      | .ok ⟨left, alternatives⟩ => .ok { D with rules := D.rules ++ alternatives.map (left, ·) }

/-- The draft after one addition, or as it was when the addition is refused. -/
def addOrKeep (D : Draft) (addition : Addition) : Draft :=
  match D.add addition with
  | .ok D' => D'
  | .error _ => D

/-- The draft after a sequence of additions, the refused ones left out. -/
def addAll (D : Draft) (additions : List Addition) : Draft := additions.foldl addOrKeep D

/-- What a name on a right side stands for: what it was declared as, else what its form says. -/
def symbolOf (D : Draft) (name : String) : Symbol :=
  if name ∈ D.nonterminals then .nonterminal name
  else if name ∈ D.terminals then .terminal name
  else .ofName name

/-- The rules with their symbols and order numbers. -/
def numberedRules (D : Draft) : List Rule :=
  D.rules.zipIdx.map fun ((left, right), i) =>
    .ofSides (.nonterminal left) (right.map D.symbolOf) (UInt32.ofNat i)

/-- The grammar that was drafted. -/
def build (D : Draft) : Except GrammarFault Grammar :=
  Grammar.build (D.nonterminals.map .nonterminal) (D.terminals.map .terminal) D.numberedRules
    (.nonterminal D.start)

/-!
What a sequence of additions declares, collected from all of them at once and without following
the draft from one to the next, and what becomes of the declared rules.
-/

namespace Addition

def nonterminalNames : Addition → List String
  | .nonterminal name => [name]
  | .nonterminals names => names
  | _ => []

def terminalNames : Addition → List String
  | .terminal name => [name]
  | .terminals names => names
  | _ => []

/-- The rules that an addition brings. A line brings one rule for each of its alternatives, and
none if it is malformed. -/
def newRules : Addition → List (String × List String)
  | .rule left right => [(left, right)]
  | .line text =>
      match Line.split text with
      | .ok ⟨left, alternatives⟩ => alternatives.map fun right => (left, right)
      | .error _ => []
  | _ => []

/-- Whether an addition declares names and brings no rules. -/
def isDeclaration : Addition → Bool
  | .rule _ _ | .line _ => false
  | _ => true

end Addition

/-- The draft that holds what all the additions declare, wherever they stand. -/
def ofAdditions (start : String) (additions : List Addition) : Draft where
  start := start
  nonterminals := start :: additions.flatMap Addition.nonterminalNames
  terminals := additions.flatMap Addition.terminalNames
  rules := additions.flatMap Addition.newRules

/-- Whether a name on a right side stands for something. -/
def Resolves (D : Draft) (name : String) : Prop :=
  name ∈ D.nonterminals ∨ name ∈ D.terminals ∨ name = Symbol.endName

instance (D : Draft) (name : String) : Decidable (D.Resolves name) :=
  inferInstanceAs (Decidable (_ ∨ _ ∨ _))

/-- Whether all names of a rule stand for something, the left one for a nonterminal. -/
def Permits (D : Draft) (written : String × List String) : Prop :=
  written.1 ∈ D.nonterminals ∧ ∀ name ∈ written.2, D.Resolves name

instance (D : Draft) (written : String × List String) : Decidable (D.Permits written) :=
  inferInstanceAs (Decidable (_ ∧ _))

/-- A rule that has a number and reads the names that were written down, except that an end marker
alone reads as nothing. -/
structure Reads (written : String × List String) (i : Nat) (r : Rule) : Prop where
  order : r.order.toNat = i
  left : r.left = .nonterminal written.1
  right : r.right.map Symbol.name = if written.2 = [Symbol.endName] then [] else written.2

/-- What is wrong with a rule that is not permitted: its left side comes first, then the first name
on its right side that stands for nothing. -/
inductive Offence (D : Draft) (written : String × List String) (i : Nat) : GrammarFault → Prop
  | left {r : Rule} :
      written.1 ∉ D.nonterminals → Reads written i r → Offence D written i (.undeclaredLeft r)
  | right {before behind : List String} {name : String} {r : Rule} :
      written.1 ∈ D.nonterminals → written.2 = before ++ name :: behind →
      (∀ earlier ∈ before, D.Resolves earlier) → ¬ D.Resolves name → Reads written i r →
      Offence D written i (.undeclaredRight (.ofName name) r)

end Draft

/-!
Writing a grammar down, so that a draft can take it up again: first the declared names, in whatever
order, then one line for each rule, by ascending order number.
-/

/-- The additions that write a grammar down behind declarations of its names. -/
def Grammar.transcript (G : Grammar) (declarations : List Draft.Addition) : List Draft.Addition :=
  declarations ++ G.rulesByOrder.map fun r => .line r.text

/-- The names that a draft declares are those of a grammar. -/
structure Draft.Declares (D : Draft) (G : Grammar) : Prop where
  nonterminals : ∀ n, n ∈ D.nonterminals ↔ n ∈ G.nonterminals
  terminals : ∀ n, n ∈ D.terminals ↔ n ∈ G.terminals

/-- A grammar whose names do not get in the way of the notation. -/
structure Grammar.Writable (G : Grammar) : Prop where
  /-- Every rule has been put together from its sides. -/
  assembled : ∀ r ∈ G.rules, ∃ right, r = .ofSides r.left right r.order
  end_not_nonterminal : Symbol.endName ∉ G.nonterminals
  end_not_terminal : Symbol.endName ∉ G.terminals
  /-- The only end marker is the terminal one. -/
  end_terminal : ∀ r ∈ G.rules, ∀ s ∈ r.right, s.isEndMarker = true → s = .endMarker
  nonterminal_plain : ∀ n ∈ G.nonterminals, Text.IsWord n.toList ∧ '|' ∉ n.toList
  terminal_plain : ∀ n ∈ G.terminals, Text.IsWord n.toList ∧ '|' ∉ n.toList
  /-- No left side holds the sign between a left side and its alternatives. -/
  left_plain : ∀ r ∈ G.rules, ¬ "::=".toList <:+: r.left.name.toList

end FormalLanguage
