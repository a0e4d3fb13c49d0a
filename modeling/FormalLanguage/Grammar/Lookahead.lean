import FormalLanguage.Grammar.LeftCorner
import FormalLanguage.Grammar.Line
import FormalLanguage.Grammar.Vocabulary
import FormalLanguage.Order.SortedSet

/-!
A grammar together with its nullable symbols and its left corners, and the questions they answer:
what can be empty, and what can come first. Questions can be asked about symbols, about sequences
of symbols, and about texts whose words are names.
-/

namespace FormalLanguage

structure Lookahead where
  grammar : Grammar
  nullable : SortedSet Symbol
  leftCorner : SymbolRelation

/-- Works out both relations, once for all questions. -/
def Grammar.lookahead (G : Grammar) : Lookahead :=
  let nullable := G.nullableSet
  ⟨G, nullable, G.leftCorner nullable⟩

namespace Lookahead

/-- Whether a symbol can be empty. End markers always are. -/
def isNullable (L : Lookahead) (s : Symbol) : Bool := Grammar.vanishes L.nullable s

/-- Whether every symbol of a sequence can be empty. -/
def allNullable (L : Lookahead) (sequence : List Symbol) : Bool := sequence.all L.isNullable

/-- The terminals a symbol can begin with. -/
def firstTerminals (L : Lookahead) (s : Symbol) : SortedSet Symbol :=
  (L.leftCorner.row s).filter Symbol.isTerminal

/-- What a symbol can begin with. -/
def first (L : Lookahead) (s : Symbol) : FirstSet := ⟨L.firstTerminals s, L.isNullable s⟩

/-- What a sequence can begin with, from left to right up to the first symbol that cannot be
empty. An unknown name contributes nothing and cannot be empty. -/
def firstOfMeanings (L : Lookahead) : List (Option Symbol) → FirstSet
  | [] => ⟨∅, true⟩
  | none :: _ => ⟨∅, false⟩
  | some s :: rest =>
      if L.isNullable s then
        let later := firstOfMeanings L rest
        ⟨L.firstTerminals s ∪ later.terminals, later.nullable⟩
      else ⟨L.firstTerminals s, false⟩

/-- What a sequence of symbols can begin with. -/
def firstOf (L : Lookahead) (sequence : List Symbol) : FirstSet :=
  L.firstOfMeanings (sequence.map some)

/-- The names in a text, each as what it means to the grammar. -/
def meanings (L : Lookahead) (text : String) : List (Option Symbol) :=
  (Line.names text).map L.grammar.meaning

/-- What the sequence written in a text can begin with. -/
def firstOfText (L : Lookahead) (text : String) : FirstSet := L.firstOfMeanings (L.meanings text)

/-- Whether the sequence written in a text can be empty. -/
def textNullable (L : Lookahead) (text : String) : Bool :=
  (L.meanings text).all fun s => s.any L.isNullable

/-- The terminals that each proper symbol can begin with. -/
def firstSets (L : Lookahead) : List (Symbol × SortedSet Symbol) :=
  L.leftCorner.symbols.toList.map fun s => (s, L.firstTerminals s)

/-- The left corners of each proper symbol. -/
def leftCornerRows (L : Lookahead) : List (Symbol × SortedSet Symbol) :=
  L.leftCorner.symbols.toList.map fun s => (s, L.leftCorner.row s)

end Lookahead

/-!
Left corners as they are stored and read. The symbols stand in an ascending list, and the matrix has
a row and a column for each of them. A symbol is looked up by halving the list, its left corners are
read along its row, and the terminals among them are read once for every symbol and kept in a table.
That these readings agree is a theorem about them.
-/

/-- The order of symbols: by name, and for one name the nonterminal before the terminal. -/
inductive Symbol.Before : Symbol → Symbol → Prop
  | byName {s t : Symbol} : s.name < t.name → Before s t
  | byKind (n : String) : Before (.nonterminal n) (.terminal n)

namespace SymbolRelation

/-- The number of a symbol. -/
def place? (R : SymbolRelation) (s : Symbol) : Option (Fin R.symbols.toList.length) :=
  R.symbols.search s

/-- The entry for two symbols in the matrix. Symbols without a number have none. -/
def entry (R : SymbolRelation) (s t : Symbol) : Bool :=
  match R.place? s, R.place? t with
  | some i, some k => R.matrix.holds i k
  | _, _ => false

/-- The symbols with an entry in the row of a symbol, column by column. -/
def entries (R : SymbolRelation) (s : Symbol) : List Symbol :=
  match R.place? s with
  | none => []
  | some i =>
      ((List.finRange R.symbols.toList.length).filter (R.matrix.holds i)).map R.symbols.toList.get

/-- The terminals in the row of each symbol. -/
def terminalTable (R : SymbolRelation) : List (Symbol × SortedSet Symbol) :=
  R.symbols.toList.map fun s => (s, SortedSet.ofList ((R.entries s).filter Symbol.isTerminal))

end SymbolRelation

namespace Lookahead

/-- All that a symbol starts with. -/
def closure (L : Lookahead) (s : Symbol) : SortedSet Symbol :=
  SortedSet.ofList (L.leftCorner.entries s)

/-- What a symbol can begin with according to the table, which lists no end markers and no
undeclared symbols. -/
def tabulatedFirst (L : Lookahead) (s : Symbol) : FirstSet :=
  ⟨(L.leftCorner.terminalTable.lookup s).getD ∅, L.isNullable s⟩

end Lookahead

end FormalLanguage
