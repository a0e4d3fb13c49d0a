import FormalLanguage.Automaton.Policy
import FormalLanguage.Automaton.Relation

/-!
Finite automata. An automaton reads letters of its alphabet only: no edge is labelled with any
other letter, and this is checked when the automaton is built.
-/

namespace FormalLanguage

structure Automaton where
  alphabet : Alphabet
  start : State
  accepting : SortedSet State
  relation : TransitionRelation
  letters_known : ∀ e ∈ relation, e.readsFrom alphabet = true

namespace Automaton

/-- Puts an automaton together, unless some edge reads a letter outside the alphabet; the least
such edge is reported. -/
def build (alphabet : Alphabet) (start : State) (accepting : List State)
    (relation : TransitionRelation) : Except AutomatonFault Automaton :=
  match h : relation.labeled.toList.find? fun e => !e.readsFrom alphabet with
  | some e => .error (.foreignLetter e)
  | none =>
      .ok {
        alphabet := alphabet
        start := start
        accepting := SortedSet.ofList accepting
        relation := relation
        letters_known := fun e he => by
          cases hl : e.label with
          | none => simp [Edge.readsFrom, hl]
          | some a =>
              have known := List.find?_eq_none.mp h e (by simp [hl, he])
              simpa using known
      }

/-- The configuration before anything is read. -/
def initial (A : Automaton) : Configuration :=
  A.relation.epsilonClosure (SortedSet.ofList [A.start])

/-- Whether some state of a configuration accepts. -/
def isAccepting (A : Automaton) (states : Configuration) : Bool :=
  states.toList.any fun q => decide (q ∈ A.accepting)

/-!
Running an automaton on a word, and finding the longest accepted beginning of a text.
-/

/-- The configuration reached from another one by a word. Reading stops as soon as no state is
left, since no letter can bring one back. -/
def runFrom (A : Automaton) (states : Configuration) : Word → Configuration
  | [] => states
  | a :: w => if states.isEmpty then states else runFrom A (A.relation.successor states a) w

def run (A : Automaton) (w : Word) : Configuration := A.runFrom A.initial w

def accepts (A : Automaton) (w : Word) : Bool := A.isAccepting (A.run w)

def acceptsText (A : Automaton) (text : String) : Bool := A.accepts (Word.ofText text)

/-- The length of the longest beginning of a word that leads from a configuration to an accepting
one. -/
def longestFrom (A : Automaton) (states : Configuration) : Word → Option Nat
  | [] => if A.isAccepting states then some 0 else none
  | a :: w =>
      let next := A.relation.successor states a
      let here := if A.isAccepting states then some 0 else none
      if next.isEmpty then here else ((longestFrom A next w).map (· + 1)).or here

/-- The length of the longest beginning of a text that the automaton accepts, counted in
characters; nothing, if not even the empty beginning is accepted. -/
def longestAccepted (A : Automaton) (text : String) : Option Nat :=
  A.longestFrom A.initial (Word.ofText text)

end Automaton

/-!
Giving the states of an automaton other numbers. States that receive the same number become one
state, and the order of the edges follows the new numbers.
-/

namespace Edge

def rename (g : State → State) (e : Edge) : Edge := ⟨g e.source, g e.target, e.label⟩

theorem readsFrom_rename (g : State → State) (alphabet : Alphabet) (e : Edge) :
    (e.rename g).readsFrom alphabet = e.readsFrom alphabet := rfl

end Edge

namespace TransitionRelation

def rename (g : State → State) (f : TransitionRelation) : TransitionRelation :=
  ⟨f.edges.map (Edge.rename g)⟩

@[simp] theorem mem_rename {g : State → State} {f : TransitionRelation} {e : Edge} :
    e ∈ f.rename g ↔ ∃ d ∈ f, d.rename g = e :=
  SortedSet.mem_map

end TransitionRelation

namespace Automaton

/-- Every state that the automaton mentions. -/
def states (A : Automaton) : SortedSet State :=
  SortedSet.ofList [A.start] ∪ (A.accepting ∪ A.relation.states)

def rename (g : State → State) (A : Automaton) : Automaton where
  alphabet := A.alphabet
  start := g A.start
  accepting := A.accepting.map g
  relation := A.relation.rename g
  letters_known e he := by
    obtain ⟨d, hd, rfl⟩ := TransitionRelation.mem_rename.mp he
    rw [Edge.readsFrom_rename]
    exact A.letters_known d hd

end Automaton

end FormalLanguage
