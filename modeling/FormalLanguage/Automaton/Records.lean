import FormalLanguage.Automaton.Determinized
import FormalLanguage.Event

/-!
The records that operations on automata leave, in the order in which the work is done. Following
epsilon edges is only recorded when there was something to follow.
-/

namespace FormalLanguage

namespace TransitionRelation

/-- The record of making the relation. -/
def made (f : TransitionRelation) : Event := .relationMade f.labeled.size f.epsilon.size

/-- What an attempt to build the relation of the listed edges under a policy records. The relation
is made before it is examined, so the record does not depend on how the attempt ends. -/
def attemptRecords (es : List Edge) : List Event := [(ofList es).made]

/-- What closing a configuration records. -/
def closureRecords (f : TransitionRelation) (states : Configuration) : List Event :=
  if f.closesTrivially states then []
  else [.closed states.size (f.epsilonClosure states).size]

/-- What reading one letter records. -/
def successorRecords (f : TransitionRelation) (states : Configuration) (a : Letter) :
    List Event :=
  if states.isEmpty then [] else f.closureRecords (f.move states a)

/-- What reading the letters of a word one after the other records. -/
def walkRecords (f : TransitionRelation) (states : Configuration) : Word → List Event
  | [] => []
  | a :: w => f.successorRecords states a ++ walkRecords f (f.successor states a) w

end TransitionRelation

namespace Automaton

/-- The record of putting the automaton together. -/
def made (A : Automaton) : Event :=
  .automatonMade A.alphabet.size A.relation.size A.start.toNat A.accepting.size

/-- What an attempt to put an automaton together records, given how it ended. -/
def attemptRecords : Except AutomatonFault Automaton → List Event
  | .ok A => [A.made]
  | .error _ => []

/-- What finding the initial configuration records. -/
def initialRecords (A : Automaton) : List Event :=
  A.relation.closureRecords (SortedSet.ofList [A.start])

/-- What running on a word records. A configuration without states reads no more letters and so
leaves no more records. -/
def runRecords (A : Automaton) (w : Word) : List Event :=
  A.initialRecords ++ A.relation.walkRecords A.initial w

/-- What determinizing records: every closure on the way, then the exploration as a whole, then
the parts of the new automaton. -/
def determinizeRecords (A : Automaton) : List Event :=
  let D := A.determinize
  A.initialRecords ++
    A.exploration.visited.flatMap (fun states =>
      A.alphabet.toList.flatMap (A.relation.successorRecords states)) ++
    [.explored A.relation.states.size D.configurations.length
      (A.configurationEdges D.configurations).length,
     D.automaton.relation.made, D.automaton.made]

end Automaton

/-!
What a construction on state numbers expands on the way, and what this records. On a visit every
letter of the alphabet is read in the configuration that is visited, and closing what the letter
leads to may leave a record.
-/

namespace Construction

/-- A letter read in the configuration with a number, and what this recorded. -/
structure Expansion where
  number : State
  letter : Letter
  records : List Event

/-- What was expanded: the number and the letter. -/
def Expansion.pair (x : Expansion) : State × Letter := (x.number, x.letter)

/-- A construction that goes on until nothing is pending, with what it expands on the way and what
it comes to. -/
inductive Expands (A : Automaton) : Construction → List Expansion → Construction → Prop
  | done {C : Construction} : C.pending = [] → Expands A C [] C
  | visit {C D E : Construction} {current : State} {rest : List State} {S : Configuration}
      {later : List Expansion} :
      C.pending = current :: rest →
      C.configurations[current.toNat]? = some S →
      Construction.visit A current { C with pending := rest } = some D →
      Expands A D later E →
      Expands A C
        (A.alphabet.toList.map (fun a => ⟨current, a, A.relation.successorRecords S a⟩) ++ later) E

end Construction

end FormalLanguage
