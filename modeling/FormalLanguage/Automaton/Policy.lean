import FormalLanguage.Automaton.Edge
import FormalLanguage.Automaton.Relation
import FormalLanguage.Text.Basic

/-!
What can be wrong with the parts of an automaton, and how it is reported.
-/

namespace FormalLanguage

/-- Why an automaton, or its transition relation, is refused. -/
inductive AutomatonFault where
  /-- An epsilon edge where none are allowed. -/
  | epsilonEdge (e : Edge)
  /-- Two edges with the same source and label where only one is allowed. -/
  | conflict (source : State) (label : Option Letter) (firstTarget secondTarget : State)
  /-- An edge that reads a letter outside the alphabet. -/
  | foreignLetter (e : Edge)
deriving DecidableEq

def AutomatonFault.message : AutomatonFault → String
  | epsilonEdge e => "epsilon moves not permitted: " ++ e.text
  | conflict source label firstTarget secondTarget =>
      "transition already defined for " ++ Edge.stateText source ++ " on " ++
        Text.quote (Edge.labelText label) ++ " (targets " ++ Edge.stateText firstTarget ++
        " and " ++ Edge.stateText secondTarget ++ "); non-determinism not permitted"
  | foreignLetter e => "transition input not defined in alphabet: " ++ e.text

/-!
Policies on what edges a transition relation may hold, and building a relation under a policy.
-/

structure Policy where
  /-- Several edges may share source and label. -/
  allowsConflicts : Bool
  /-- Edges may read nothing. -/
  allowsEpsilon : Bool
deriving DecidableEq

namespace Policy

def nfa : Policy := ⟨true, true⟩

/-- One target for each source and label, and no epsilon edges. -/
def dfa : Policy := ⟨false, false⟩

/-- Unless something else is asked for, everything is allowed. -/
instance : Inhabited Policy := ⟨nfa⟩

/-- The least epsilon edge of a relation, if the policy forbids such edges. -/
def forbiddenEpsilon (p : Policy) (f : TransitionRelation) : Option Edge :=
  if p.allowsEpsilon then none else f.epsilon.toList.head?

/-- The first conflict of a relation, if the policy forbids conflicts. -/
def forbiddenConflict (p : Policy) (f : TransitionRelation) : Option (Edge × Edge) :=
  if p.allowsConflicts then none else f.conflict?

end Policy

/-- The relation of the listed edges, if the policy allows it. Epsilon edges are objected to
before conflicts are. -/
def TransitionRelation.build (p : Policy) (es : List Edge) :
    Except AutomatonFault TransitionRelation :=
  let f := ofList es
  match p.forbiddenEpsilon f with
  | some e => .error (.epsilonEdge e)
  | none =>
      match p.forbiddenConflict f with
      | some (first, second) =>
          .error (.conflict second.source second.label first.target second.target)
      | none => .ok f

end FormalLanguage
