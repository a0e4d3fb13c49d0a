import FormalLanguage.Automaton.Basic
import FormalLanguage.Order.SortedSet

/-!
The deterministic automaton whose states stand for the configurations an automaton can reach.
States are numbered in the order in which a search from the initial configuration discovers
their configurations; dead ends, where no state is left, get no number and no edge.
-/

namespace FormalLanguage

namespace Automaton

/-- The graph of configurations: from each one, reading each letter of the alphabet in order
leads to the next, unless no state is left. -/
def configurationGraph (A : Automaton) : FiniteGraph Configuration where
  next states :=
    (A.alphabet.toList.map (A.relation.successor states)).filter fun next => !next.isEmpty
  vertices _ := A.relation.states.powerset
  next_mem h := by
    obtain ⟨a, _, rfl⟩ := List.mem_map.mp (List.mem_filter.mp h).1
    simpa using TransitionRelation.successor_subset_states _ _ a

/-- The search through all configurations that some word leads to. -/
def exploration (A : Automaton) : Exploration Configuration :=
  A.configurationGraph.explore [A.initial] [A.initial]

/-- The number of a configuration among the listed ones. -/
def number (configurations : List Configuration) (states : Configuration) : State :=
  UInt32.ofNat (configurations.idxOf states)

/-- The edge that stands for reading one letter in a configuration, unless no state is left. -/
def configurationEdge (A : Automaton) (configurations : List Configuration)
    (states : Configuration) (a : Letter) : Option Edge :=
  let next := A.relation.successor states a
  if next.isEmpty then none
  else some ⟨number configurations states, number configurations next, some a⟩

/-- The edges between the listed configurations, for every letter of the alphabet. -/
def configurationEdges (A : Automaton) (configurations : List Configuration) : List Edge :=
  configurations.flatMap fun states =>
    A.alphabet.toList.filterMap (A.configurationEdge configurations states)

theorem configurationEdges_readsFrom {A : Automaton} {configurations : List Configuration}
    {e : Edge} (h : e ∈ A.configurationEdges configurations) :
    e.readsFrom A.alphabet = true := by
  obtain ⟨states, _, h⟩ := List.mem_flatMap.mp h
  obtain ⟨a, ha, h⟩ := List.mem_filterMap.mp h
  simp only [configurationEdge] at h
  split at h
  · cases h
  · cases h
    simpa [Edge.readsFrom] using ha

/-- The numbers of the listed configurations that accept. -/
def acceptingNumbers (A : Automaton) (configurations : List Configuration) : List State :=
  (configurations.filter A.isAccepting).map (number configurations)

end Automaton

/-- A deterministic automaton together with the configuration that each of its states stands
for. -/
structure Determinized where
  automaton : Automaton
  configurations : List Configuration

/-- The deterministic automaton of the reachable configurations. Its start state is 0. -/
def Automaton.determinize (A : Automaton) : Determinized :=
  let configurations := A.exploration.found
  { configurations := configurations
    automaton :=
      { alphabet := A.alphabet
        start := 0
        accepting := SortedSet.ofList (A.acceptingNumbers configurations)
        relation := .ofList (A.configurationEdges configurations)
        letters_known := fun _ h =>
          configurationEdges_readsFrom (TransitionRelation.mem_ofList.mp h) } }

/-!
Determinizing, carried out on state numbers. Configurations get numbers as they are met, and what
waits to be visited is a stack of numbers; the configuration of a number is looked up in a table
whenever a letter is read. The steps of such a construction can fail, and it need not come to an
end: that neither happens is a theorem about it.
-/

/-- The states that a run of an automaton can be in: the start state and those with edges. -/
def Automaton.runStates (A : Automaton) : SortedSet State := A.relation.states.insert A.start

/-- How far a construction has come. -/
structure Construction where
  /-- The number of each configuration that was met. -/
  numbers : KeyedSet (Prod.fst : Configuration × State → Configuration)
  /-- The configurations that were met, in this order. -/
  configurations : List Configuration
  /-- The numbers of those that were not visited yet, the next one first. -/
  pending : List State
  edges : List Edge

namespace Construction

/-- Nothing but the initial configuration was met. -/
def start (A : Automaton) : Construction where
  numbers := KeyedSet.insert ∅ (A.initial, 0)
  configurations := [A.initial]
  pending := [0]
  edges := []

/-- The number of a configuration. One that is met for the first time gets the next number, as far
as numbers have room for it, and has to be visited. -/
def meet (C : Construction) (next : Configuration) : State × Construction :=
  match C.numbers.find? next with
  | some (_, known) => (known, C)
  | none =>
      let fresh := UInt32.ofNat C.configurations.length
      (fresh, { C with
        numbers := C.numbers.insert (next, fresh)
        configurations := C.configurations ++ [next]
        pending := fresh :: C.pending })

/-- Reads a letter in the configuration with a number. This fails if no configuration stands at
that place. -/
def read (A : Automaton) (current : State) (C : Construction) (a : Letter) :
    Option Construction :=
  C.configurations[current.toNat]?.map fun states =>
    let next := A.relation.successor states a
    if next.isEmpty then C
    else
      let (target, D) := C.meet next
      { D with edges := D.edges ++ [⟨current, target, some a⟩] }

/-- Reads every letter of the alphabet in the configuration with a number. -/
def visit (A : Automaton) (current : State) (C : Construction) : Option Construction :=
  A.alphabet.toList.foldlM (read A current) C

/-- A construction that goes on until nothing is pending, with the number of visits this takes and
what it comes to. -/
inductive Finishes (A : Automaton) : Construction → Nat → Construction → Prop
  | done {C : Construction} : C.pending = [] → Finishes A C 0 C
  | visit {C D E : Construction} {current : State} {rest : List State} {n : Nat} :
      C.pending = current :: rest →
      Construction.visit A current { C with pending := rest } = some D →
      Finishes A D n E → Finishes A C (n + 1) E

/-- The places of the configurations that accept, as far as numbers have room for them. -/
def accepting (C : Construction) (A : Automaton) : List State :=
  (C.configurations.zipIdx.filter fun (states, _) => A.isAccepting states).map fun (_, i) =>
    UInt32.ofNat i

/-- Puts an automaton with start state 0 together from what was met. -/
def assemble (C : Construction) (A : Automaton) : Except AutomatonFault Automaton :=
  Automaton.build A.alphabet 0 (C.accepting A) (.ofList C.edges)

end Construction

end FormalLanguage
