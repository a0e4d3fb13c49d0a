import FormalLanguage.Automaton.Edge
import FormalLanguage.Iteration.Exploration
import FormalLanguage.Order.KeyedSet

/-!
The transition relation of an automaton. It is one finite set of edges; the labelled and the
epsilon edges are two views of it that share no edge and together list them all.
-/

namespace FormalLanguage

/-- A finite set of edges. Edges supplied twice count once. -/
structure TransitionRelation where
  edges : SortedSet Edge
deriving DecidableEq

namespace TransitionRelation

def ofList (es : List Edge) : TransitionRelation := ⟨SortedSet.ofList es⟩

instance : EmptyCollection TransitionRelation := ⟨⟨∅⟩⟩

instance : Membership Edge TransitionRelation := ⟨fun f e => e ∈ f.edges⟩

instance (f : TransitionRelation) (e : Edge) : Decidable (e ∈ f) :=
  inferInstanceAs (Decidable (e ∈ f.edges))

@[simp] theorem mem_edges {f : TransitionRelation} {e : Edge} : e ∈ f.edges ↔ e ∈ f := Iff.rfl

@[simp] theorem mem_ofList {es : List Edge} {e : Edge} : e ∈ ofList es ↔ e ∈ es :=
  SortedSet.mem_ofList

/-- The edges that read a letter. -/
def labeled (f : TransitionRelation) : SortedSet Edge := f.edges.filter fun e => !e.isEpsilon

/-- The edges that read nothing. -/
def epsilon (f : TransitionRelation) : SortedSet Edge := f.edges.filter Edge.isEpsilon

/-- Every edge, the labelled ones first. -/
def all (f : TransitionRelation) : List Edge := f.labeled.toList ++ f.epsilon.toList

section

variable {f : TransitionRelation} {e : Edge}

@[simp] theorem mem_labeled : e ∈ f.labeled ↔ e ∈ f ∧ e.label ≠ none := by
  simp [labeled]

@[simp] theorem mem_epsilon : e ∈ f.epsilon ↔ e ∈ f ∧ e.label = none := by
  simp [epsilon]

@[simp] theorem mem_all : e ∈ f.all ↔ e ∈ f := by
  by_cases hlabel : e.label = none <;> simp [all, hlabel]

end

def size (f : TransitionRelation) : Nat := f.labeled.size + f.epsilon.size

def isEmpty (f : TransitionRelation) : Bool := f.labeled.isEmpty && f.epsilon.isEmpty

/-- Every state that some edge mentions. -/
def states (f : TransitionRelation) : SortedSet State :=
  SortedSet.ofList (f.all.flatMap fun e => [e.source, e.target])

/-- Every letter that some edge reads. -/
def letters (f : TransitionRelation) : Alphabet :=
  SortedSet.ofList (f.labeled.toList.filterMap Edge.label)

/-- The edges that satisfy a pattern, in the order of `all`. -/
def matching (f : TransitionRelation) (p : EdgePattern) : List Edge := f.all.filter p.admits

/-- Whether some edge agrees with every field that is given. -/
def hasEdge (f : TransitionRelation) (source target : Option State)
    (label : Option Letter) : Bool :=
  !(f.matching (.ofFields source target label)).isEmpty

/-- The first edge in the order of `all` whose source and label were both used before, behind
the edge that used them first. -/
def conflict? (f : TransitionRelation) : Option (Edge × Edge) :=
  KeyedSet.firstCollision (∅ : KeyedSet Edge.key) f.all

/-- No epsilon edge, and no two edges with the same source and label. -/
def isDeterministic (f : TransitionRelation) : Bool := f.epsilon.isEmpty && f.conflict?.isNone

end TransitionRelation

/-!
What a transition relation means, said by paths alone and without any algorithm.
-/

/-- A path from the first state to the last whose labels, epsilon edges left out, spell the
word. -/
inductive Path (f : TransitionRelation) : State → Word → State → Prop
  | stay (q : State) : Path f q [] q
  | skip {p q r : State} {w : Word} :
      ⟨p, q, none⟩ ∈ f → Path f q w r → Path f p w r
  | read {p q r : State} {a : Letter} {w : Word} :
      ⟨p, q, some a⟩ ∈ f → Path f q w r → Path f p (a :: w) r

/-!
The states an automaton can be in at once, and how they change: by following epsilon edges as far
as they lead, by reading one letter, and by both in turn. Only states of the relation are left
once a letter has been read.
-/

/-- The states an automaton may be in at one moment. -/
abbrev Configuration := SortedSet State

/-- The edges of an ordered set that leave a state. Edges are ordered by source first, so they
stand together, from the least conceivable edge out of that state on. -/
def outgoing (q : State) (edges : SortedSet Edge) : SortedSet Edge :=
  (edges.startingAt ⟨q, 0, none⟩).whileTrue fun e => e.source == q

theorem mem_of_mem_outgoing {q : State} {edges : SortedSet Edge} {e : Edge}
    (h : e ∈ outgoing q edges) : e ∈ edges :=
  (List.dropWhile_sublist _).subset ((List.takeWhile_sublist _).subset h)

/-- The graph on states whose steps are the given edges, whatever they read. -/
def edgeGraph (edges : SortedSet Edge) : FiniteGraph State where
  next q := (outgoing q edges).toList.map Edge.target
  vertices _ := edges.toList.map Edge.target
  next_mem h := by
    obtain ⟨e, he, rfl⟩ := List.mem_map.mp h
    exact List.mem_map_of_mem (mem_of_mem_outgoing he)

namespace TransitionRelation

/-- Where the states of a configuration can go by reading one letter. -/
def move (f : TransitionRelation) (states : Configuration) (a : Letter) : Configuration :=
  let edges := f.labeled
  SortedSet.ofList (states.toList.flatMap fun q =>
    ((outgoing q edges).toList.filter fun e => e.label == some a).map Edge.target)

/-- Whether epsilon edges have nothing to add, because there is no state or no such edge. -/
def closesTrivially (f : TransitionRelation) (states : Configuration) : Bool :=
  states.isEmpty || f.epsilon.isEmpty

/-- The states of a configuration and all that can be reached from them by epsilon edges. -/
def epsilonClosure (f : TransitionRelation) (states : Configuration) : Configuration :=
  if f.closesTrivially states then states
  else SortedSet.ofList ((edgeGraph f.epsilon).explore states.toList states.toList).found

/-- The configuration after one more letter: first the letter is read, then epsilon edges are
followed. -/
def successor (f : TransitionRelation) (states : Configuration) (a : Letter) : Configuration :=
  if states.isEmpty then ∅ else f.epsilonClosure (f.move states a)

/-- The configuration after each letter of a word. -/
def walk (f : TransitionRelation) (states : Configuration) : Word → List Configuration
  | [] => []
  | a :: w =>
      let next := f.successor states a
      next :: walk f next w

theorem source_mem_states {f : TransitionRelation} {e : Edge} (h : e ∈ f) :
    e.source ∈ f.states := by
  simpa [states] using ⟨e, h, Or.inl rfl⟩

theorem target_mem_states {f : TransitionRelation} {e : Edge} (h : e ∈ f) :
    e.target ∈ f.states := by
  simpa [states] using ⟨e, h, Or.inr rfl⟩

theorem move_subset_states (f : TransitionRelation) (states : Configuration) (a : Letter) :
    f.move states a ⊆ f.states := by
  intro q hq
  obtain ⟨p, _, hq⟩ := List.mem_flatMap.mp (SortedSet.mem_ofList.mp hq)
  obtain ⟨e, he, rfl⟩ := List.mem_map.mp hq
  have hedge := mem_of_mem_outgoing (List.mem_filter.mp he).1
  exact target_mem_states (mem_labeled.mp hedge).1

theorem epsilonClosure_subset_states {f : TransitionRelation} {states : Configuration}
    (h : states ⊆ f.states) : f.epsilonClosure states ⊆ f.states := by
  unfold epsilonClosure
  split
  · exact h
  · intro q hq
    rcases FiniteGraph.found_explore_subset _ _ _ q (SortedSet.mem_ofList.mp hq) with hq | hq
    · exact h q hq
    · obtain ⟨e, he, rfl⟩ := List.mem_map.mp hq
      exact target_mem_states (mem_epsilon.mp he).1

theorem successor_subset_states (f : TransitionRelation) (states : Configuration) (a : Letter) :
    f.successor states a ⊆ f.states := by
  unfold successor
  split
  · exact fun q hq => absurd hq (SortedSet.not_mem_empty q)
  · exact epsilonClosure_subset_states (move_subset_states f states a)

end TransitionRelation

/-!
Edges as they are looked up. An edge can only be among those of its kind, so only these are gone
through for it; a pattern for some given fields is put together demand by demand; and the states
that a letter leads to are collected edge by edge. What the demands of a pattern and the order of
edges come to is said here once more without the comparisons that are made. That all of this agrees
with the relation itself is a theorem about it.
-/

/-- The order of edges: by source, then by target, then epsilon edges before labelled ones, and
those by letter. -/
inductive Edge.Before : Edge → Edge → Prop
  | bySource {d e : Edge} : d.source < e.source → Before d e
  | byTarget {d e : Edge} : d.source = e.source → d.target < e.target → Before d e
  | byKind (q r : State) (a : Letter) : Before ⟨q, r, none⟩ ⟨q, r, some a⟩
  | byLetter (q r : State) {a b : Letter} : a < b → Before ⟨q, r, some a⟩ ⟨q, r, some b⟩

namespace PatternSetting

/-- The source that a setting demands. -/
def source? : PatternSetting → Option State
  | .source q => some q
  | _ => none

/-- The target that a setting demands. -/
def target? : PatternSetting → Option State
  | .target q => some q
  | _ => none

/-- The label that a setting demands, which is to have none if it asks for an epsilon edge. -/
def label? : PatternSetting → Option (Option Letter)
  | .label a => some (some a)
  | .epsilon => some none
  | _ => none

/-- A setting for each field that is given. -/
def ofFields (source target : Option State) (label : Option Letter) : List PatternSetting :=
  (source.map .source).toList ++ (target.map .target).toList ++ (label.map .label).toList

end PatternSetting

/-- An edge meets a sequence of settings if it has the source, the target and the label that were
demanded last, as far as they were. -/
def Edge.Meets (e : Edge) (settings : List PatternSetting) : Prop :=
  (∀ q ∈ (settings.filterMap PatternSetting.source?).getLast?, e.source = q) ∧
  (∀ q ∈ (settings.filterMap PatternSetting.target?).getLast?, e.target = q) ∧
  ∀ l ∈ (settings.filterMap PatternSetting.label?).getLast?, e.label = l

-- Named, because going through all states is an instance too.
instance (e : Edge) (settings : List PatternSetting) : Decidable (e.Meets settings) :=
  @instDecidableAnd _ _ (Option.decidableForallMem _)
    (@instDecidableAnd _ _ (Option.decidableForallMem _) (Option.decidableForallMem _))

namespace TransitionRelation

/-- Whether an edge is listed, looked up among the edges of its kind. -/
def contains (f : TransitionRelation) (e : Edge) : Bool :=
  if e.isEpsilon then decide (e ∈ f.epsilon) else decide (e ∈ f.labeled)

/-- Adds the target of an edge to what was found, if the edge reads the letter. -/
def noteTarget (a : Letter) (found : Configuration) (e : Edge) : Configuration :=
  if e.label = some a then found.insert e.target else found

/-- Where the states of a configuration can go by reading one letter, collected state by state and
edge by edge. -/
def collect (f : TransitionRelation) (states : Configuration) (a : Letter) : Configuration :=
  states.toList.foldl (fun found q => (outgoing q f.labeled).toList.foldl (noteTarget a) found) ∅

/-- The same, found by going through all labelled edges. -/
def scan (f : TransitionRelation) (states : Configuration) (a : Letter) : Configuration :=
  SortedSet.ofList ((f.labeled.toList.filter fun e =>
    decide (e.source ∈ states ∧ e.label = some a)).map Edge.target)

end TransitionRelation

end FormalLanguage
