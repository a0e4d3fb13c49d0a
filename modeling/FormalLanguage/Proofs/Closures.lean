import FormalLanguage.Proofs.Outgoing
import FormalLanguage.Proofs.Search

/-!
What closing a configuration and reading a letter come to, said by edges alone. Closing adds the
states at the ends of chains of epsilon edges, and is the least way to leave no epsilon edge
behind; reading a letter leads along one edge with that label and then along such a chain. The
shortcuts for configurations without states and for relations without epsilon edges give the same
as the general rule, and the search behind this rule visits no state twice.
-/

namespace FormalLanguage.TransitionRelation

variable {f : TransitionRelation} {states : Configuration} {a : Letter}

theorem closesTrivially_of_no_epsilon (hnone : f.epsilon = ∅) (states : Configuration) :
    f.closesTrivially states = true := by
  simp [closesTrivially, SortedSet.isEmpty_iff.mpr hnone]

theorem epsilonClosure_of_no_epsilon (hnone : f.epsilon = ∅) (states : Configuration) :
    f.epsilonClosure states = states := by
  rw [epsilonClosure, if_pos (closesTrivially_of_no_epsilon hnone states)]

def EpsilonStep (f : TransitionRelation) (p q : State) : Prop := ⟨p, q, none⟩ ∈ f

theorem adjacent_edgeGraph_epsilon (f : TransitionRelation) :
    (edgeGraph f.epsilon).Adjacent = f.EpsilonStep := by
  funext p q
  apply propext
  change q ∈ (outgoing p f.epsilon).toList.map Edge.target ↔ _
  simp only [List.mem_map, SortedSet.mem_toList, mem_outgoing, mem_epsilon]
  constructor
  · rintro ⟨⟨_, _, _⟩, ⟨⟨hedge, rfl⟩, rfl⟩, rfl⟩
    exact hedge
  · exact fun hedge => ⟨⟨p, q, none⟩, ⟨⟨hedge, rfl⟩, rfl⟩, rfl⟩

@[simp] theorem mem_epsilonClosure {q : State} :
    q ∈ f.epsilonClosure states ↔ ∃ p ∈ states, Relation.ReflTransGen f.EpsilonStep p q := by
  unfold epsilonClosure
  split
  next htrivial =>
    constructor
    · exact fun hq => ⟨q, hq, .refl⟩
    · rintro ⟨p, hp, hchain⟩
      rcases hchain.cases_head with rfl | ⟨r, hstep, _⟩
      · exact hp
      -- A state to start from and an edge to follow rule the shortcut out.
      · exfalso
        rcases Bool.or_eq_true_iff.mp htrivial with hstates | hedges
        · simp [SortedSet.isEmpty_iff.mp hstates] at hp
        · have hedge : ⟨p, r, none⟩ ∈ f.epsilon := mem_epsilon.mpr ⟨hstep, rfl⟩
          simp [SortedSet.isEmpty_iff.mp hedges] at hedge
  next =>
    rw [SortedSet.mem_ofList, FiniteGraph.mem_found_explore_iff _ (.refl _),
      adjacent_edgeGraph_epsilon]
    rfl

theorem subset_epsilonClosure (f : TransitionRelation) (states : Configuration) :
    states ⊆ f.epsilonClosure states :=
  fun q hq => mem_epsilonClosure.mpr ⟨q, hq, .refl⟩

theorem successor_empty (f : TransitionRelation) (a : Letter) : f.successor ∅ a = ∅ := rfl

theorem successor_eq_epsilonClosure_move (f : TransitionRelation) (states : Configuration)
    (a : Letter) : f.successor states a = f.epsilonClosure (f.move states a) := by
  unfold successor
  split
  next hempty =>
    rw [SortedSet.isEmpty_iff.mp hempty]
    rfl
  next => rfl

@[simp] theorem mem_successor {q : State} :
    q ∈ f.successor states a ↔
      ∃ p ∈ states, ∃ r, ⟨p, r, some a⟩ ∈ f ∧ Relation.ReflTransGen f.EpsilonStep r q := by
  rw [successor_eq_epsilonClosure_move, mem_epsilonClosure]
  simp only [mem_move]
  constructor
  · rintro ⟨r, ⟨p, hp, hread⟩, hchain⟩
    exact ⟨p, hp, r, hread, hchain⟩
  · rintro ⟨p, hp, r, hread, hchain⟩
    exact ⟨r, ⟨p, hp, hread⟩, hchain⟩

theorem successor_eq_empty (hunread : ∀ p q, (⟨p, q, some a⟩ : Edge) ∉ f)
    (states : Configuration) : f.successor states a = ∅ := by
  apply SortedSet.eq_empty_of_forall_not_mem
  intro q hq
  obtain ⟨p, _, r, hread, _⟩ := mem_successor.mp hq
  exact hunread p r hread

/-- No epsilon edge leads out of the configuration. -/
def EpsilonClosed (f : TransitionRelation) (states : Configuration) : Prop :=
  ∀ p ∈ states, ∀ q, f.EpsilonStep p q → q ∈ states

theorem epsilonClosed_epsilonClosure (f : TransitionRelation) (states : Configuration) :
    f.EpsilonClosed (f.epsilonClosure states) := by
  intro p hp q hstep
  obtain ⟨r, hr, hchain⟩ := mem_epsilonClosure.mp hp
  exact mem_epsilonClosure.mpr ⟨r, hr, hchain.tail hstep⟩

theorem epsilonClosure_subset {larger : Configuration} (hstates : states ⊆ larger)
    (hclosed : f.EpsilonClosed larger) : f.epsilonClosure states ⊆ larger := by
  intro q hq
  obtain ⟨p, hp, hchain⟩ := mem_epsilonClosure.mp hq
  induction hchain with
  | refl => exact hstates p hp
  | tail hchain hstep ih =>
      exact hclosed _ (ih (mem_epsilonClosure.mpr ⟨p, hp, hchain⟩)) _ hstep

/-- The order in which the states of the configuration are put on the stack does not matter for
what the search finds. -/
theorem found_explore_epsilon_perm {stack : List State} (hstack : stack.Perm states.toList) :
    ((edgeGraph f.epsilon).explore states.toList stack).found.Perm
      (f.epsilonClosure states).toList := by
  have hdistinct := (edgeGraph f.epsilon).nodup_found_explore states.toList stack
    states.nodup_toList
  refine (List.perm_ext_iff_of_nodup hdistinct (f.epsilonClosure states).nodup_toList).mpr ?_
  intro q
  rw [FiniteGraph.mem_found_explore_iff _ hstack, adjacent_edgeGraph_epsilon,
    SortedSet.mem_toList, mem_epsilonClosure]
  rfl

/-- Closing a configuration and reading a letter are exact. From whatever order of its states on
the stack, the search behind closing ends after visiting each state of the closure once and no
other, and these are the states it finds. The closure holds the ends of all chains of epsilon edges
from the configuration; so it is the least configuration around this one that no epsilon edge
leads out of, also where a shortcut is taken. A letter leads to the ends of all chains of epsilon
edges behind an edge with that label. -/
theorem epsilonClosure_exact (f : TransitionRelation) (states : Configuration) (a : Letter) :
    let closure := f.epsilonClosure states
    (∀ stack : List State, stack.Perm states.toList →
      let search := (edgeGraph f.epsilon).explore states.toList stack
      search.visited.Perm closure.toList ∧ search.found.Perm closure.toList) ∧
    (∀ q, q ∈ closure ↔ ∃ p ∈ states, Relation.ReflTransGen f.EpsilonStep p q) ∧
    states ⊆ closure ∧ f.EpsilonClosed closure ∧
    (∀ larger : Configuration, states ⊆ larger → f.EpsilonClosed larger → closure ⊆ larger) ∧
    (∀ q, q ∈ f.successor states a ↔
      ∃ p ∈ states, ∃ r, ⟨p, r, some a⟩ ∈ f ∧ Relation.ReflTransGen f.EpsilonStep r q) := by
  intro closure
  refine ⟨?_, fun q => mem_epsilonClosure, f.subset_epsilonClosure states,
    f.epsilonClosed_epsilonClosure states, fun larger => epsilonClosure_subset,
    fun q => mem_successor⟩
  intro stack hstack search
  have hfound : search.found.Perm closure.toList := found_explore_epsilon_perm hstack
  exact ⟨(FiniteGraph.visited_explore_perm _ hstack).trans hfound, hfound⟩

/-- Three states in a ring of epsilon edges with a way out, and an edge back that reads the letter
without characters. -/
def ringWithExit : TransitionRelation :=
  .ofList [⟨1, 2, none⟩, ⟨2, 3, none⟩, ⟨3, 1, none⟩, ⟨3, 4, none⟩, ⟨4, 1, some ""⟩]

/-- Entered at its second state, the ring is gone round once, whichever of the two states lies on
top of the stack; and what the ring leads to stays inside every closed configuration around it. -/
theorem epsilonClosure_exact_ringWithExit :
    let states : Configuration := SortedSet.ofList [2, 9]
    let larger : Configuration := SortedSet.ofList [1, 2, 3, 4, 9]
    [9, 2].Perm states.toList ∧
    ((edgeGraph ringWithExit.epsilon).explore states.toList [9, 2]).visited.Perm
      (ringWithExit.epsilonClosure states).toList ∧
    states ⊆ larger ∧ ringWithExit.EpsilonClosed larger ∧
    ringWithExit.epsilonClosure states ⊆ larger := by
  intro states larger
  have hstack : [9, 2].Perm states.toList := by decide +kernel
  have hstates : states ⊆ larger := by decide +kernel
  have hclosed : ringWithExit.EpsilonClosed larger := by
    intro p _ q hstep
    have htargets : ∀ e ∈ ringWithExit.edges.toList, e.target ∈ larger := by decide +kernel
    exact htargets _ hstep
  obtain ⟨hsearch, _, _, _, hleast, _⟩ := epsilonClosure_exact ringWithExit states ""
  exact ⟨hstack, (hsearch [9, 2] hstack).1, hstates, hclosed, hleast larger hstates hclosed⟩

end FormalLanguage.TransitionRelation
