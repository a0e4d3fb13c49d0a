import FormalLanguage.Automaton.Determinized
import FormalLanguage.Automaton.Relation
import FormalLanguage.Proofs.Closures
import Mathlib.Data.List.Induction
import Mathlib.Tactic

/-!
The configurations of an automaton: how a word leads from one to the next, and which of them a
search from the initial configuration meets. A configuration without states stays without states,
and a letter outside the alphabet leaves none, so neither has to be looked at in a search for
configurations that have any.
-/

namespace FormalLanguage

namespace Automaton

theorem isAccepting_iff {A : Automaton} {states : Configuration} :
    A.isAccepting states = true ↔ ∃ q ∈ states, q ∈ A.accepting := by
  simp [isAccepting]

theorem initial_ne_empty (A : Automaton) : A.initial ≠ ∅ := by
  intro hempty
  have hstart : A.start ∈ A.initial :=
    A.relation.subset_epsilonClosure _ _ (by simp)
  simp [hempty] at hstart

/-- No edge reads a letter outside the alphabet, so such a letter ends every run. -/
theorem successor_foreign (A : Automaton) {a : Letter} (ha : a ∉ A.alphabet)
    (states : Configuration) : A.relation.successor states a = ∅ := by
  apply TransitionRelation.successor_eq_empty
  intro p q hedge
  have hknown := A.letters_known _ hedge
  simp only [Edge.readsFrom, decide_eq_true_eq] at hknown
  exact ha hknown

theorem known_of_successor {A : Automaton} {a : Letter} {states : Configuration}
    (hne : A.relation.successor states a ≠ ∅) : a ∈ A.alphabet := by
  by_contra hforeign
  exact hne (A.successor_foreign hforeign states)

/-- Stopping early changes nothing: a run takes one successor after the other. -/
theorem runFrom_eq_foldl (A : Automaton) (states : Configuration) (w : Word) :
    A.runFrom states w = w.foldl A.relation.successor states := by
  induction w generalizing states with
  | nil => rfl
  | cons a w ih =>
      rw [runFrom, List.foldl_cons]
      split
      next hempty =>
        rw [SortedSet.isEmpty_iff.mp hempty, A.relation.successor_empty, ← ih]
        cases w <;> rfl
      next => exact ih _

theorem run_append (A : Automaton) (v w : Word) : A.run (v ++ w) = A.runFrom (A.run v) w := by
  rw [run, run, runFrom_eq_foldl, runFrom_eq_foldl, runFrom_eq_foldl, List.foldl_append]

theorem run_concat (A : Automaton) (w : Word) (a : Letter) :
    A.run (w ++ [a]) = A.relation.successor (A.run w) a := by
  rw [run_append, runFrom_eq_foldl]
  rfl

theorem adjacent_iff {A : Automaton} {S T : Configuration} :
    A.configurationGraph.Adjacent S T ↔
      T ≠ ∅ ∧ ∃ a ∈ A.alphabet, A.relation.successor S a = T := by
  change T ∈ List.filter _ (A.alphabet.toList.map (A.relation.successor S)) ↔ _
  rw [List.mem_filter, List.mem_map, and_comm, Bool.not_eq_true',
    SortedSet.isEmpty_eq_false_iff]
  rfl

/-- The search through the configurations meets exactly those with states that some word over the
alphabet leads to. -/
theorem mem_exploration_iff (A : Automaton) (S : Configuration) :
    S ∈ A.exploration.found ↔
      S ≠ ∅ ∧ ∃ w : Word, (∀ a ∈ w, a ∈ A.alphabet) ∧ A.run w = S := by
  rw [exploration, FiniteGraph.mem_found_explore_iff _ (.refl _)]
  constructor
  · rintro ⟨I, hI, hreach⟩
    obtain rfl := List.mem_singleton.mp hI
    induction hreach with
    | refl => exact ⟨A.initial_ne_empty, [], by simp, rfl⟩
    | tail _ hstep ih =>
        obtain ⟨_, w, hw, rfl⟩ := ih
        obtain ⟨hne, a, ha, hnext⟩ := adjacent_iff.mp hstep
        have hover : ∀ b ∈ w ++ [a], b ∈ A.alphabet :=
          List.forall_mem_append.mpr ⟨hw, List.forall_mem_singleton.mpr ha⟩
        exact ⟨hne, w ++ [a], hover, (A.run_concat w a).trans hnext⟩
  · rintro ⟨hne, w, hw, rfl⟩
    refine ⟨A.initial, by simp, ?_⟩
    induction w using List.reverseRecOn with
    | nil => exact .refl
    | append_singleton w a ih =>
        rw [run_concat] at hne ⊢
        -- A configuration with states comes from one with states.
        have hbefore : A.run w ≠ ∅ := by
          intro hempty
          rw [hempty, A.relation.successor_empty] at hne
          exact hne rfl
        obtain ⟨hw, ha⟩ := List.forall_mem_append.mp hw
        have hletter : a ∈ A.alphabet := ha a (by simp)
        exact (ih hw hbefore).tail (adjacent_iff.mpr ⟨hne, a, hletter, rfl⟩)

theorem nodup_exploration (A : Automaton) : A.exploration.found.Nodup :=
  A.configurationGraph.nodup_found_explore _ _ (List.nodup_singleton _)

theorem exploration_head (A : Automaton) : A.exploration.found[0]? = some A.initial := by
  obtain ⟨met, hfound, _⟩ := A.configurationGraph.explore_appends [A.initial] [A.initial]
  rw [exploration, hfound]
  rfl

theorem successor_mem_exploration {A : Automaton} {S : Configuration}
    (hS : S ∈ A.exploration.found) {a : Letter} (hne : A.relation.successor S a ≠ ∅) :
    A.relation.successor S a ∈ A.exploration.found := by
  obtain ⟨_, w, hw, rfl⟩ := (A.mem_exploration_iff S).mp hS
  have hover : ∀ b ∈ w ++ [a], b ∈ A.alphabet :=
    List.forall_mem_append.mpr ⟨hw, List.forall_mem_singleton.mpr (known_of_successor hne)⟩
  exact (A.mem_exploration_iff _).mpr ⟨hne, w ++ [a], hover, A.run_concat w a⟩

/-- Every configuration but the first is reached from one that was met before it. -/
theorem exploration_discovered (A : Automaton) {i : Nat} {T : Configuration}
    (hT : A.exploration.found[i]? = some T) (hi : 0 < i) :
    ∃ j < i, ∃ S, A.exploration.found[j]? = some S ∧
      ∃ a ∈ A.alphabet, A.relation.successor S a = T := by
  obtain ⟨j, hj, S, hS, hstep⟩ := A.configurationGraph.explore_discovered [A.initial]
    [A.initial] (fun _ h => h) i T hT hi
  exact ⟨j, hj, S, hS, (adjacent_iff.mp hstep).2⟩

end Automaton

/-!
Simulation and paths. A path can be cut where simulation pauses: a word without letters is spelled
by the chains of epsilon edges, and a longer one by such a chain, an edge that reads its first
letter, and a path for the other letters. So the configuration after a word holds the states in
which the paths that spell the word end, and no others.
-/

namespace Path

variable {f : TransitionRelation} {p q r : State} {w : Word}

/-- Epsilon edges in front of a path leave its word as it is. -/
theorem skip_chain (hchain : Relation.ReflTransGen f.EpsilonStep p q) (hpath : Path f q w r) :
    Path f p w r := by
  induction hchain using Relation.ReflTransGen.head_induction_on with
  | refl => exact hpath
  | head hstep _ ih => exact .skip hstep ih

theorem nil_iff : Path f p [] q ↔ Relation.ReflTransGen f.EpsilonStep p q := by
  constructor
  · intro hpath
    generalize hw : ([] : Word) = w at hpath
    induction hpath with
    | stay => exact .refl
    | skip hedge _ ih => exact .head hedge (ih hw)
    | read => cases hw
  · exact fun hchain => skip_chain hchain (.stay q)

theorem cons_iff {a : Letter} :
    Path f p (a :: w) q ↔
      ∃ r s, Relation.ReflTransGen f.EpsilonStep p r ∧ ⟨r, s, some a⟩ ∈ f ∧ Path f s w q := by
  constructor
  · intro hpath
    generalize hv : a :: w = v at hpath
    induction hpath with
    | stay => cases hv
    | skip hedge _ ih =>
        obtain ⟨r, s, hchain, hread, hrest⟩ := ih hv
        exact ⟨r, s, .head hedge hchain, hread, hrest⟩
    | @read p s _ _ _ hread hrest =>
        obtain ⟨rfl, rfl⟩ := List.cons.inj hv
        exact ⟨p, s, .refl, hread, hrest⟩
  · rintro ⟨r, s, hchain, hread, hrest⟩
    exact skip_chain hchain (.read hread hrest)

end Path

/-- Reading a word from a closed configuration leads where paths from the states before closing
lead. The first letter is read from the closure, so the chain in front of its edge is taken into
account there. -/
theorem TransitionRelation.mem_foldl_successor_iff {f : TransitionRelation}
    (states : Configuration) (w : Word) (q : State) :
    q ∈ w.foldl f.successor (f.epsilonClosure states) ↔ ∃ p ∈ states, Path f p w q := by
  induction w generalizing states with
  | nil => simp only [List.foldl_nil, mem_epsilonClosure, Path.nil_iff]
  | cons a w ih =>
      rw [List.foldl_cons, successor_eq_epsilonClosure_move, ih]
      simp only [mem_move, mem_epsilonClosure, Path.cons_iff]
      constructor
      · rintro ⟨s, ⟨r, ⟨p, hp, hchain⟩, hread⟩, hrest⟩
        exact ⟨p, hp, r, s, hchain, hread, hrest⟩
      · rintro ⟨p, hp, r, s, hchain, hread, hrest⟩
        exact ⟨s, ⟨r, ⟨p, hp, hchain⟩, hread⟩, hrest⟩

namespace Automaton

theorem mem_run_iff {A : Automaton} {w : Word} {q : State} :
    q ∈ A.run w ↔ Path A.relation A.start w q := by
  rw [run, runFrom_eq_foldl, initial, TransitionRelation.mem_foldl_successor_iff]
  simp

/-- Simulation is path semantics. The configuration after a word holds exactly the states that a
path from the start state spelling the word ends in, so a word is accepted exactly when such a path
ends in an accepting state. The letter without characters is a letter like any other, which an
edge has to read. Stopping as soon as no state is left gives what reading to the end would. -/
theorem run_iff_path (A : Automaton) :
    (∀ (w : Word) (q : State), q ∈ A.run w ↔ Path A.relation A.start w q) ∧
    (∀ w : Word, A.accepts w = true ↔ ∃ q ∈ A.accepting, Path A.relation A.start w q) ∧
    (∀ w : Word, A.run w = w.foldl A.relation.successor A.initial) := by
  refine ⟨fun w q => mem_run_iff, ?_, fun w => A.runFrom_eq_foldl A.initial w⟩
  intro w
  rw [accepts, isAccepting_iff]
  simp only [mem_run_iff]
  exact exists_congr fun q => and_comm

end Automaton

end FormalLanguage
