import FormalLanguage.Proofs.Configurations
import FormalLanguage.Proofs.Search
import FormalLanguage.Proofs.SubsetConstruction

/-!
Automata that run alike. Of an automaton, determinizing sees its alphabet, which words leave no
state, which are accepted, and which two words lead to one configuration. Automata that agree on
these have the same determinized automaton, state numbers included, because the searches through
their configurations go side by side. What the configurations consist of plays no part.
-/

namespace FormalLanguage

namespace Automaton

/-- No word tells two automata apart by the configuration it leads to, apart from what the states
are called. -/
structure RunAlike (A B : Automaton) : Prop where
  same_alphabet : A.alphabet = B.alphabet
  same_dead : ∀ w, A.run w = ∅ ↔ B.run w = ∅
  same_accepted : ∀ w, A.accepts w = B.accepts w
  same_merged : ∀ v w, A.run v = A.run w ↔ B.run v = B.run w

/-- Some word leads the first automaton to the first configuration and the second automaton to the
second. -/
def ReachedTogether (A B : Automaton) (S T : Configuration) : Prop :=
  ∃ w, A.run w = S ∧ B.run w = T

variable {A B : Automaton} {S T : Configuration}

theorem ReachedTogether.initial (A B : Automaton) : ReachedTogether A B A.initial B.initial :=
  ⟨[], rfl, rfl⟩

theorem ReachedTogether.successor (h : ReachedTogether A B S T) (a : Letter) :
    ReachedTogether A B (A.relation.successor S a) (B.relation.successor T a) := by
  obtain ⟨w, rfl, rfl⟩ := h
  exact ⟨w ++ [a], A.run_concat w a, B.run_concat w a⟩

namespace RunAlike

theorem biUnique (h : RunAlike A B) : Relator.BiUnique (ReachedTogether A B) := by
  constructor
  · rintro _ _ _ ⟨v, rfl, hv⟩ ⟨w, rfl, hw⟩
    exact (h.same_merged v w).mpr (hv.trans hw.symm)
  · rintro _ _ _ ⟨v, hv, rfl⟩ ⟨w, hw, rfl⟩
    exact (h.same_merged v w).mp (hv.trans hw.symm)

theorem isEmpty_eq (h : RunAlike A B) (hST : ReachedTogether A B S T) :
    S.isEmpty = T.isEmpty := by
  obtain ⟨w, rfl, rfl⟩ := hST
  rw [Bool.eq_iff_iff, SortedSet.isEmpty_iff, SortedSet.isEmpty_iff]
  exact h.same_dead w

theorem isAccepting_eq (h : RunAlike A B) (hST : ReachedTogether A B S T) :
    A.isAccepting S = B.isAccepting T := by
  obtain ⟨w, rfl, rfl⟩ := hST
  exact h.same_accepted w

theorem next_paired (h : RunAlike A B) (hST : ReachedTogether A B S T) :
    List.Forall₂ (ReachedTogether A B) (A.configurationGraph.next S)
      (B.configurationGraph.next T) := by
  have hsuccessors : List.Forall₂ (ReachedTogether A B)
      (A.alphabet.toList.map (A.relation.successor S))
      (B.alphabet.toList.map (B.relation.successor T)) := by
    rw [h.same_alphabet, List.forall₂_map_left_iff, List.forall₂_map_right_iff, List.forall₂_same]
    exact fun a _ => hST.successor a
  refine List.rel_filter ?_ hsuccessors
  intro S' T' hpair
  simp only [h.isEmpty_eq hpair]

theorem found_paired (h : RunAlike A B) :
    List.Forall₂ (ReachedTogether A B) A.exploration.found B.exploration.found := by
  have hstart : List.Forall₂ (ReachedTogether A B) [A.initial] [B.initial] :=
    .cons (.initial A B) .nil
  exact (FiniteGraph.explore_paired h.biUnique (fun S T hST => h.next_paired hST) hstart hstart).1

theorem number_eq (h : RunAlike A B) (hST : ReachedTogether A B S T) :
    number A.exploration.found S = number B.exploration.found T := by
  rw [number, number, idxOf_eq_of_paired h.biUnique h.found_paired hST]

theorem configurationEdges_eq (h : RunAlike A B) :
    A.configurationEdges A.exploration.found = B.configurationEdges B.exploration.found := by
  rw [configurationEdges, configurationEdges, List.flatMap_def, List.flatMap_def, h.same_alphabet]
  congr 1
  refine map_eq_of_paired h.found_paired fun S T hST => ?_
  apply List.filterMap_congr
  intro a _
  have hnext := hST.successor a
  simp only [configurationEdge, h.isEmpty_eq hnext, h.number_eq hST, h.number_eq hnext]

theorem acceptingNumbers_eq (h : RunAlike A B) :
    A.acceptingNumbers A.exploration.found = B.acceptingNumbers B.exploration.found := by
  have haccepting : List.Forall₂ (ReachedTogether A B)
      (A.exploration.found.filter A.isAccepting) (B.exploration.found.filter B.isAccepting) := by
    refine List.rel_filter ?_ h.found_paired
    intro S T hST
    simp only [h.isAccepting_eq hST]
  exact map_eq_of_paired haccepting fun S T hST => h.number_eq hST

theorem determinize_automaton_eq (h : RunAlike A B) :
    A.determinize.automaton = B.determinize.automaton := by
  simp only [determinize, Automaton.mk.injEq]
  refine ⟨h.same_alphabet, trivial, ?_, ?_⟩
  · rw [h.acceptingNumbers_eq]
  · rw [h.configurationEdges_eq]

end RunAlike

/-!
Determinizing twice. A determinized automaton runs like the one it was made from: its
configurations hold one state at most, and this state stands for the configuration of the other.
So both are determinized to the same automaton, and the second time each state stands for itself.
-/

theorem mirrors_run (hsize : A.determinize.configurations.length ≤ 2 ^ 32) (w : Word) :
    A.Mirrors (A.determinize.automaton.run w) (A.run w) :=
  A.mirrors_initial.runFrom hsize w

theorem Mirrors.eq_iff (hsize : A.determinize.configurations.length ≤ 2 ^ 32)
    {S S' T T' : Configuration} (h : A.Mirrors T S) (h' : A.Mirrors T' S') :
    T = T' ↔ S = S' := by
  rcases h with ⟨rfl, rfl⟩ | ⟨p, hp, rfl⟩
  · rcases h' with ⟨rfl, rfl⟩ | ⟨q, hq, rfl⟩
    · simp only
    · exact iff_of_false (SortedSet.ofList_singleton_ne_empty q).symm hq.ne_empty.symm
  · rcases h' with ⟨rfl, rfl⟩ | ⟨q, hq, rfl⟩
    · exact iff_of_false (SortedSet.ofList_singleton_ne_empty p) hp.ne_empty
    · exact SortedSet.ofList_singleton_inj.trans (hp.eq_iff hsize hq)

theorem runAlike_determinize (hsize : A.determinize.configurations.length ≤ 2 ^ 32) :
    RunAlike A.determinize.automaton A where
  same_alphabet := rfl
  same_dead w := by
    rw [← SortedSet.isEmpty_iff, (mirrors_run hsize w).isEmpty, SortedSet.isEmpty_iff]
  same_accepted w := (mirrors_run hsize w).isAccepting hsize
  same_merged v w := (mirrors_run hsize v).eq_iff hsize (mirrors_run hsize w)

/-- Where the second search meets a configuration, it is the state with that number alone. -/
theorem StandsFor.determinize_self (hsize : A.determinize.configurations.length ≤ 2 ^ 32)
    {i : State} {S : Configuration} (hS : A.StandsFor i S) :
    A.determinize.automaton.StandsFor i (SortedSet.ofList [i]) := by
  have hpaired := (runAlike_determinize hsize).found_paired
  obtain ⟨hi, hget⟩ := List.getElem?_eq_some_iff.mp hS
  have hi' : i.toNat < A.determinize.automaton.exploration.found.length := by
    rw [hpaired.length_eq]
    exact hi
  obtain ⟨w, hT, hw⟩ := hpaired.get hi' hi
  have hmirrors : A.Mirrors (A.determinize.automaton.exploration.found[i.toNat]) S := by
    have hrun := mirrors_run hsize w
    rwa [hT, hw.trans hget] at hrun
  change A.determinize.automaton.exploration.found[i.toNat]? = _
  rw [List.getElem?_eq_getElem hi']
  rcases hmirrors with ⟨hempty, _⟩ | ⟨q, hq, hsingle⟩
  · exact absurd hempty hS.ne_empty
  · rw [hsingle, (hq.eq_iff hsize hS).mpr rfl]

/-- Determinizing a determinized automaton gives the same automaton again, with the same numbers
for its states, and each of these stands for itself alone. -/
theorem determinize_fixed (A : Automaton)
    (hsize : A.determinize.configurations.length ≤ 2 ^ 32) :
    let D := A.determinize.automaton
    D.determinize.automaton = D ∧
    D.determinize.configurations.length = A.determinize.configurations.length ∧
    ∀ i : State, i.toNat < A.determinize.configurations.length →
      D.determinize.configurations[i.toNat]? = some (SortedSet.ofList [i]) := by
  intro D
  have halike : RunAlike D A := runAlike_determinize hsize
  refine ⟨halike.determinize_automaton_eq, halike.found_paired.length_eq, ?_⟩
  intro i hi
  exact StandsFor.determinize_self hsize (List.getElem?_eq_getElem hi)

/-- `epsilonCycle` has three configurations, and the second time the last of them is 2 alone. -/
theorem determinize_fixed_epsilonCycle :
    epsilonCycle.determinize.configurations.length ≤ 2 ^ 32 ∧
    epsilonCycle.determinize.automaton.determinize.automaton =
      epsilonCycle.determinize.automaton ∧
    (2 : State).toNat < epsilonCycle.determinize.configurations.length ∧
    epsilonCycle.determinize.automaton.determinize.configurations[(2 : State).toNat]? =
      some (SortedSet.ofList [2]) := by
  have hsize : epsilonCycle.determinize.configurations.length ≤ 2 ^ 32 := by decide +kernel
  have hthird : (2 : State).toNat < epsilonCycle.determinize.configurations.length := by
    decide +kernel
  obtain ⟨hsame, _, hself⟩ := determinize_fixed epsilonCycle hsize
  exact ⟨hsize, hsame, hthird, hself 2 hthird⟩

end Automaton

end FormalLanguage
