import FormalLanguage.Proofs.Configurations
import FormalLanguage.Proofs.SubsetConstruction
import Mathlib.Data.FinEnum

/-!
Automata that are deterministic from the start. Where source and label identify an edge and no edge
is read without a letter, a configuration with one state at most is followed by such a
configuration. So a run never holds two states, every configuration that determinizing meets is a
state alone, and the determinized automaton is what the start state leads to, with new numbers.
There are no more configurations than states, hence the numbers always suffice.
-/

namespace FormalLanguage

/-- Two states are never in the configuration at once. -/
def AtMostOne (states : Configuration) : Prop := ∀ p ∈ states, ∀ q ∈ states, p = q

namespace AtMostOne

variable {states : Configuration}

theorem ofList_singleton (q : State) : AtMostOne (SortedSet.ofList [q]) := by
  intro p hp r hr
  rw [SortedSet.mem_ofList_singleton.mp hp, SortedSet.mem_ofList_singleton.mp hr]

theorem eq_single (h : AtMostOne states) {q : State} (hq : q ∈ states) :
    states = SortedSet.ofList [q] := by
  apply SortedSet.ext
  intro p
  rw [SortedSet.mem_ofList_singleton]
  constructor
  · exact fun hp => h p hp q hq
  · rintro rfl
    exact hq

theorem size_le_one (h : AtMostOne states) : states.size ≤ 1 := by
  by_cases hempty : states = ∅
  · rw [hempty]
    exact Nat.zero_le 1
  · obtain ⟨q, hq⟩ := SortedSet.exists_mem_of_ne_empty hempty
    rw [h.eq_single hq]
    rfl

end AtMostOne

namespace TransitionRelation

variable {f : TransitionRelation} (hf : f.isDeterministic = true)

include hf

theorem epsilon_eq_empty_of_isDeterministic : f.epsilon = ∅ :=
  epsilon_eq_empty_iff.mpr (isDeterministic_iff.mp hf).1

/-- A state and a letter have one target. -/
theorem target_unique {p q r : State} {a : Letter} (hq : ⟨p, q, some a⟩ ∈ f)
    (hr : ⟨p, r, some a⟩ ∈ f) : q = r :=
  congrArg Edge.target ((isDeterministic_iff.mp hf).2 _ hq _ hr rfl)

theorem successor_eq_move (states : Configuration) (a : Letter) :
    f.successor states a = f.move states a := by
  rw [successor_eq_epsilonClosure_move,
    epsilonClosure_of_no_epsilon (epsilon_eq_empty_of_isDeterministic hf)]

/-- Reading a letter keeps a configuration from holding two states. -/
theorem atMostOne_successor {states : Configuration} (h : AtMostOne states) (a : Letter) :
    AtMostOne (f.successor states a) := by
  intro q hq r hr
  rw [successor_eq_move hf] at hq hr
  obtain ⟨p, hp, hpq⟩ := mem_move.mp hq
  obtain ⟨p', hp', hpr⟩ := mem_move.mp hr
  rw [h p' hp' p hp] at hpr
  exact target_unique hf hpq hpr

theorem successor_single_iff {p q : State} {a : Letter} :
    f.successor (SortedSet.ofList [p]) a = SortedSet.ofList [q] ↔ ⟨p, q, some a⟩ ∈ f := by
  have hmem : q ∈ f.successor (SortedSet.ofList [p]) a ↔ ⟨p, q, some a⟩ ∈ f := by
    simp [successor_eq_move hf]
  rw [← hmem]
  constructor
  · intro h
    simp [h]
  · exact fun h => (atMostOne_successor hf (.ofList_singleton p) a).eq_single h

end TransitionRelation

namespace Automaton

variable {A : Automaton}

theorem known_of_path {p q : State} {w : Word} (h : Path A.relation p w q) :
    ∀ a ∈ w, a ∈ A.alphabet := by
  induction h with
  | stay => exact fun _ ha => nomatch ha
  | skip _ _ ih => exact ih
  | read hedge _ ih =>
      have hknown := A.letters_known _ hedge
      exact List.forall_mem_cons.mpr ⟨of_decide_eq_true hknown, ih⟩

theorem isAccepting_single {q : State} :
    A.isAccepting (SortedSet.ofList [q]) = true ↔ q ∈ A.accepting := by
  simp [isAccepting_iff]

section Deterministic

variable (hA : A.relation.isDeterministic = true)

include hA

theorem initial_eq_single : A.initial = SortedSet.ofList [A.start] :=
  TransitionRelation.epsilonClosure_of_no_epsilon
    (TransitionRelation.epsilon_eq_empty_of_isDeterministic hA) _

theorem atMostOne_run (w : Word) : AtMostOne (A.run w) := by
  induction w using List.reverseRecOn with
  | nil =>
      change AtMostOne A.initial
      rw [initial_eq_single hA]
      exact .ofList_singleton A.start
  | append_singleton w a ih =>
      rw [run_concat]
      exact TransitionRelation.atMostOne_successor hA ih a

/-- The search meets a state alone exactly when a path from the start state ends there. -/
theorem single_mem_exploration_iff {q : State} :
    SortedSet.ofList [q] ∈ A.exploration.found ↔ ∃ w, Path A.relation A.start w q := by
  rw [mem_exploration_iff]
  simp only [← mem_run_iff]
  constructor
  · rintro ⟨_, w, _, hrun⟩
    exact ⟨w, by simp [hrun]⟩
  · rintro ⟨w, hq⟩
    exact ⟨SortedSet.ofList_singleton_ne_empty q, w, known_of_path (mem_run_iff.mp hq),
      (atMostOne_run hA w).eq_single hq⟩

/-- The configurations that are met are states alone, and different states. -/
theorem exists_states_exploration : ∃ states : List State,
    A.exploration.found = states.map (fun q => SortedSet.ofList [q]) ∧ states.Nodup := by
  have hsingle : ∀ S ∈ A.exploration.found, ∃ q, SortedSet.ofList [q] = S := by
    intro S hS
    obtain ⟨hne, w, _, rfl⟩ := (A.mem_exploration_iff S).mp hS
    obtain ⟨q, hq⟩ := SortedSet.exists_mem_of_ne_empty hne
    exact ⟨q, ((atMostOne_run hA w).eq_single hq).symm⟩
  obtain ⟨states, hstates⟩ : A.exploration.found ∈
      Set.range (List.map fun q : State => SortedSet.ofList [q]) := by
    rw [Set.range_list_map]
    exact hsingle
  exact ⟨states, hstates.symm, .of_map _ (hstates ▸ A.nodup_exploration)⟩

end Deterministic

section Singles

variable {states : List State}
  (hfound : A.exploration.found = states.map fun q => SortedSet.ofList [q])

include hfound

/-- Where only states alone are met, a number stands for the state at its place. -/
theorem standsFor_iff_of_singles (i : State) (S : Configuration) :
    A.StandsFor i S ↔ ∃ q, states[i.toNat]? = some q ∧ SortedSet.ofList [q] = S := by
  change A.exploration.found[i.toNat]? = some S ↔ _
  rw [hfound, List.getElem?_map, Option.map_eq_some_iff]

theorem edge_determinize_iff_of_singles (hA : A.relation.isDeterministic = true)
    (hsize : A.determinize.configurations.length ≤ 2 ^ 32) (i j : State) (a : Letter) :
    ⟨i, j, some a⟩ ∈ A.determinize.automaton.relation ↔
      ∃ p q, states[i.toNat]? = some p ∧ states[j.toNat]? = some q ∧
        ⟨p, q, some a⟩ ∈ A.relation := by
  rw [edge_determinize_iff hsize]
  constructor
  · rintro ⟨_, S, T, hi, hj, hnext⟩
    obtain ⟨p, hp, rfl⟩ := (standsFor_iff_of_singles hfound i S).mp hi
    obtain ⟨q, hq, rfl⟩ := (standsFor_iff_of_singles hfound j T).mp hj
    exact ⟨p, q, hp, hq, (TransitionRelation.successor_single_iff hA).mp hnext⟩
  · rintro ⟨p, q, hp, hq, hedge⟩
    have hknown := A.letters_known _ hedge
    exact ⟨of_decide_eq_true hknown, _, _,
      (standsFor_iff_of_singles hfound i _).mpr ⟨p, hp, rfl⟩,
      (standsFor_iff_of_singles hfound j _).mpr ⟨q, hq, rfl⟩,
      (TransitionRelation.successor_single_iff hA).mpr hedge⟩

theorem mem_accepting_determinize_iff_of_singles
    (hsize : A.determinize.configurations.length ≤ 2 ^ 32) (i : State) :
    i ∈ A.determinize.automaton.accepting ↔
      ∃ q, states[i.toNat]? = some q ∧ q ∈ A.accepting := by
  rw [mem_accepting_determinize_iff hsize]
  constructor
  · rintro ⟨S, hi, haccepting⟩
    obtain ⟨q, hq, rfl⟩ := (standsFor_iff_of_singles hfound i S).mp hi
    exact ⟨q, hq, isAccepting_single.mp haccepting⟩
  · rintro ⟨q, hq, haccepting⟩
    exact ⟨_, (standsFor_iff_of_singles hfound i _).mpr ⟨q, hq, rfl⟩,
      isAccepting_single.mpr haccepting⟩

end Singles

/-- Deterministic automata stay what they are. No run of one holds two states. Determinizing it
lists the states that paths from the start state end in, each one alone and once, the start state
first, so that the numbers suffice. The determinized automaton is again deterministic: it has an
edge between two numbers exactly when the original has one with this label between the states that
they stand for, and a number accepts exactly when its state does. -/
theorem determinize_deterministic (A : Automaton) (hA : A.relation.isDeterministic = true) :
    let D := A.determinize
    (∀ w : Word, (A.run w).size ≤ 1) ∧
    ∃ states : List State,
      D.configurations = states.map (fun q => SortedSet.ofList [q]) ∧
      states.Nodup ∧ states.length ≤ 2 ^ 32 ∧ states[0]? = some A.start ∧
      (∀ q, q ∈ states ↔ ∃ w, Path A.relation A.start w q) ∧
      D.automaton.relation.isDeterministic = true ∧
      (∀ (i j : State) (a : Letter), ⟨i, j, some a⟩ ∈ D.automaton.relation ↔
        ∃ p q, states[i.toNat]? = some p ∧ states[j.toNat]? = some q ∧
          ⟨p, q, some a⟩ ∈ A.relation) ∧
      (∀ i : State, i ∈ D.automaton.accepting ↔
        ∃ q, states[i.toNat]? = some q ∧ q ∈ A.accepting) := by
  intro D
  obtain ⟨states, hfound, hdistinct⟩ := exists_states_exploration hA
  have hlength := hdistinct.length_le_card
  rw [← FinEnum.card_eq_fintypeCard, FinEnum.card_UInt32] at hlength
  have hsize : D.configurations.length ≤ 2 ^ 32 := by
    change A.exploration.found.length ≤ 2 ^ 32
    rwa [hfound, List.length_map]
  refine ⟨fun w => (atMostOne_run hA w).size_le_one, states, hfound, hdistinct, hlength, ?_, ?_,
    ?_, edge_determinize_iff_of_singles hfound hA hsize,
    mem_accepting_determinize_iff_of_singles hfound hsize⟩
  · obtain ⟨q, hq, hinitial⟩ :=
      (standsFor_iff_of_singles hfound 0 A.initial).mp A.standsFor_zero_initial
    rw [initial_eq_single hA, SortedSet.ofList_singleton_inj] at hinitial
    rwa [← hinitial]
  · intro q
    rw [← single_mem_exploration_iff hA, hfound]
    exact (List.mem_map_of_injective fun p q => SortedSet.ofList_singleton_inj.mp).symm
  · exact TransitionRelation.isDeterministic_iff.mpr
      ⟨fun e he => determinize_isEpsilon he, fun d hd e he => determinize_key_injective hsize hd he⟩

/-- A state with an edge to itself and two edges to a second state, and a third one with an edge to
this that nothing leads to. -/
def sideEntrance : Automaton where
  alphabet := SortedSet.ofList ["a", "b", ""]
  start := 8
  accepting := SortedSet.ofList [3, 5]
  relation := .ofList [⟨8, 8, some "a"⟩, ⟨8, 3, some "b"⟩, ⟨8, 3, some ""⟩, ⟨3, 8, some "a"⟩,
    ⟨5, 3, some "a"⟩]
  letters_known e he :=
    have hknown : ∀ e ∈ [⟨8, 8, some "a"⟩, ⟨8, 3, some "b"⟩, ⟨8, 3, some ""⟩, ⟨3, 8, some "a"⟩,
        (⟨5, 3, some "a"⟩ : Edge)],
        e.readsFrom (SortedSet.ofList ["a", "b", ""]) = true := by decide +kernel
    hknown e (TransitionRelation.mem_ofList.mp he)

/-- Determinizing gives `sideEntrance` two states. The second stands for what the start state leads
to on the letter without characters. -/
theorem determinize_deterministic_sideEntrance :
    sideEntrance.relation.isDeterministic = true ∧
    (sideEntrance.run ["a", "b", "a"]).size ≤ 1 ∧
    ∃ states : List State,
      sideEntrance.determinize.configurations = states.map (fun q => SortedSet.ofList [q]) ∧
      states.length = 2 ∧ states[0]? = some 8 ∧
      ∃ p q, states[(0 : State).toNat]? = some p ∧ states[(1 : State).toNat]? = some q ∧
        ⟨p, q, some ""⟩ ∈ sideEntrance.relation := by
  have hdeterministic : sideEntrance.relation.isDeterministic = true := by decide +kernel
  have hedge : ⟨0, 1, some ""⟩ ∈ sideEntrance.determinize.automaton.relation := by decide +kernel
  have hcount : sideEntrance.determinize.configurations.length = 2 := by decide +kernel
  obtain ⟨hrun, states, hlist, _, _, hstart, _, _, hedges, _⟩ :=
    determinize_deterministic sideEntrance hdeterministic
  rw [hlist, List.length_map] at hcount
  exact ⟨hdeterministic, hrun _, states, hlist, hcount, hstart, (hedges 0 1 "").mp hedge⟩

end Automaton

end FormalLanguage
