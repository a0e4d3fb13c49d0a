import FormalLanguage.Proofs.Configurations
import FormalLanguage.Proofs.Conflicts
import Mathlib.Tactic

/-!
The deterministic automaton of the reachable configurations. As long as there are no more
configurations than state numbers, the number of a configuration and its place in the list
determine each other. The edges, the accepting states and the determinism of the automaton are
read off this correspondence.
-/

namespace FormalLanguage

namespace Automaton

theorem number_append {configurations more : List Configuration} {S : Configuration}
    (hS : S ∈ configurations) : number (configurations ++ more) S = number configurations S := by
  rw [number, number, List.idxOf_append_of_mem hS]

theorem number_fresh {configurations : List Configuration} {S : Configuration}
    (hS : S ∉ configurations) :
    number (configurations ++ [S]) S = UInt32.ofNat configurations.length := by
  rw [number, List.idxOf_append_of_notMem hS, List.idxOf_cons_self, Nat.add_zero]

theorem number_getElem {configurations : List Configuration} {S : Configuration} {i : State}
    (hdistinct : configurations.Nodup) (hi : configurations[i.toNat]? = some S) :
    number configurations S = i := by
  obtain ⟨hbound, rfl⟩ := List.getElem?_eq_some_iff.mp hi
  rw [number, hdistinct.idxOf_getElem i.toNat hbound, UInt32.ofNat_toNat]

/-- While the numbers suffice, they lead back to their configurations. -/
theorem getElem?_number {configurations : List Configuration} {S : Configuration}
    (hsize : configurations.length ≤ 2 ^ 32) (hS : S ∈ configurations) :
    configurations[(number configurations S).toNat]? = some S := by
  have hplace := List.idxOf_lt_length_of_mem hS
  rw [number, UInt32.toNat_ofNat_of_lt' (lt_of_lt_of_le hplace hsize),
    List.getElem?_eq_getElem hplace, List.getElem_idxOf hplace]

/-- A state of a determinized automaton stands for the configuration listed at its place. -/
def StandsFor (A : Automaton) (i : State) (S : Configuration) : Prop :=
  A.determinize.configurations[i.toNat]? = some S

theorem StandsFor.mem {A : Automaton} {i : State} {S : Configuration} (h : A.StandsFor i S) :
    S ∈ A.exploration.found :=
  List.mem_of_getElem? h

theorem StandsFor.ne_empty {A : Automaton} {i : State} {S : Configuration}
    (h : A.StandsFor i S) : S ≠ ∅ :=
  ((A.mem_exploration_iff S).mp h.mem).1

theorem standsFor_zero_initial (A : Automaton) : A.StandsFor 0 A.initial := A.exploration_head

theorem StandsFor.unique {A : Automaton} {i : State} {S T : Configuration}
    (hS : A.StandsFor i S) (hT : A.StandsFor i T) : S = T :=
  Option.some.inj (hS.symm.trans hT)

/-- With few enough configurations the numbering is exact in both directions. -/
theorem standsFor_iff_number {A : Automaton}
    (hsize : A.determinize.configurations.length ≤ 2 ^ 32) (i : State) (S : Configuration) :
    A.StandsFor i S ↔ S ∈ A.exploration.found ∧ number A.exploration.found S = i := by
  constructor
  · intro h
    exact ⟨h.mem, number_getElem A.nodup_exploration h⟩
  · rintro ⟨hmem, rfl⟩
    exact getElem?_number hsize hmem

theorem StandsFor.eq_iff {A : Automaton}
    (hsize : A.determinize.configurations.length ≤ 2 ^ 32) {i j : State} {S T : Configuration}
    (hi : A.StandsFor i S) (hj : A.StandsFor j T) : i = j ↔ S = T := by
  constructor
  · rintro rfl
    exact hi.unique hj
  · rintro rfl
    rw [← ((standsFor_iff_number hsize i S).mp hi).2, ((standsFor_iff_number hsize j S).mp hj).2]

theorem exists_standsFor {A : Automaton}
    (hsize : A.determinize.configurations.length ≤ 2 ^ 32) {S : Configuration}
    (hS : S ∈ A.exploration.found) : ∃ i, A.StandsFor i S :=
  ⟨_, (standsFor_iff_number hsize _ S).mpr ⟨hS, rfl⟩⟩

/-- A letter that leads anywhere gives an edge from the number of one configuration to that of the
next. -/
theorem configurationEdge_eq_some_iff {A : Automaton} {configurations : List Configuration}
    {S : Configuration} {a : Letter} {e : Edge} :
    A.configurationEdge configurations S a = some e ↔
      A.relation.successor S a ≠ ∅ ∧ e = ⟨number configurations S,
        number configurations (A.relation.successor S a), some a⟩ := by
  unfold configurationEdge
  dsimp only
  split
  next hempty => simp [SortedSet.isEmpty_iff.mp hempty]
  next hsome =>
    rw [and_iff_right (mt SortedSet.isEmpty_iff.mpr hsome), Option.some.injEq]
    exact eq_comm

/-- Every edge of the determinized automaton reads one letter in one configuration. -/
theorem mem_determinize_relation {A : Automaton} {e : Edge} :
    e ∈ A.determinize.automaton.relation ↔
      ∃ S ∈ A.exploration.found, ∃ a ∈ A.alphabet, A.relation.successor S a ≠ ∅ ∧
        e = ⟨number A.exploration.found S,
          number A.exploration.found (A.relation.successor S a), some a⟩ := by
  change e ∈ TransitionRelation.ofList (A.configurationEdges A.exploration.found) ↔ _
  rw [TransitionRelation.mem_ofList, configurationEdges, List.mem_flatMap]
  refine exists_congr fun S => and_congr_right fun _ => ?_
  rw [List.mem_filterMap]
  exact exists_congr fun a => and_congr_right fun _ => configurationEdge_eq_some_iff

theorem edge_determinize_iff {A : Automaton}
    (hsize : A.determinize.configurations.length ≤ 2 ^ 32) (i j : State) (a : Letter) :
    ⟨i, j, some a⟩ ∈ A.determinize.automaton.relation ↔
      a ∈ A.alphabet ∧ ∃ S T, A.StandsFor i S ∧ A.StandsFor j T ∧
        A.relation.successor S a = T := by
  rw [mem_determinize_relation]
  constructor
  · rintro ⟨S, hS, b, hb, hne, hedge⟩
    obtain ⟨rfl, rfl, hlabel⟩ := Edge.mk.injEq .. |>.mp hedge
    obtain rfl := Option.some.inj hlabel
    have hT := successor_mem_exploration hS hne
    exact ⟨hb, S, _, (standsFor_iff_number hsize _ S).mpr ⟨hS, rfl⟩,
      (standsFor_iff_number hsize _ _).mpr ⟨hT, rfl⟩, rfl⟩
  · rintro ⟨ha, S, T, hi, hj, rfl⟩
    obtain ⟨hS, hnumberS⟩ := (standsFor_iff_number hsize i S).mp hi
    obtain ⟨hT, hnumberT⟩ := (standsFor_iff_number hsize j _).mp hj
    refine ⟨S, hS, a, ha, ((A.mem_exploration_iff _).mp hT).1, ?_⟩
    rw [hnumberS, hnumberT]

theorem determinize_isEpsilon {A : Automaton} {e : Edge}
    (he : e ∈ A.determinize.automaton.relation) : e.isEpsilon = false := by
  obtain ⟨S, _, a, _, _, rfl⟩ := mem_determinize_relation.mp he
  rfl

theorem epsilon_determinize (A : Automaton) : A.determinize.automaton.relation.epsilon = ∅ :=
  TransitionRelation.epsilon_eq_empty_iff.mpr fun _ he => determinize_isEpsilon he

/-- Source and label identify an edge: the source tells the configuration, and this with the
letter tells the next one. -/
theorem determinize_key_injective {A : Automaton}
    (hsize : A.determinize.configurations.length ≤ 2 ^ 32) {d e : Edge}
    (hd : d ∈ A.determinize.automaton.relation) (he : e ∈ A.determinize.automaton.relation)
    (hkey : d.key = e.key) : d = e := by
  obtain ⟨S, hS, a, _, _, rfl⟩ := mem_determinize_relation.mp hd
  obtain ⟨T, hT, b, _, _, rfl⟩ := mem_determinize_relation.mp he
  obtain ⟨hsource, hlabel⟩ := Prod.mk.injEq .. |>.mp hkey
  obtain rfl := Option.some.inj hlabel
  have hi := (standsFor_iff_number hsize _ S).mpr ⟨hS, rfl⟩
  have hi' := (standsFor_iff_number hsize _ T).mpr ⟨hT, hsource.symm⟩
  rw [hi.unique hi']

theorem mem_accepting_determinize_iff {A : Automaton}
    (hsize : A.determinize.configurations.length ≤ 2 ^ 32) (i : State) :
    i ∈ A.determinize.automaton.accepting ↔
      ∃ S, A.StandsFor i S ∧ A.isAccepting S = true := by
  change i ∈ SortedSet.ofList (A.acceptingNumbers A.exploration.found) ↔ _
  rw [SortedSet.mem_ofList, acceptingNumbers, List.mem_map]
  refine exists_congr fun S => ?_
  rw [List.mem_filter, standsFor_iff_number hsize]
  exact and_right_comm

/-- The determinized automaton enumerates the reachable configurations. Each one with states that
a word over the alphabet leads to is listed once and no other is, the initial one first. State
`i` has an edge to state `j` on a letter of the alphabet exactly when reading the letter leads
from the `i`-th configuration to the `j`-th; there are no other edges, none of them is an epsilon
edge, and so the policy for deterministic automata lets the relation pass. Every state but the
first is entered from one with a lower number, and a state accepts exactly when its configuration
does. -/
theorem determinize_enumerates (A : Automaton)
    (hsize : A.determinize.configurations.length ≤ 2 ^ 32) :
    let D := A.determinize
    D.configurations.Nodup ∧
    (∀ S, S ∈ D.configurations ↔
      S ≠ ∅ ∧ ∃ w : Word, (∀ a ∈ w, a ∈ A.alphabet) ∧ A.run w = S) ∧
    D.configurations[0]? = some A.initial ∧
    (∀ (i j : State) (a : Letter), ⟨i, j, some a⟩ ∈ D.automaton.relation ↔
      a ∈ A.alphabet ∧ ∃ S T, D.configurations[i.toNat]? = some S ∧
        D.configurations[j.toNat]? = some T ∧ A.relation.successor S a = T) ∧
    (∀ i j : State, ⟨i, j, none⟩ ∉ D.automaton.relation) ∧
    TransitionRelation.build .dfa D.automaton.relation.all = .ok D.automaton.relation ∧
    (∀ i : State, 0 < i → i.toNat < D.configurations.length →
      ∃ j < i, ∃ a, ⟨j, i, some a⟩ ∈ D.automaton.relation) ∧
    (∀ i : State, i ∈ D.automaton.accepting ↔
      ∃ S, D.configurations[i.toNat]? = some S ∧ A.isAccepting S = true) := by
  intro D
  refine ⟨A.nodup_exploration, A.mem_exploration_iff, A.exploration_head,
    edge_determinize_iff hsize, ?_, ?_, ?_, mem_accepting_determinize_iff hsize⟩
  · intro i j hedge
    cases determinize_isEpsilon hedge
  · refine (TransitionRelation.build_eq_ok_iff _ _ _).mpr ⟨?_, Or.inr ?_, Or.inr ?_⟩
    · exact (TransitionRelation.ofList_all _).symm
    · exact fun e he => determinize_isEpsilon he
    · exact fun d hd e he => determinize_key_injective hsize hd he
  · intro i hpositive hi
    have hT : A.exploration.found[i.toNat]? = some D.configurations[i.toNat] :=
      List.getElem?_eq_getElem hi
    obtain ⟨j, hj, S, hS, a, ha, hnext⟩ := A.exploration_discovered hT hpositive
    have hsmall : j < 2 ^ 32 := lt_of_lt_of_le (hj.trans hi) hsize
    have hnumber : (UInt32.ofNat j).toNat = j := UInt32.toNat_ofNat_of_lt' hsmall
    refine ⟨UInt32.ofNat j, ?_, a, (edge_determinize_iff hsize _ _ a).mpr
      ⟨ha, S, _, ?_, hT, hnext⟩⟩
    · rw [UInt32.lt_iff_toNat_lt, hnumber]
      exact hj
    · change A.exploration.found[(UInt32.ofNat j).toNat]? = some S
      rw [hnumber]
      exact hS

/-- Two states joined by epsilon edges in both directions, and a third one entered on a letter of
two characters and left on the letter without any. -/
def epsilonCycle : Automaton where
  alphabet := SortedSet.ofList ["ab", "", "c"]
  start := 5
  accepting := SortedSet.ofList [7]
  relation := .ofList [⟨5, 6, none⟩, ⟨6, 5, none⟩, ⟨6, 7, some "ab"⟩, ⟨7, 6, some ""⟩,
    ⟨5, 7, some "c"⟩, ⟨5, 5, some "c"⟩]
  letters_known e he :=
    have hknown : ∀ e ∈ [⟨5, 6, none⟩, ⟨6, 5, none⟩, ⟨6, 7, some "ab"⟩, ⟨7, 6, some ""⟩,
        ⟨5, 7, some "c"⟩, (⟨5, 5, some "c"⟩ : Edge)],
        e.readsFrom (SortedSet.ofList ["ab", "", "c"]) = true := by decide +kernel
    hknown e (TransitionRelation.mem_ofList.mp he)

/-- The last configuration of `epsilonCycle` to be met is entered from one met before. -/
theorem determinize_enumerates_epsilonCycle :
    epsilonCycle.determinize.configurations.length ≤ 2 ^ 32 ∧
    (2 : State).toNat < epsilonCycle.determinize.configurations.length ∧
    ∃ j < 2, ∃ a, ⟨j, 2, some a⟩ ∈ epsilonCycle.determinize.automaton.relation := by
  have hsize : epsilonCycle.determinize.configurations.length ≤ 2 ^ 32 := by decide +kernel
  have hsecond : (2 : State).toNat < epsilonCycle.determinize.configurations.length := by
    decide +kernel
  obtain ⟨_, _, _, _, _, _, hentered, _⟩ := determinize_enumerates epsilonCycle hsize
  exact ⟨hsize, hsecond, hentered 2 (by decide) hsecond⟩

/-!
Running an automaton and running its determinized form. The two runs stay in step: either both
have no state left, or the second is in the one state that stands for the configuration of the
first. Whatever is asked about a run is therefore answered alike by both, for all words and texts,
also those with letters outside the alphabet.
-/

/-- A configuration of the determinized automaton that keeps step with one of the original. -/
def Mirrors (A : Automaton) (T S : Configuration) : Prop :=
  (S = ∅ ∧ T = ∅) ∨ ∃ q, A.StandsFor q S ∧ T = SortedSet.ofList [q]

theorem Mirrors.isEmpty {A : Automaton} {T S : Configuration} (h : A.Mirrors T S) :
    T.isEmpty = S.isEmpty := by
  rcases h with ⟨rfl, rfl⟩ | ⟨q, hq, rfl⟩
  · rfl
  · rw [SortedSet.isEmpty_eq_false_iff.mpr hq.ne_empty]
    rfl

theorem Mirrors.isAccepting {A : Automaton}
    (hsize : A.determinize.configurations.length ≤ 2 ^ 32) {T S : Configuration}
    (h : A.Mirrors T S) : A.determinize.automaton.isAccepting T = A.isAccepting S := by
  rcases h with ⟨rfl, rfl⟩ | ⟨q, hq, rfl⟩
  · rfl
  · rw [Bool.eq_iff_iff, isAccepting_iff]
    constructor
    · rintro ⟨p, hp, haccepting⟩
      obtain rfl := SortedSet.mem_ofList_singleton.mp hp
      obtain ⟨S', hS', haccepts⟩ := (mem_accepting_determinize_iff hsize p).mp haccepting
      rw [hq.unique hS']
      exact haccepts
    · intro haccepts
      have hmem := (mem_accepting_determinize_iff hsize q).mpr ⟨S, hq, haccepts⟩
      exact ⟨q, by simp, hmem⟩

/-- Reading one letter keeps both automata in step. -/
theorem Mirrors.successor {A : Automaton}
    (hsize : A.determinize.configurations.length ≤ 2 ^ 32) {T S : Configuration}
    (h : A.Mirrors T S) (a : Letter) :
    A.Mirrors (A.determinize.automaton.relation.successor T a) (A.relation.successor S a) := by
  rcases h with ⟨rfl, rfl⟩ | ⟨q, hq, rfl⟩
  · exact Or.inl ⟨A.relation.successor_empty a, TransitionRelation.successor_empty _ a⟩
  -- Without epsilon edges a successor is what one move leads to.
  have hmove : A.determinize.automaton.relation.successor (SortedSet.ofList [q]) a =
      A.determinize.automaton.relation.move (SortedSet.ofList [q]) a :=
    TransitionRelation.epsilonClosure_of_no_epsilon A.epsilon_determinize _
  have htarget : ∀ j, j ∈ A.determinize.automaton.relation.move (SortedSet.ofList [q]) a ↔
      a ∈ A.alphabet ∧ A.StandsFor j (A.relation.successor S a) := by
    intro j
    rw [TransitionRelation.mem_move]
    constructor
    · rintro ⟨p, hp, hedge⟩
      obtain rfl := SortedSet.mem_ofList_singleton.mp hp
      obtain ⟨ha, S', T', hS', hT', rfl⟩ := (edge_determinize_iff hsize p j a).mp hedge
      rw [hq.unique hS']
      exact ⟨ha, hT'⟩
    · rintro ⟨ha, hj⟩
      have hedge := (edge_determinize_iff hsize q j a).mpr ⟨ha, S, _, hq, hj, rfl⟩
      exact ⟨q, by simp, hedge⟩
  rw [hmove]
  by_cases hempty : A.relation.successor S a = ∅
  · refine Or.inl ⟨hempty, ?_⟩
    apply SortedSet.eq_empty_of_forall_not_mem
    intro j hj
    exact ((htarget j).mp hj).2.ne_empty hempty
  · have ha : a ∈ A.alphabet := known_of_successor hempty
    obtain ⟨j, hj⟩ := exists_standsFor hsize (successor_mem_exploration hq.mem hempty)
    refine Or.inr ⟨j, hj, SortedSet.ext fun k => ?_⟩
    rw [htarget k, SortedSet.mem_ofList_singleton, and_iff_right ha]
    constructor
    · exact fun hk => (hk.eq_iff hsize hj).mpr rfl
    · rintro rfl
      exact hj

theorem mirrors_initial (A : Automaton) : A.Mirrors A.determinize.automaton.initial A.initial := by
  refine Or.inr ⟨0, A.standsFor_zero_initial, ?_⟩
  exact TransitionRelation.epsilonClosure_of_no_epsilon A.epsilon_determinize _

theorem Mirrors.runFrom {A : Automaton}
    (hsize : A.determinize.configurations.length ≤ 2 ^ 32) {T S : Configuration}
    (h : A.Mirrors T S) (w : Word) :
    A.Mirrors (A.determinize.automaton.runFrom T w) (A.runFrom S w) := by
  rw [runFrom_eq_foldl, runFrom_eq_foldl]
  induction w generalizing T S with
  | nil => exact h
  | cons a w ih => exact ih (h.successor hsize a)

theorem Mirrors.longestFrom {A : Automaton}
    (hsize : A.determinize.configurations.length ≤ 2 ^ 32) {T S : Configuration}
    (h : A.Mirrors T S) (w : Word) :
    A.determinize.automaton.longestFrom T w = A.longestFrom S w := by
  induction w generalizing T S with
  | nil => rw [Automaton.longestFrom, Automaton.longestFrom, h.isAccepting hsize]
  | cons a w ih =>
      have hnext := h.successor hsize a
      simp only [Automaton.longestFrom]
      rw [h.isAccepting hsize, hnext.isEmpty, ih hnext]

/-- Determinizing preserves behavior. On every word the determinized automaton ends in the one
state that stands for the configuration of the original, or in none if that has none; so both
accept the same words and texts, and find the same longest accepted beginning of every text. -/
theorem determinize_preserves_behavior (A : Automaton)
    (hsize : A.determinize.configurations.length ≤ 2 ^ 32) :
    let D := A.determinize
    (∀ w : Word, A.run w ≠ ∅ → ∃ q : State, D.automaton.run w = SortedSet.ofList [q] ∧
      D.configurations[q.toNat]? = some (A.run w)) ∧
    (∀ w : Word, A.run w = ∅ → D.automaton.run w = ∅) ∧
    (∀ w : Word, D.automaton.accepts w = A.accepts w) ∧
    (∀ text : String, D.automaton.acceptsText text = A.acceptsText text) ∧
    (∀ text : String, D.automaton.longestAccepted text = A.longestAccepted text) := by
  intro D
  have hrun (w : Word) : A.Mirrors (D.automaton.run w) (A.run w) :=
    A.mirrors_initial.runFrom hsize w
  have haccepts (w : Word) : D.automaton.accepts w = A.accepts w := (hrun w).isAccepting hsize
  refine ⟨?_, ?_, haccepts, fun text => haccepts (Word.ofText text), ?_⟩
  · intro w hne
    rcases hrun w with ⟨hempty, _⟩ | ⟨q, hq, hstate⟩
    · exact absurd hempty hne
    · exact ⟨q, hstate, hq⟩
  · intro w hempty
    have hnone := (hrun w).isEmpty
    rw [hempty] at hnone
    exact SortedSet.isEmpty_iff.mp hnone
  · exact fun text => A.mirrors_initial.longestFrom hsize (Word.ofText text)

/-- On a word that goes round the epsilon cycle and reads a letter without characters both
automata end with states; on one with a letter outside the alphabet, with none. -/
theorem determinize_preserves_behavior_epsilonCycle :
    epsilonCycle.determinize.configurations.length ≤ 2 ^ 32 ∧
    epsilonCycle.run ["ab", "", "c"] ≠ ∅ ∧
    (∃ q : State, epsilonCycle.determinize.automaton.run ["ab", "", "c"] =
        SortedSet.ofList [q] ∧
      epsilonCycle.determinize.configurations[q.toNat]? =
        some (epsilonCycle.run ["ab", "", "c"])) ∧
    epsilonCycle.run ["c", "x", "c"] = ∅ ∧
    epsilonCycle.determinize.automaton.run ["c", "x", "c"] = ∅ := by
  have hsize : epsilonCycle.determinize.configurations.length ≤ 2 ^ 32 := by decide +kernel
  have halive : epsilonCycle.run ["ab", "", "c"] ≠ ∅ := by decide +kernel
  have hdead : epsilonCycle.run ["c", "x", "c"] = ∅ := by decide +kernel
  obtain ⟨hsome, hnone, _⟩ := determinize_preserves_behavior epsilonCycle hsize
  exact ⟨hsize, halive, hsome _ halive, hdead, hnone _ hdead⟩

end Automaton

end FormalLanguage
