import FormalLanguage.Automaton.Records
import FormalLanguage.Proofs.Construction

/-!
What determinizing records. A closure is recorded when there are epsilon edges and a letter led
anywhere before they were followed; closing takes no state away, so these are the letters for which
an edge is added. Every configuration is visited once, and source and letter tell its edges apart;
so there is one record for each edge, and no edge is added twice.
-/

namespace FormalLanguage

open Automaton (number configurationEdge)

namespace TransitionRelation

variable {f : TransitionRelation} {states : Configuration}

theorem closureRecords_of_no_epsilon (hnone : f.epsilon = ∅) (states : Configuration) :
    f.closureRecords states = [] := by
  rw [closureRecords, if_pos (closesTrivially_of_no_epsilon hnone states)]

theorem closureRecords_of_ne_empty (hedges : f.epsilon ≠ ∅) (hne : states ≠ ∅) :
    f.closureRecords states = [.closed states.size (f.epsilonClosure states).size] := by
  have hactive : f.closesTrivially states = false := by
    simp [closesTrivially, SortedSet.isEmpty_eq_false_iff.mpr hne,
      SortedSet.isEmpty_eq_false_iff.mpr hedges]
  rw [closureRecords, hactive]
  rfl

/-- A letter leads anywhere exactly when it does before epsilon edges are followed. -/
theorem successor_eq_empty_iff {a : Letter} :
    f.successor states a = ∅ ↔ f.move states a = ∅ := by
  rw [successor_eq_epsilonClosure_move]
  constructor
  · intro hempty
    refine SortedSet.eq_empty_of_forall_not_mem fun q hq => ?_
    have hclosed := f.subset_epsilonClosure _ q hq
    simp [hempty] at hclosed
  · intro hempty
    rw [hempty]
    rfl

theorem successorRecords_of_no_epsilon (hnone : f.epsilon = ∅) (states : Configuration)
    (a : Letter) : f.successorRecords states a = [] := by
  unfold successorRecords
  split
  · rfl
  · exact closureRecords_of_no_epsilon hnone _

/-- There is one record if the letter leads anywhere, and none otherwise. -/
theorem length_successorRecords (hedges : f.epsilon ≠ ∅) (hne : states ≠ ∅) (a : Letter) :
    (f.successorRecords states a).length = if f.successor states a = ∅ then 0 else 1 := by
  rw [successorRecords, SortedSet.isEmpty_eq_false_iff.mpr hne]
  change (f.closureRecords (f.move states a)).length = _
  by_cases hempty : f.move states a = ∅
  · rw [if_pos (successor_eq_empty_iff.mpr hempty), hempty]
    rfl
  · rw [if_neg (mt successor_eq_empty_iff.mp hempty), closureRecords_of_ne_empty hedges hempty]
    rfl

theorem closed_of_mem_closureRecords {e : Event} (he : e ∈ f.closureRecords states) :
    ∃ before after, e = .closed before after := by
  unfold closureRecords at he
  split at he
  · cases he
  · exact ⟨_, _, List.mem_singleton.mp he⟩

theorem closed_of_mem_successorRecords {a : Letter} {e : Event}
    (he : e ∈ f.successorRecords states a) : ∃ before after, e = .closed before after := by
  unfold successorRecords at he
  split at he
  · cases he
  · exact closed_of_mem_closureRecords he

end TransitionRelation

namespace Automaton

variable {A : Automaton} {S : Configuration}

/-- One record for each edge out of a configuration. -/
theorem length_flatMap_successorRecords (hedges : A.relation.epsilon ≠ ∅) (hne : S ≠ ∅)
    (configurations : List Configuration) (letters : List Letter) :
    (letters.flatMap (A.relation.successorRecords S)).length =
      (letters.filterMap (A.configurationEdge configurations S)).length := by
  induction letters with
  | nil => rfl
  | cons a letters ih =>
      rw [List.flatMap_cons, List.length_append, ih,
        TransitionRelation.length_successorRecords hedges hne, List.filterMap_cons]
      by_cases hempty : A.relation.successor S a = ∅
      · simp [configurationEdge, hempty, SortedSet.isEmpty_iff.mpr]
      · simp [configurationEdge, hempty, SortedSet.isEmpty_eq_false_iff.mpr, Nat.add_comm]

/-- What is listed configuration by configuration is listed without repetition, if no row repeats
anything and everything in a row tells the number of its configuration. -/
theorem nodup_flatMap_found (hsize : A.determinize.configurations.length ≤ 2 ^ 32) {β : Type}
    {row : Configuration → List β} (source : β → State) (hrow : ∀ S, (row S).Nodup)
    (hsource : ∀ S, ∀ y ∈ row S, source y = number A.exploration.found S) :
    (A.exploration.found.flatMap row).Nodup := by
  refine List.nodup_flatMap.mpr ⟨fun S _ => hrow S, ?_⟩
  refine A.nodup_exploration.pairwise_of_forall_ne ?_
  intro S hS T hT hne
  refine List.disjoint_left.mpr fun y hy hy' => hne ?_
  have hi := (standsFor_iff_number hsize _ S).mpr ⟨hS, (hsource S y hy).symm⟩
  have hj := (standsFor_iff_number hsize _ T).mpr ⟨hT, (hsource T y hy').symm⟩
  exact hi.unique hj

/-- Edges out of one configuration have different labels, and edges out of different ones have
different sources. -/
theorem nodup_configurationEdges (hsize : A.determinize.configurations.length ≤ 2 ^ 32) :
    (A.configurationEdges A.exploration.found).Nodup := by
  refine nodup_flatMap_found hsize Edge.source (fun S => ?_) fun S e he => ?_
  · refine A.alphabet.nodup_toList.filterMap fun a b e ha hb => ?_
    obtain ⟨_, rfl⟩ := configurationEdge_eq_some_iff.mp ha
    obtain ⟨_, hsame⟩ := configurationEdge_eq_some_iff.mp hb
    exact Option.some.inj (Edge.mk.injEq .. |>.mp hsame).2.2
  · obtain ⟨a, _, ha⟩ := List.mem_filterMap.mp he
    rw [(configurationEdge_eq_some_iff.mp ha).2]

theorem size_determinize_relation (hsize : A.determinize.configurations.length ≤ 2 ^ 32) :
    A.determinize.automaton.relation.size =
      (A.configurationEdges A.exploration.found).length :=
  (TransitionRelation.size_ofList _).trans
    (congrArg List.length (nodup_configurationEdges hsize).dedup)

/-- What is recorded while the configurations are visited, without the initial closure. -/
def visitRecords (A : Automaton) : List Event :=
  A.exploration.visited.flatMap fun states =>
    A.alphabet.toList.flatMap (A.relation.successorRecords states)

theorem length_visitRecords (hsize : A.determinize.configurations.length ≤ 2 ^ 32)
    (hedges : A.relation.epsilon ≠ ∅) :
    A.visitRecords.length = A.determinize.automaton.relation.size := by
  have hvisits : A.visitRecords.length = (A.exploration.visited.flatMap fun S =>
      A.alphabet.toList.filterMap (A.configurationEdge A.exploration.found S)).length := by
    rw [visitRecords, List.length_flatMap, List.length_flatMap]
    refine congrArg List.sum (List.map_congr_left fun S hS => ?_)
    have hne : S ≠ ∅ := ((A.mem_exploration_iff S).mp
      (A.visited_exploration_perm.mem_iff.mp hS)).1
    exact length_flatMap_successorRecords hedges hne _ _
  rw [hvisits, size_determinize_relation hsize, configurationEdges]
  exact (A.visited_exploration_perm.flatMap_right _).length_eq

end Automaton

namespace Construction

variable {A : Automaton} {C D E : Construction}

/-- What reading every letter in a configuration expands, under its number among the listed ones. -/
def expansionsOf (A : Automaton) (configurations : List Configuration) (S : Configuration) :
    List Expansion :=
  A.alphabet.toList.map fun a =>
    ⟨number configurations S, a, A.relation.successorRecords S a⟩

theorem Finishes.expands {n : Nat} (h : Finishes A C n D) (hC : Sound A C) :
    ∃ expansions, Expands A C expansions D := by
  induction h with
  | done hpending => exact ⟨[], .done hpending⟩
  | visit hpending hvisit _ ih =>
      obtain ⟨S, D, hS, hvisit', hD, _⟩ := hC.visit hpending
      obtain rfl := Option.some.inj (hvisit.symm.trans hvisit')
      obtain ⟨later, hlater⟩ := ih hD
      exact ⟨_, .visit hpending hS hvisit hlater⟩

theorem Expands.finishes {expansions : List Expansion} (h : Expands A C expansions D) :
    ∃ n, Finishes A C n D := by
  induction h with
  | done hpending => exact ⟨0, .done hpending⟩
  | visit hpending _ hvisit _ ih =>
      obtain ⟨n, hn⟩ := ih
      exact ⟨n + 1, .visit hpending hvisit hn⟩

/-- There is no choice in what is expanded either. -/
theorem Expands.unique {expansions other : List Expansion} (h : Expands A C expansions D)
    (h' : Expands A C other E) : other = expansions ∧ E = D := by
  induction h generalizing other with
  | done hpending =>
      cases h' with
      | done => exact ⟨rfl, rfl⟩
      | visit hpending' => cases hpending.symm.trans hpending'
  | visit hpending hS hvisit _ ih =>
      cases h' with
      | done hpending' => cases hpending.symm.trans hpending'
      | visit hpending' hS' hvisit' hlater =>
          cases hpending.symm.trans hpending'
          cases hS.symm.trans hS'
          cases hvisit.symm.trans hvisit'
          obtain ⟨rfl, rfl⟩ := ih hlater
          exact ⟨rfl, rfl⟩

/-- While the numbers suffice, a construction expands the configurations that the search visits, in
the same order. -/
theorem Expands.explored {expansions : List Expansion} (h : Expands A C expansions D)
    (hC : Sound A C) (hsize : D.configurations.length ≤ 2 ^ 32) {stack : List Configuration}
    (hstack : C.Stacks stack) :
    expansions = (A.configurationGraph.explore C.configurations stack).visited.flatMap
      (expansionsOf A D.configurations) := by
  induction h generalizing stack with
  | @done C hpending =>
      obtain rfl : stack = [] := by
        rw [Stacks, hpending] at hstack
        exact List.forall₂_nil_left_iff.mp hstack
      rw [FiniteGraph.explore_nil]
      rfl
  | @visit C D E current rest S later hpending hS hvisit hrest ih =>
      obtain ⟨n, hfinishes⟩ := hrest.finishes
      obtain ⟨T, below, more, rfl, hT, hD, hreads, hmore, hstacks⟩ :=
        Finishes.first_visit hC hpending hvisit hfinishes hsize hstack
      obtain rfl := Option.some.inj (hS.symm.trans hT)
      have hbound : current.toNat < C.configurations.length :=
        (List.getElem?_eq_some_iff.mp hS).1
      have hcurrent : number E.configurations S = current := by
        refine Automaton.number_getElem (hfinishes.outcome hD).1.nodup ?_
        rw [hmore, hreads.configurations, List.append_assoc,
          List.getElem?_append_left hbound, hS]
      have hfirst : A.alphabet.toList.map (fun a =>
          (⟨current, a, A.relation.successorRecords S a⟩ : Expansion)) =
          expansionsOf A E.configurations S := by rw [expansionsOf, hcurrent]
      have hlater := ih hD hsize hstacks
      rw [hreads.configurations] at hlater
      rw [FiniteGraph.explore_cons, hfirst, hlater, List.flatMap_cons]
      rfl

/-- Only configurations that the search finds are ever met, also with truncated numbers. -/
theorem Finishes.met {n : Nat} (h : Finishes A C n D) (hC : Sound A C)
    (hmet : C.configurations ⊆ A.exploration.found) :
    D.configurations ⊆ A.exploration.found := by
  induction h with
  | done => exact hmet
  | visit hpending hvisit _ ih =>
      obtain ⟨S, D, hS, hvisit', hD, hreads⟩ := hC.visit hpending
      obtain rfl := Option.some.inj (hvisit.symm.trans hvisit')
      refine ih hD ?_
      rw [hreads.configurations]
      refine List.append_subset.mpr ⟨hmet, fun T hT => ?_⟩
      obtain ⟨hnext, hsome⟩ := List.mem_filter.mp (mem_newcomers.mp hT).1
      obtain ⟨a, _, rfl⟩ := List.mem_map.mp hnext
      refine Automaton.successor_mem_exploration (hmet (List.mem_of_getElem? hS)) ?_
      exact SortedSet.isEmpty_eq_false_iff.mp ((Bool.not_eq_true' _).mp hsome)

theorem Finishes.length_le {n : Nat} (h : Finishes A (.start A) n D) :
    D.configurations.length ≤ A.determinize.configurations.length := by
  have hmet : D.configurations ⊆ A.exploration.found := by
    refine h.met (sound_start A) fun S hS => ?_
    obtain rfl : S = A.initial := List.mem_singleton.mp hS
    exact List.mem_of_getElem? A.exploration_head
  have hdistinct := (h.outcome (sound_start A)).1.nodup
  exact (List.subperm_of_subset hdistinct hmet).length_le

/-- The expansions of all configurations, in the order of the visits. -/
def expansions (A : Automaton) : List Expansion :=
  A.exploration.visited.flatMap (expansionsOf A A.exploration.found)

theorem mem_expansions {x : Expansion} :
    x ∈ expansions A ↔ ∃ S ∈ A.exploration.found, ∃ a ∈ A.alphabet,
      ⟨number A.exploration.found S, a, A.relation.successorRecords S a⟩ = x := by
  rw [expansions, List.mem_flatMap]
  simp only [A.visited_exploration_perm.mem_iff, expansionsOf, List.mem_map, SortedSet.mem_toList]

theorem flatMap_records_expansions (A : Automaton) :
    (expansions A).flatMap Expansion.records = A.visitRecords := by
  rw [expansions, List.flatMap_assoc]
  simp only [expansionsOf, List.flatMap_map]
  rfl

theorem nodup_pairs (hsize : A.determinize.configurations.length ≤ 2 ^ 32) :
    ((expansions A).map Expansion.pair).Nodup := by
  have hrows : ((A.exploration.found.flatMap (expansionsOf A A.exploration.found)).map
      Expansion.pair).Nodup := by
    rw [List.map_flatMap]
    refine Automaton.nodup_flatMap_found hsize Prod.fst (fun S => ?_) fun S y hy => ?_
    · rw [expansionsOf, List.map_map]
      exact A.alphabet.nodup_toList.map fun a b hab => (Prod.mk.inj hab).2
    · simp only [expansionsOf, List.map_map, List.mem_map] at hy
      obtain ⟨a, _, rfl⟩ := hy
      rfl
  exact ((A.visited_exploration_perm.flatMap_right _).map _).nodup_iff.mpr hrows

theorem mem_pairs (hsize : A.determinize.configurations.length ≤ 2 ^ 32) {i : State}
    {a : Letter} : (i, a) ∈ (expansions A).map Expansion.pair ↔
      i.toNat < A.determinize.configurations.length ∧ a ∈ A.alphabet := by
  simp only [List.mem_map, mem_expansions]
  constructor
  · rintro ⟨x, ⟨S, hS, b, hb, rfl⟩, hpair⟩
    obtain ⟨rfl, rfl⟩ := Prod.mk.inj hpair
    exact ⟨(List.getElem?_eq_some_iff.mp (Automaton.getElem?_number hsize hS)).1, hb⟩
  · rintro ⟨hi, ha⟩
    have hS : A.StandsFor i A.determinize.configurations[i.toNat] := List.getElem?_eq_getElem hi
    obtain ⟨hmem, hnumber⟩ := (Automaton.standsFor_iff_number hsize i _).mp hS
    exact ⟨_, ⟨_, hmem, a, ha, rfl⟩, Prod.ext hnumber rfl⟩

theorem exists_edge_iff (hsize : A.determinize.configurations.length ≤ 2 ^ 32) {S : Configuration}
    (hS : S ∈ A.exploration.found) {a : Letter} (ha : a ∈ A.alphabet) :
    (∃ j, ⟨number A.exploration.found S, j, some a⟩ ∈ A.determinize.automaton.relation) ↔
      A.relation.successor S a ≠ ∅ := by
  constructor
  · rintro ⟨j, hedge⟩
    obtain ⟨_, T, next, hi, hj, rfl⟩ := (Automaton.edge_determinize_iff hsize _ _ _).mp hedge
    obtain rfl := hi.unique ((Automaton.standsFor_iff_number hsize _ S).mpr ⟨hS, rfl⟩)
    exact hj.ne_empty
  · exact fun hne => ⟨_, Automaton.mem_determinize_relation.mpr ⟨S, hS, a, ha, hne, rfl⟩⟩

/-- An expansion leaves a record exactly when there are epsilon edges and it adds an edge. -/
theorem records_of_mem_expansions (hsize : A.determinize.configurations.length ≤ 2 ^ 32)
    {x : Expansion} (hx : x ∈ expansions A) :
    x.records.length ≤ 1 ∧ (x.records ≠ [] ↔ A.relation.epsilon ≠ ∅ ∧
      ∃ j, ⟨x.number, j, some x.letter⟩ ∈ A.determinize.automaton.relation) := by
  obtain ⟨S, hS, a, ha, rfl⟩ := mem_expansions.mp hx
  rw [exists_edge_iff hsize hS ha]
  dsimp only
  by_cases hedges : A.relation.epsilon = ∅
  · rw [TransitionRelation.successorRecords_of_no_epsilon hedges]
    simp [hedges]
  · have hlength := TransitionRelation.length_successorRecords hedges
      ((A.mem_exploration_iff S).mp hS).1 a
    rw [and_iff_right hedges, ← List.length_pos_iff, hlength]
    split <;> simp_all

end Construction

namespace Automaton

/-- The closures that determinizing records: the initial one, then those on the visits. -/
def recordedClosures (A : Automaton) : List Event := A.initialRecords ++ A.visitRecords

theorem length_recordedClosures {A : Automaton}
    (hsize : A.determinize.configurations.length ≤ 2 ^ 32) : A.recordedClosures.length =
      if A.relation.epsilon = ∅ then 0 else 1 + A.determinize.automaton.relation.size := by
  rw [recordedClosures, List.length_append, initialRecords]
  split
  next hnone =>
    rw [TransitionRelation.closureRecords_of_no_epsilon hnone]
    simp [visitRecords, TransitionRelation.successorRecords_of_no_epsilon hnone]
  next hedges =>
    rw [TransitionRelation.closureRecords_of_ne_empty hedges
      (SortedSet.ofList_singleton_ne_empty _), length_visitRecords hsize hedges,
      List.length_singleton]

theorem closed_of_mem_recordedClosures {A : Automaton} {e : Event} (he : e ∈ A.recordedClosures) :
    ∃ before after, e = .closed before after := by
  rcases List.mem_append.mp he with hinitial | hvisit
  · exact TransitionRelation.closed_of_mem_closureRecords hinitial
  · obtain ⟨S, _, hS⟩ := List.mem_flatMap.mp hvisit
    obtain ⟨a, _, ha⟩ := List.mem_flatMap.mp hS
    exact TransitionRelation.closed_of_mem_successorRecords ha

theorem determinizeRecords_eq {A : Automaton}
    (hsize : A.determinize.configurations.length ≤ 2 ^ 32) :
    let D := A.determinize
    let m := D.automaton.relation.size
    A.determinizeRecords = A.recordedClosures ++
      [Event.explored A.relation.states.size D.configurations.length m, Event.relationMade m 0,
        Event.automatonMade A.alphabet.size m 0 D.automaton.accepting.size] := by
  intro D m
  have hexplored : (A.configurationEdges D.configurations).length = m :=
    (size_determinize_relation hsize).symm
  have hlabeled : D.automaton.relation.labeled.size = m := by
    change _ = D.automaton.relation.labeled.size + D.automaton.relation.epsilon.size
    rw [epsilon_determinize]
    rfl
  have hmade : D.automaton.relation.made = Event.relationMade m 0 := by
    rw [TransitionRelation.made, hlabeled, epsilon_determinize]
    rfl
  unfold determinizeRecords
  dsimp only
  rw [hexplored, hmade]
  rfl

/-- Determinizing expands each configuration with each letter once, and its records show this. With
`m` edges in the determinized automaton, first come the closures: none without epsilon edges, and
otherwise the initial one and one for each edge. Then come the exploration with `m` edges, the
relation with `m` labelled edges and no others, and the automaton with `m` edges. The construction
on state numbers comes to an end in one way only. What it expands on the way are the pairs of a
number in use and a letter of the alphabet, each of them once, and the closures are recorded by the
expansions in this order: one by each expansion that adds an edge, if there are epsilon edges, and
none by the others. No edge is added twice, so that there are `m` of them before any repetition is
dropped. -/
theorem determinize_records (A : Automaton)
    (hsize : A.determinize.configurations.length ≤ 2 ^ 32) :
    let D := A.determinize
    let m := D.automaton.relation.size
    ∃ (closures : List Event) (expansions : List Construction.Expansion) (C : Construction),
      A.determinizeRecords = closures ++
        [Event.explored A.relation.states.size D.configurations.length m, Event.relationMade m 0,
          Event.automatonMade A.alphabet.size m 0 D.automaton.accepting.size] ∧
      (∀ e ∈ closures, e.level = Level.trace ∧ ∃ before after, e = .closed before after) ∧
      closures.length = (if A.relation.epsilon = ∅ then 0 else 1 + m) ∧
      (∀ other E, Construction.Expands A (Construction.start A) other E ↔
        other = expansions ∧ E = C) ∧
      closures = A.initialRecords ++ expansions.flatMap Construction.Expansion.records ∧
      (expansions.map Construction.Expansion.pair).Nodup ∧
      (∀ i a, (i, a) ∈ expansions.map Construction.Expansion.pair ↔
        i.toNat < D.configurations.length ∧ a ∈ A.alphabet) ∧
      (∀ x ∈ expansions, x.records.length ≤ 1 ∧ (x.records ≠ [] ↔ A.relation.epsilon ≠ ∅ ∧
        ∃ j, (⟨x.number, j, some x.letter⟩ : Edge) ∈ C.edges)) ∧
      C.configurations = D.configurations ∧ C.edges.Nodup ∧ C.edges.length = m ∧
      (∀ e, e ∈ C.edges ↔ e ∈ D.automaton.relation) := by
  intro D m
  have hstart := Construction.sound_start A
  obtain ⟨n, C, hfinishes⟩ := hstart.exists_finishes
  obtain ⟨expansions, hexpands⟩ := hfinishes.expands hstart
  have hfits := hfinishes.length_le.trans hsize
  obtain ⟨hconfigurations, hperm⟩ := hfinishes.from_start hfits
  have hlisted : expansions = Construction.expansions A := by
    rw [hexpands.explored hstart hfits (Construction.stacks_start A), hconfigurations]
    rfl
  have hmem (e : Edge) : e ∈ C.edges ↔ e ∈ D.automaton.relation :=
    hperm.mem_iff.trans TransitionRelation.mem_ofList.symm
  refine ⟨A.recordedClosures, expansions, C, determinizeRecords_eq hsize, fun e he => ?_,
    length_recordedClosures hsize, fun other E => ?_, ?_, ?_, fun i a => ?_, fun x hx => ?_,
    hconfigurations, ?_, ?_, hmem⟩
  · obtain ⟨before, after, rfl⟩ := closed_of_mem_recordedClosures he
    exact ⟨rfl, before, after, rfl⟩
  · constructor
    · exact hexpands.unique
    · rintro ⟨rfl, rfl⟩
      exact hexpands
  · rw [hlisted, Construction.flatMap_records_expansions]
    rfl
  · exact hlisted ▸ Construction.nodup_pairs hsize
  · exact hlisted ▸ Construction.mem_pairs hsize
  · simp only [hmem]
    exact Construction.records_of_mem_expansions hsize (hlisted ▸ hx)
  · exact hperm.nodup_iff.mpr (nodup_configurationEdges hsize)
  · exact hperm.length_eq.trans (size_determinize_relation hsize).symm

/-- Six of the nine expansions of `epsilonCycle` add an edge, and each of these records a closure
behind the initial one. -/
theorem determinize_records_epsilonCycle :
    epsilonCycle.determinize.configurations.length ≤ 2 ^ 32 ∧
    ∃ closures expansions C,
      epsilonCycle.determinizeRecords =
        closures ++ [Event.explored 3 3 6, Event.relationMade 6 0, Event.automatonMade 3 6 0 2] ∧
      closures.length = 7 ∧
      Construction.Expands epsilonCycle (.start epsilonCycle) expansions C ∧
      (2, "c") ∈ expansions.map Construction.Expansion.pair ∧ C.edges.length = 6 := by
  have hsize : epsilonCycle.determinize.configurations.length ≤ 2 ^ 32 := by decide +kernel
  obtain ⟨closures, expansions, C, hrecords, _, hlength, hexpands, _, _, hpairs, _, _, _, hedges,
    _⟩ := determinize_records epsilonCycle hsize
  have hcounts : epsilonCycle.relation.states.size = 3 ∧
      epsilonCycle.determinize.configurations.length = 3 ∧
      epsilonCycle.determinize.automaton.relation.size = 6 ∧ epsilonCycle.alphabet.size = 3 ∧
      epsilonCycle.determinize.automaton.accepting.size = 2 ∧
      epsilonCycle.relation.epsilon ≠ ∅ := by decide +kernel
  obtain ⟨hstates, hconfigurations, hm, hletters, haccepting, hepsilon⟩ := hcounts
  rw [hstates, hconfigurations, hm, hletters, haccepting] at hrecords
  rw [if_neg hepsilon, hm] at hlength
  refine ⟨hsize, closures, expansions, C, hrecords, hlength, (hexpands _ _).mpr ⟨rfl, rfl⟩,
    (hpairs _ _).mpr ?_, hedges.trans hm⟩
  rw [hconfigurations]
  exact ⟨by decide, by decide +kernel⟩

end Automaton

end FormalLanguage
