import FormalLanguage.Automaton.Determinized
import FormalLanguage.Proofs.ForeignLetters
import FormalLanguage.Proofs.SubsetConstruction

/-!
Determinizing on state numbers comes to an end, never looks up a number in vain and never meets
an edge that its alphabet does not allow. Everything follows from what one visit leaves: the
configurations that can be read off the visited one are appended if they are new, their numbers are
stacked, and one edge is added for each letter that leads anywhere. Only non-empty sets of states
of a run are met, each once, so their number is bounded, and every visit is paid for by one of
them. As long as the numbers suffice, the search on numbers meets what the search on
configurations meets, in the same order.
-/

namespace FormalLanguage

open Automaton (number configurationEdge)

theorem SortedSet.length_powerset (Q : SortedSet State) : Q.powerset.length = 2 ^ Q.size := by
  rw [powerset, List.length_map, List.length_finRange]
  rfl

theorem Automaton.epsilonClosed_runStates (A : Automaton) :
    A.relation.EpsilonClosed A.runStates := by
  intro p _ q hstep
  simpa [runStates] using Or.inr (TransitionRelation.target_mem_states hstep)

theorem Automaton.initial_subset_runStates (A : Automaton) : A.initial ⊆ A.runStates := by
  refine TransitionRelation.epsilonClosure_subset ?_ A.epsilonClosed_runStates
  intro q hq
  obtain rfl := SortedSet.mem_ofList_singleton.mp hq
  simp [runStates]

theorem Automaton.successor_subset_runStates (A : Automaton) (S : Configuration) (a : Letter) :
    A.relation.successor S a ⊆ A.runStates := fun q hq =>
  SortedSet.mem_insert.mpr (Or.inr (TransitionRelation.successor_subset_states _ S a q hq))

/-- The search through the configurations visits each one that it finds once. -/
theorem Automaton.visited_exploration_perm (A : Automaton) :
    A.exploration.visited.Perm A.exploration.found :=
  A.configurationGraph.visited_explore_perm (.refl [A.initial])

/-- Of different sets of states of a run, none of them empty, there are less than subsets. -/
theorem Automaton.length_le_of_runStates {A : Automaton} {configurations : List Configuration}
    (hdistinct : configurations.Nodup) (hne : ∀ S ∈ configurations, S ≠ ∅ ∧ S ⊆ A.runStates) :
    configurations.length ≤ 2 ^ A.runStates.size - 1 := by
  have hnodup : (∅ :: configurations).Nodup :=
    List.nodup_cons.mpr ⟨fun hempty => (hne ∅ hempty).1 rfl, hdistinct⟩
  have hsubset : ∅ :: configurations ⊆ A.runStates.powerset := by
    refine List.cons_subset.mpr ⟨SortedSet.mem_powerset.mpr ?_, fun S hS => ?_⟩
    · exact fun q hq => absurd hq (SortedSet.not_mem_empty q)
    · simpa using (hne S hS).2
  have hlength := (List.subperm_of_subset hnodup hsubset).length_le
  rw [SortedSet.length_powerset, List.length_cons] at hlength
  omega

namespace Construction

variable {A : Automaton} {C D E : Construction} {S : Configuration} {letters : List Letter}

/-- The configurations that the letters lead to, in the order of the letters. -/
def reached (A : Automaton) (S : Configuration) (letters : List Letter) : List Configuration :=
  (letters.map (A.relation.successor S)).filter fun next => !next.isEmpty

/-- What holds of a construction between any two steps. The numbers are those of the places in the
table, truncated where they do not suffice, and a truncated number still has its place. -/
structure Sound (A : Automaton) (C : Construction) : Prop where
  keys : C.numbers.entries.map Prod.fst = C.configurations
  numbered : ∀ entry ∈ C.numbers.entries, entry.2 = number C.configurations entry.1
  inhabited : ∀ S ∈ C.configurations, S ≠ ∅ ∧ S ⊆ A.runStates
  bounded : ∀ i ∈ C.pending, i.toNat < C.configurations.length
  letters : ∀ e ∈ C.edges, e.readsFrom A.alphabet = true

/-- What reading letters in a configuration adds to a construction: the new ones among the
configurations that the letters lead to, their numbers on top of the stack, and an edge for each
letter that leads to any. -/
structure Reads (A : Automaton) (S : Configuration) (letters : List Letter)
    (C D : Construction) : Prop where
  configurations :
    D.configurations = C.configurations ++ newcomers C.configurations (reached A S letters)
  pending : D.pending =
    ((newcomers C.configurations (reached A S letters)).map
      (number D.configurations)).reverse ++ C.pending
  edges : D.edges = C.edges ++ letters.filterMap (A.configurationEdge D.configurations S)

theorem Sound.nodup (h : Sound A C) : C.configurations.Nodup := h.keys ▸ C.numbers.distinct

theorem Sound.length_le (h : Sound A C) : C.configurations.length ≤ 2 ^ A.runStates.size - 1 :=
  Automaton.length_le_of_runStates h.nodup h.inhabited

theorem sound_start (A : Automaton) : Sound A (start A) where
  keys := rfl
  numbered := by
    intro entry hentry
    obtain rfl : entry = (A.initial, 0) := List.mem_singleton.mp hentry
    exact (Automaton.number_getElem (List.nodup_singleton _) rfl).symm
  inhabited := by
    intro S hS
    obtain rfl : S = A.initial := List.mem_singleton.mp hS
    exact ⟨A.initial_ne_empty, A.initial_subset_runStates⟩
  bounded := by
    intro i hi
    obtain rfl : i = 0 := List.mem_singleton.mp hi
    exact Nat.zero_lt_one
  letters := fun _ he => nomatch he

/-- Popping a number keeps a construction sound. -/
theorem Sound.pop (h : Sound A C) {current : State} {rest : List State}
    (hpending : C.pending = current :: rest) : Sound A { C with pending := rest } where
  keys := h.keys
  numbered := h.numbered
  inhabited := h.inhabited
  bounded i hi := h.bounded i (hpending ▸ List.mem_cons_of_mem current hi)
  letters := h.letters

theorem toNat_ofNat_le (n : Nat) : (UInt32.ofNat n).toNat ≤ n := by
  rw [UInt32.toNat_ofNat']
  exact Nat.mod_le _ _

theorem Sound.entries_insert (h : Sound A C) (hnew : S ∉ C.configurations) (i : State) :
    (C.numbers.insert (S, i)).entries = C.numbers.entries ++ [(S, i)] := by
  rw [KeyedSet.entries_insert, h.keys, if_neg hnew]

/-- A configuration that was not met yet gets the number of its place. -/
theorem Sound.append (h : Sound A C) (hne : S ≠ ∅) (hsubset : S ⊆ A.runStates)
    (hnew : S ∉ C.configurations) :
    Sound A { C with
      numbers := C.numbers.insert (S, UInt32.ofNat C.configurations.length)
      configurations := C.configurations ++ [S]
      pending := UInt32.ofNat C.configurations.length :: C.pending } where
  keys := by
    rw [h.entries_insert hnew, List.map_append, h.keys]
    rfl
  numbered := by
    intro entry hentry
    rw [h.entries_insert hnew] at hentry
    rcases List.mem_append.mp hentry with hold | hlast
    · have hmem : entry.1 ∈ C.configurations := h.keys ▸ List.mem_map_of_mem hold
      rw [Automaton.number_append hmem]
      exact h.numbered entry hold
    · obtain rfl := List.mem_singleton.mp hlast
      exact (Automaton.number_fresh hnew).symm
  inhabited := by
    intro T hT
    rcases List.mem_append.mp hT with hold | hlast
    · exact h.inhabited T hold
    · obtain rfl := List.mem_singleton.mp hlast
      exact ⟨hne, hsubset⟩
  bounded := by
    intro i hi
    rw [List.length_append, List.length_singleton, Nat.lt_succ_iff]
    rcases List.mem_cons.mp hi with rfl | hrest
    · exact toNat_ofNat_le _
    · exact Nat.le_of_lt (h.bounded i hrest)
  letters := h.letters

theorem Sound.meet (h : Sound A C) (hne : S ≠ ∅) (hsubset : S ⊆ A.runStates) :
    ∃ D, C.meet S = (number D.configurations S, D) ∧ Sound A D ∧
      D.configurations = C.configurations ++ newcomers C.configurations [S] ∧
      D.pending = ((newcomers C.configurations [S]).map (number D.configurations)).reverse ++
        C.pending ∧
      D.edges = C.edges := by
  unfold Construction.meet
  split
  next T known hfind =>
    obtain ⟨hentry, rfl⟩ := KeyedSet.mem_and_key_of_find?_eq_some hfind
    have hmem : T ∈ C.configurations := h.keys ▸ List.mem_map_of_mem hentry
    refine ⟨C, ?_, h, by simp [newcomers, hmem], by simp [newcomers, hmem], rfl⟩
    rw [← h.numbered _ hentry]
  next hfind =>
    have hnew : S ∉ C.configurations := h.keys ▸ KeyedSet.find?_eq_none.mp hfind
    have hnumber := Automaton.number_fresh hnew
    refine ⟨_, ?_, h.append hne hsubset hnew, by simp [newcomers, hnew],
      by simp [newcomers, hnew, hnumber], rfl⟩
    rw [hnumber]

theorem Sound.read (h : Sound A C) {current : State}
    (hS : C.configurations[current.toNat]? = some S) {a : Letter} (ha : a ∈ A.alphabet) :
    ∃ D, read A current C a = some D ∧ Sound A D ∧ Reads A S [a] C D := by
  rw [Construction.read, hS, Option.map_some]
  by_cases hempty : (A.relation.successor S a).isEmpty = true
  · refine ⟨C, by rw [if_pos hempty], h, ?_, ?_, ?_⟩
    · simp [reached, hempty, newcomers]
    · simp [reached, hempty, newcomers]
    · simp [configurationEdge, hempty]
  · have hne : A.relation.successor S a ≠ ∅ := mt SortedSet.isEmpty_iff.mpr hempty
    obtain ⟨D, hmeet, hsound, hconfigurations, hpending, hedges⟩ :=
      h.meet hne (A.successor_subset_runStates S a)
    have hreached : reached A S [a] = [A.relation.successor S a] := by simp [reached, hempty]
    have hsource : number D.configurations S = current := by
      rw [hconfigurations, Automaton.number_append (List.mem_of_getElem? hS),
        Automaton.number_getElem h.nodup hS]
    rw [if_neg hempty, hmeet]
    refine ⟨_, rfl, ⟨hsound.keys, hsound.numbered, hsound.inhabited, hsound.bounded, ?_⟩, ?_⟩
    · intro e he
      rcases List.mem_append.mp he with hold | hlast
      · exact hsound.letters e hold
      · obtain rfl := List.mem_singleton.mp hlast
        simpa [Edge.readsFrom] using ha
    · constructor
      · rw [hreached]
        exact hconfigurations
      · rw [hreached]
        exact hpending
      · simp [configurationEdge, hempty, hedges, hsource]

theorem Reads.nil (A : Automaton) (S : Configuration) (C : Construction) : Reads A S [] C C where
  configurations := by simp [reached, newcomers]
  pending := by simp [reached, newcomers]
  edges := by simp

theorem Reads.mem_of_mem (h : Reads A S letters C D) {a : Letter} (ha : a ∈ letters)
    (hne : A.relation.successor S a ≠ ∅) : A.relation.successor S a ∈ D.configurations := by
  have hreached : A.relation.successor S a ∈ reached A S letters := by
    refine List.mem_filter.mpr ⟨List.mem_map_of_mem ha, ?_⟩
    simpa using SortedSet.isEmpty_eq_false_iff.mpr hne
  rw [h.configurations, List.mem_append, mem_newcomers]
  tauto

/-- Edges keep their numbers when more configurations are met. -/
theorem Reads.edges_append (h : Reads A S letters C D) (hS : S ∈ C.configurations)
    (more : List Configuration) :
    letters.filterMap (A.configurationEdge (D.configurations ++ more) S) =
      letters.filterMap (A.configurationEdge D.configurations S) := by
  have hmem : S ∈ D.configurations := h.configurations ▸ List.mem_append_left _ hS
  apply List.filterMap_congr
  intro a ha
  unfold configurationEdge
  by_cases hempty : (A.relation.successor S a).isEmpty = true
  · simp [hempty]
  · have hnext := h.mem_of_mem ha (mt SortedSet.isEmpty_iff.mpr hempty)
    simp [hempty, Automaton.number_append hmem, Automaton.number_append hnext]

theorem Reads.append {more : List Letter} (h : Reads A S letters C D) (h' : Reads A S more D E)
    (hS : S ∈ C.configurations) : Reads A S (letters ++ more) C E := by
  have hreached : reached A S (letters ++ more) = reached A S letters ++ reached A S more := by
    rw [reached, reached, reached, List.map_append, List.filter_append]
  have hnew : newcomers C.configurations (reached A S (letters ++ more)) =
      newcomers C.configurations (reached A S letters) ++
        newcomers D.configurations (reached A S more) := by
    rw [hreached, newcomers_append, ← h.configurations]
  constructor
  · rw [hnew, h'.configurations, h.configurations, List.append_assoc]
  · have hnumbers : (newcomers C.configurations (reached A S letters)).map
        (number E.configurations) =
        (newcomers C.configurations (reached A S letters)).map (number D.configurations) := by
      apply List.map_congr_left
      intro T hT
      have hmem : T ∈ D.configurations := h.configurations ▸ List.mem_append_right _ hT
      rw [h'.configurations, Automaton.number_append hmem]
    rw [hnew, List.map_append, List.reverse_append, hnumbers, h'.pending, h.pending,
      List.append_assoc]
  · have hedges := h.edges_append hS (newcomers D.configurations (reached A S more))
    rw [← h'.configurations] at hedges
    rw [List.filterMap_append, hedges, h'.edges, h.edges, List.append_assoc]

theorem Sound.readAll (h : Sound A C) {current : State}
    (hS : C.configurations[current.toNat]? = some S) (hletters : ∀ a ∈ letters, a ∈ A.alphabet) :
    ∃ D, letters.foldlM (Construction.read A current) C = some D ∧ Sound A D ∧
      Reads A S letters C D := by
  induction letters generalizing C with
  | nil => exact ⟨C, rfl, h, .nil A S C⟩
  | cons a letters ih =>
      obtain ⟨ha, hrest⟩ := List.forall_mem_cons.mp hletters
      obtain ⟨D, hread, hD, hfirst⟩ := h.read hS ha
      have hSD : D.configurations[current.toNat]? = some S := by
        rw [hfirst.configurations,
          List.getElem?_append_left (List.getElem?_eq_some_iff.mp hS).1, hS]
      obtain ⟨E, hall, hE, hlater⟩ := ih hD hSD hrest
      refine ⟨E, ?_, hE, hfirst.append hlater (List.mem_of_getElem? hS)⟩
      rw [List.foldlM_cons, hread]
      exact hall

/-- A visit succeeds, since every pending number has its place in the table. -/
theorem Sound.visit (h : Sound A C) {current : State} {rest : List State}
    (hpending : C.pending = current :: rest) :
    ∃ S D, C.configurations[current.toNat]? = some S ∧
      visit A current { C with pending := rest } = some D ∧ Sound A D ∧
      Reads A S A.alphabet.toList { C with pending := rest } D := by
  have hbound : current.toNat < C.configurations.length := h.bounded current (by simp [hpending])
  have hS := List.getElem?_eq_getElem hbound
  obtain ⟨D, hvisit, hD, hreads⟩ := (h.pop hpending).readAll hS fun a ha => ha
  exact ⟨_, D, hS, hvisit, hD, hreads⟩

/-- What is met on a visit is both listed and stacked. -/
theorem Reads.length_eq (h : Reads A S letters C D) :
    D.configurations.length + C.pending.length =
      C.configurations.length + D.pending.length := by
  rw [h.configurations, h.pending]
  simp only [List.length_append, List.length_reverse, List.length_map]
  omega

theorem Reads.edges_length_le (h : Reads A S letters C D) :
    D.edges.length ≤ C.edges.length + letters.length := by
  rw [h.edges, List.length_append]
  exact Nat.add_le_add_left (List.length_filterMap_le _ _) _

/-- Every visit uses up one of the numbers that are pending or, at most, still to be given. -/
theorem Sound.exists_finishes (h : Sound A C) : ∃ n D, Finishes A C n D := by
  obtain ⟨fuel, hfuel⟩ : ∃ fuel, 2 ^ A.runStates.size - 1 + C.pending.length ≤
      fuel + C.configurations.length := ⟨_, Nat.le_add_right _ _⟩
  induction fuel generalizing C with
  | zero =>
      have hlength := h.length_le
      have hpending : C.pending = [] := List.length_eq_zero_iff.mp (by omega)
      exact ⟨0, C, .done hpending⟩
  | succ fuel ih =>
      cases hpending : C.pending with
      | nil => exact ⟨0, C, .done hpending⟩
      | cons current rest =>
          obtain ⟨S, D, _, hvisit, hD, hreads⟩ := h.visit hpending
          have hlength := hreads.length_eq
          rw [hpending, List.length_cons] at hfuel
          simp only at hlength
          obtain ⟨n, E, hE⟩ := ih hD (by omega)
          exact ⟨n + 1, E, .visit hpending hvisit hE⟩

theorem Finishes.outcome {n : Nat} (h : Finishes A C n D) (hC : Sound A C) :
    Sound A D ∧ (∃ more, D.configurations = C.configurations ++ more) ∧
      n + C.configurations.length = D.configurations.length + C.pending.length ∧
      D.edges.length ≤ C.edges.length + n * A.alphabet.size := by
  induction h with
  | done hpending => exact ⟨hC, ⟨[], by simp⟩, by simp [hpending], by simp⟩
  | visit hpending hvisit _ ih =>
      obtain ⟨S, D, _, hvisit', hD, hreads⟩ := hC.visit hpending
      obtain rfl := Option.some.inj (hvisit.symm.trans hvisit')
      obtain ⟨hE, ⟨more, hmore⟩, hlength, hedges⟩ := ih hD
      have hlist := hreads.length_eq
      have hadded := hreads.edges_length_le
      refine ⟨hE, ⟨_, by rw [hmore, hreads.configurations, List.append_assoc]⟩, ?_, ?_⟩
      · rw [hpending, List.length_cons]
        simp only at hlist
        omega
      · rw [Nat.succ_mul]
        simp only [SortedSet.size] at hadded hedges ⊢
        omega

/-- The pending numbers stand for the configurations on a stack. -/
def Stacks (C : Construction) (stack : List Configuration) : Prop :=
  List.Forall₂ (fun (i : State) S => C.configurations[i.toNat]? = some S) C.pending stack

/-- The new numbers stand for the new configurations, and the old ones for what they did. -/
theorem Reads.stacks (h : Reads A S letters C D) (hsize : D.configurations.length ≤ 2 ^ 32)
    {stack : List Configuration} (hstack : C.Stacks stack) :
    D.Stacks ((newcomers C.configurations (reached A S letters)).reverse ++ stack) := by
  rw [Stacks, h.pending, ← List.map_reverse]
  refine List.rel_append ?_ (List.Forall₂.imp (fun i T hi => ?_) hstack)
  · refine List.forall₂_map_left_iff.mpr (List.forall₂_same.mpr fun T hT => ?_)
    refine Automaton.getElem?_number hsize ?_
    rw [h.configurations]
    exact List.mem_append_right _ (List.mem_reverse.mp hT)
  · rw [h.configurations, List.getElem?_append_left (List.getElem?_eq_some_iff.mp hi).1, hi]

/-- While the numbers suffice, the first visit of a construction is to the configuration on top of
the stack, and it puts the new ones in its place. -/
theorem Finishes.first_visit {current : State} {rest : List State} {n : Nat} (hC : Sound A C)
    (hpending : C.pending = current :: rest)
    (hvisit : Construction.visit A current { C with pending := rest } = some D)
    (hrest : Finishes A D n E)
    (hsize : E.configurations.length ≤ 2 ^ 32) {stack : List Configuration}
    (hstack : C.Stacks stack) :
    ∃ S below more, stack = S :: below ∧ C.configurations[current.toNat]? = some S ∧ Sound A D ∧
      Reads A S A.alphabet.toList { C with pending := rest } D ∧
      E.configurations = D.configurations ++ more ∧
      D.Stacks ((newcomers C.configurations (reached A S A.alphabet.toList)).reverse ++ below) := by
  obtain ⟨S, D', hS, hvisit', hD, hreads⟩ := hC.visit hpending
  obtain rfl := Option.some.inj (hvisit.symm.trans hvisit')
  obtain ⟨_, ⟨more, hmore⟩, _, _⟩ := hrest.outcome hD
  rw [Stacks, hpending] at hstack
  obtain ⟨T, below, hT, hbelow, rfl⟩ := List.forall₂_cons_left_iff.mp hstack
  obtain rfl : S = T := Option.some.inj (hS.symm.trans hT)
  have hfits : D.configurations.length ≤ 2 ^ 32 := by
    rw [hmore, List.length_append] at hsize
    omega
  exact ⟨S, below, more, rfl, hS, hD, hreads, hmore, hreads.stacks hfits hbelow⟩

/-- While the numbers suffice, a construction meets what the search on configurations meets, in the
same order, and reads the same letters in them. -/
theorem Finishes.explored {n : Nat} (h : Finishes A C n D) (hC : Sound A C)
    (hsize : D.configurations.length ≤ 2 ^ 32) {stack : List Configuration}
    (hstack : C.Stacks stack) :
    let search := A.configurationGraph.explore C.configurations stack
    D.configurations = search.found ∧
      D.edges = C.edges ++ search.visited.flatMap fun S =>
        A.alphabet.toList.filterMap (A.configurationEdge D.configurations S) := by
  induction h generalizing stack with
  | @done C hpending =>
      obtain rfl : stack = [] := by
        rw [Stacks, hpending] at hstack
        exact List.forall₂_nil_left_iff.mp hstack
      rw [FiniteGraph.explore_nil]
      exact ⟨rfl, by simp⟩
  | visit hpending hvisit hrest ih =>
      obtain ⟨S, below, more, rfl, hS, hD, hreads, hmore, hstacks⟩ :=
        first_visit hC hpending hvisit hrest hsize hstack
      obtain ⟨hfound, hedges⟩ := ih hD hsize hstacks
      rw [hreads.configurations] at hfound hedges
      rw [FiniteGraph.explore_cons]
      refine ⟨hfound, ?_⟩
      rw [hedges, hreads.edges, ← hreads.edges_append (List.mem_of_getElem? hS) more, ← hmore,
        List.append_assoc, List.flatMap_cons]
      rfl

theorem stacks_start (A : Automaton) : (start A).Stacks [A.initial] := .cons rfl .nil

/-- A construction from the start meets the configurations that the search finds, and collects the
edges between them in the order of the visits. -/
theorem Finishes.from_start {n : Nat} (h : Finishes A (.start A) n C)
    (hsize : C.configurations.length ≤ 2 ^ 32) : C.configurations = A.exploration.found ∧
      C.edges.Perm (A.configurationEdges A.exploration.found) := by
  obtain ⟨hfound, hedges⟩ := h.explored (sound_start A) hsize (stacks_start A)
  have hconfigurations : C.configurations = A.exploration.found := hfound
  refine ⟨hconfigurations, ?_⟩
  rw [hedges, hconfigurations]
  exact A.visited_exploration_perm.flatMap_right _

theorem mem_accepting_iff (hdistinct : C.configurations.Nodup) {i : State} :
    i ∈ C.accepting A ↔ i ∈ A.acceptingNumbers C.configurations := by
  simp only [accepting, Automaton.acceptingNumbers, List.mem_map, List.mem_filter, Prod.exists,
    List.mem_zipIdx_iff_getElem?]
  constructor
  · rintro ⟨S, k, ⟨hget, haccepts⟩, rfl⟩
    obtain ⟨hbound, rfl⟩ := List.getElem?_eq_some_iff.mp hget
    refine ⟨_, ⟨List.getElem_mem hbound, haccepts⟩, ?_⟩
    rw [number, hdistinct.idxOf_getElem k hbound]
  · rintro ⟨S, ⟨hS, haccepts⟩, rfl⟩
    have hplace := List.idxOf_lt_length_of_mem hS
    refine ⟨S, C.configurations.idxOf S, ⟨?_, haccepts⟩, rfl⟩
    rw [List.getElem?_eq_getElem hplace, List.getElem_idxOf hplace]

/-- A construction does not get to choose. -/
theorem Finishes.unique {n m : Nat} (h : Finishes A C n D) (h' : Finishes A C m E) :
    m = n ∧ E = D := by
  induction h generalizing m with
  | done hpending =>
      cases h' with
      | done => exact ⟨rfl, rfl⟩
      | visit hpending' => cases hpending.symm.trans hpending'
  | visit hpending hvisit _ ih =>
      cases h' with
      | done hpending' => cases hpending.symm.trans hpending'
      | visit hpending' hvisit' hrest =>
          cases hpending.symm.trans hpending'
          cases hvisit.symm.trans hvisit'
          obtain ⟨rfl, rfl⟩ := ih hrest
          exact ⟨rfl, rfl⟩

end Construction

/-- What a sound construction is put together to. -/
theorem Construction.Sound.assemble {A : Automaton} {C : Construction} (h : C.Sound A) :
    C.assemble A = .ok ⟨A.alphabet, 0, SortedSet.ofList (C.accepting A), .ofList C.edges,
      fun e he => h.letters e (TransitionRelation.mem_ofList.mp he)⟩ :=
  Automaton.build_of_letters_known _

namespace Automaton

theorem determinize_eq_of_finishes {A B : Automaton} {C : Construction} {n : Nat}
    (h : Construction.Finishes A (.start A) n C) (hsize : C.configurations.length ≤ 2 ^ 32)
    (hB : C.assemble A = .ok B) : A.determinize = ⟨B, C.configurations⟩ := by
  have hsound := (h.outcome (Construction.sound_start A)).1
  obtain ⟨hfound, hperm⟩ := h.from_start hsize
  obtain rfl := Except.ok.inj (hsound.assemble.symm.trans hB)
  have hrelation : TransitionRelation.ofList (A.configurationEdges C.configurations) =
      .ofList C.edges := by
    refine congrArg TransitionRelation.mk (SortedSet.ofList_eq fun e => ?_)
    rw [SortedSet.mem_ofList, hfound]
    exact hperm.mem_iff.symm
  have haccepting : SortedSet.ofList (A.acceptingNumbers C.configurations) =
      SortedSet.ofList (C.accepting A) := by
    refine SortedSet.ofList_eq fun i => ?_
    rw [SortedSet.mem_ofList, Construction.mem_accepting_iff hsound.nodup]
  unfold determinize
  simp only [← hfound, hrelation, haccepting]

/-- Determinizing comes to an end and cannot fail. What it meets are non-empty sets of states that
a run can be in, so there are less than two to the power of the number of these. The construction
on state numbers visits each of them once, which means that every number it looks up has its place,
and leaves no choice; it collects at most one edge for each configuration and letter, and these can
be put together to an automaton. With at most 32 states the numbers are sure to suffice, and
whenever they do, none is truncated and what comes out is the determinized automaton. -/
theorem determinize_terminates (A : Automaton) :
    let Q := A.runStates
    ((∀ S ∈ A.determinize.configurations, S ≠ ∅ ∧ S ⊆ Q) ∧
      A.determinize.configurations.length ≤ 2 ^ Q.size - 1) ∧
    ∃ n C B, Construction.Finishes A (.start A) n C ∧
      (∀ m D, Construction.Finishes A (.start A) m D → m = n ∧ D = C) ∧
      n = C.configurations.length ∧ (∀ S ∈ C.configurations, S ≠ ∅ ∧ S ⊆ Q) ∧
      n ≤ 2 ^ Q.size - 1 ∧ C.edges.length ≤ n * A.alphabet.size ∧ C.assemble A = .ok B ∧
      (Q.size ≤ 32 → n ≤ 2 ^ 32) ∧
      (n ≤ 2 ^ 32 → (∀ i < n, (UInt32.ofNat i).toNat = i) ∧
        A.determinize = ⟨B, C.configurations⟩) := by
  intro Q
  have hmet : ∀ S ∈ A.determinize.configurations, S ≠ ∅ ∧ S ⊆ Q := by
    intro S hS
    refine ⟨((A.mem_exploration_iff S).mp hS).1, ?_⟩
    rcases FiniteGraph.found_explore_subset _ _ _ S hS with hstart | hvertex
    · obtain rfl := List.mem_singleton.mp hstart
      exact A.initial_subset_runStates
    · exact fun q hq => SortedSet.mem_insert.mpr (Or.inr (SortedSet.mem_powerset.mp hvertex q hq))
  refine ⟨⟨hmet, length_le_of_runStates A.nodup_exploration hmet⟩, ?_⟩
  have hstart := Construction.sound_start A
  obtain ⟨n, C, hfinishes⟩ := hstart.exists_finishes
  obtain ⟨hsound, _, hrounds, hedges⟩ := hfinishes.outcome hstart
  obtain rfl : n = C.configurations.length := Nat.add_right_cancel hrounds
  have hbound := hsound.length_le
  refine ⟨_, C, _, hfinishes, fun m D => hfinishes.unique, rfl, hsound.inhabited, hbound, ?_,
    hsound.assemble, fun hsmall => ?_, fun hsize => ⟨fun i hi => ?_, ?_⟩⟩
  · exact hedges.trans_eq (Nat.zero_add _)
  · exact hbound.trans ((Nat.sub_le _ _).trans (Nat.pow_le_pow_right (by decide) hsmall))
  · exact UInt32.toNat_ofNat_of_lt' (lt_of_lt_of_le hi hsize)
  · exact determinize_eq_of_finishes hfinishes hsize hsound.assemble

/-- The three states of `epsilonCycle` leave room for seven configurations. -/
theorem determinize_terminates_epsilonCycle :
    epsilonCycle.runStates.size ≤ 32 ∧ epsilonCycle.determinize.configurations.length ≤ 7 ∧
    ∃ n C B, Construction.Finishes epsilonCycle (.start epsilonCycle) n C ∧ n ≤ 2 ^ 32 ∧
      C.assemble epsilonCycle = .ok B ∧ epsilonCycle.determinize = ⟨B, C.configurations⟩ := by
  have hstates : epsilonCycle.runStates.size = 3 := by decide +kernel
  have hsmall : epsilonCycle.runStates.size ≤ 32 := by rw [hstates]; decide
  obtain ⟨⟨_, hbound⟩, n, C, B, hfinishes, _, _, _, _, _, hB, hfits, hsame⟩ :=
    determinize_terminates epsilonCycle
  rw [hstates] at hbound
  exact ⟨hsmall, hbound, n, C, B, hfinishes, hfits hsmall, hB, (hsame (hfits hsmall)).2⟩

end Automaton

end FormalLanguage
