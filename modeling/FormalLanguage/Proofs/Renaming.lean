import FormalLanguage.Automaton.Basic
import FormalLanguage.Proofs.Configurations
import FormalLanguage.Proofs.ParallelRuns
import FormalLanguage.Proofs.SubsetConstruction

/-!
State numbers are only names. When no two states of an automaton receive the same new number, the
paths of the renamed automaton are the renamed paths, and so a word leads to the renamed
configuration. The renamed automaton therefore runs like the original, although its sets of states
and edges are listed in another order, and determinizing gives the same automaton for both.
-/

namespace FormalLanguage

namespace SortedSet

variable {α β : Type} [Ord α] [Ord β] [Std.LawfulEqOrd β] [Std.TransOrd β] {g : α → β}
  {domain : Set α} {s t : SortedSet α}

theorem apply_mem_map_iff (hg : Set.InjOn g domain) (hs : ∀ x ∈ s, x ∈ domain) {x : α}
    (hx : x ∈ domain) : g x ∈ s.map g ↔ x ∈ s := by
  rw [mem_map]
  constructor
  · rintro ⟨y, hy, hsame⟩
    rwa [← hg (hs y hy) hx hsame]
  · exact fun hmem => ⟨x, hmem, rfl⟩

variable [Std.LawfulEqOrd α] [Std.TransOrd α]

theorem map_inj_of_injOn (hg : Set.InjOn g domain) (hs : ∀ x ∈ s, x ∈ domain)
    (ht : ∀ x ∈ t, x ∈ domain) : s.map g = t.map g ↔ s = t := by
  constructor
  · intro hsame
    apply ext
    intro x
    constructor
    · intro hx
      rwa [← apply_mem_map_iff hg ht (hs x hx), ← hsame, apply_mem_map_iff hg hs (hs x hx)]
    · intro hx
      rwa [← apply_mem_map_iff hg hs (ht x hx), hsame, apply_mem_map_iff hg ht (ht x hx)]
  · rintro rfl
    rfl

end SortedSet

namespace TransitionRelation

variable {f : TransitionRelation} {g : State → State}

@[simp] theorem edge_mem_rename {p' q' : State} {label : Option Letter} :
    ⟨p', q', label⟩ ∈ f.rename g ↔ ∃ p q, ⟨p, q, label⟩ ∈ f ∧ g p = p' ∧ g q = q' := by
  rw [mem_rename]
  constructor
  · rintro ⟨⟨p, q, _⟩, hedge, heq⟩
    obtain ⟨hp, hq, rfl⟩ := Edge.mk.injEq .. |>.mp heq
    exact ⟨p, q, hedge, hp, hq⟩
  · rintro ⟨p, q, hedge, rfl, rfl⟩
    exact ⟨_, hedge, rfl⟩

/-- A renamed edge that leaves the new number of a state comes from an edge that leaves the state
itself: no other source has this number. -/
theorem edge_of_rename {domain : Set State} (hg : Set.InjOn g domain)
    (hedges : ∀ e ∈ f, e.source ∈ domain ∧ e.target ∈ domain) {p q' : State} (hp : p ∈ domain)
    {label : Option Letter} (hedge : ⟨g p, q', label⟩ ∈ f.rename g) :
    ∃ q ∈ domain, ⟨p, q, label⟩ ∈ f ∧ g q = q' := by
  obtain ⟨s, q, horiginal, hs, hq⟩ := edge_mem_rename.mp hedge
  obtain ⟨hsource, htarget⟩ := hedges _ horiginal
  obtain rfl : s = p := hg hsource hp hs
  exact ⟨q, htarget, horiginal, hq⟩

end TransitionRelation

namespace Path

variable {f : TransitionRelation} {g : State → State} {p q q' : State} {w : Word}

theorem rename (g : State → State) (hpath : Path f p w q) : Path (f.rename g) (g p) w (g q) := by
  induction hpath with
  | stay q => exact .stay (g q)
  | skip hedge _ ih =>
      exact .skip (TransitionRelation.edge_mem_rename.mpr ⟨_, _, hedge, rfl, rfl⟩) ih
  | read hedge _ ih =>
      exact .read (TransitionRelation.edge_mem_rename.mpr ⟨_, _, hedge, rfl, rfl⟩) ih

theorem of_rename {domain : Set State} (hg : Set.InjOn g domain)
    (hedges : ∀ e ∈ f, e.source ∈ domain ∧ e.target ∈ domain) (hp : p ∈ domain)
    (hpath : Path (f.rename g) (g p) w q') : ∃ q, Path f p w q ∧ g q = q' := by
  generalize hstart : g p = p' at hpath
  induction hpath generalizing p with
  | stay => exact ⟨p, .stay p, hstart⟩
  | skip hedge _ ih =>
      rw [← hstart] at hedge
      obtain ⟨r, hr, horiginal, hnext⟩ := TransitionRelation.edge_of_rename hg hedges hp hedge
      obtain ⟨q, hrest, hq⟩ := ih hr hnext
      exact ⟨q, .skip horiginal hrest, hq⟩
  | read hedge _ ih =>
      rw [← hstart] at hedge
      obtain ⟨r, hr, horiginal, hnext⟩ := TransitionRelation.edge_of_rename hg hedges hp hedge
      obtain ⟨q, hrest, hq⟩ := ih hr hnext
      exact ⟨q, .read horiginal hrest, hq⟩

theorem end_mem {domain : SortedSet State} (hedges : ∀ e ∈ f, e.target ∈ domain)
    (hp : p ∈ domain) (hpath : Path f p w q) : q ∈ domain := by
  induction hpath with
  | stay => exact hp
  | skip hedge _ ih => exact ih (hedges _ hedge)
  | read hedge _ ih => exact ih (hedges _ hedge)

end Path

namespace Automaton

variable {A : Automaton} {g : State → State}

@[simp] theorem mem_states {q : State} :
    q ∈ A.states ↔ q = A.start ∨ q ∈ A.accepting ∨ q ∈ A.relation.states := by
  simp [states]

theorem start_mem_states (A : Automaton) : A.start ∈ A.states := by simp

theorem ends_mem_states {e : Edge} (he : e ∈ A.relation) :
    e.source ∈ A.states ∧ e.target ∈ A.states := by
  simp [TransitionRelation.source_mem_states he, TransitionRelation.target_mem_states he]

theorem run_subset_states (A : Automaton) (w : Word) : A.run w ⊆ A.states := fun _ hq =>
  Path.end_mem (fun _ he => (ends_mem_states he).2) A.start_mem_states (mem_run_iff.mp hq)

theorem run_rename (hg : Set.InjOn g {q | q ∈ A.states}) (w : Word) :
    (A.rename g).run w = (A.run w).map g := by
  apply SortedSet.ext
  intro q'
  rw [SortedSet.mem_map]
  simp only [mem_run_iff]
  constructor
  · exact Path.of_rename hg (fun e he => ends_mem_states he) A.start_mem_states
  · rintro ⟨q, hpath, rfl⟩
    exact hpath.rename g

theorem runAlike_rename (hg : Set.InjOn g {q | q ∈ A.states}) : RunAlike (A.rename g) A where
  same_alphabet := rfl
  same_dead w := by
    rw [run_rename hg]
    exact SortedSet.map_inj_of_injOn hg (A.run_subset_states w) fun q hq =>
      absurd hq (SortedSet.not_mem_empty q)
  same_accepted w := by
    have hstate : ∀ q ∈ A.accepting, q ∈ A.states := fun q hq => by simp [hq]
    rw [accepts, accepts, run_rename hg, Bool.eq_iff_iff, isAccepting_iff, isAccepting_iff]
    constructor
    · rintro ⟨_, hmapped, haccepting⟩
      obtain ⟨q, hq, rfl⟩ := SortedSet.mem_map.mp hmapped
      exact ⟨q, hq, (SortedSet.apply_mem_map_iff hg hstate (A.run_subset_states w q hq)).mp
        haccepting⟩
    · rintro ⟨q, hq, haccepting⟩
      exact ⟨g q, SortedSet.mem_map.mpr ⟨q, hq, rfl⟩, SortedSet.mem_map.mpr ⟨q, haccepting, rfl⟩⟩
  same_merged v w := by
    rw [run_rename hg, run_rename hg]
    exact SortedSet.map_inj_of_injOn hg (A.run_subset_states v) (A.run_subset_states w)

/-- Determinizing does not depend on what the states are called. If no two states that an automaton
mentions receive the same new number, the renamed automaton is determinized to the very same
automaton, and each state of this stands for the renamed configuration. -/
theorem determinize_rename (A : Automaton) (g : State → State)
    (hg : Set.InjOn g {q | q ∈ A.states}) :
    let D := A.determinize
    let D' := (A.rename g).determinize
    D'.automaton = D.automaton ∧ D'.configurations = D.configurations.map (SortedSet.map g) := by
  intro D D'
  have halike := runAlike_rename hg
  refine ⟨halike.determinize_automaton_eq, ?_⟩
  have hrenamed : ∀ T S, ReachedTogether (A.rename g) A T S → id T = SortedSet.map g S := by
    rintro _ _ ⟨w, rfl, rfl⟩
    exact run_rename hg w
  have hsame := map_eq_of_paired halike.found_paired hrenamed
  rwa [List.map_id] at hsame

/-- The states of `epsilonCycle` in the opposite order, and one number for all states below. -/
def countingDown (q : State) : State := if q < 6 then 9 else 7 - q

/-- Counting down, the first configuration of `epsilonCycle` lists its states the other way. -/
theorem determinize_rename_countingDown :
    Set.InjOn countingDown {q | q ∈ epsilonCycle.states} ∧
    (epsilonCycle.rename countingDown).determinize.automaton =
      epsilonCycle.determinize.automaton ∧
    (epsilonCycle.rename countingDown).determinize.configurations =
      [SortedSet.ofList [1, 9], SortedSet.ofList [0], SortedSet.ofList [0, 1, 9]] := by
  have hdistinct : (epsilonCycle.states.toList.map countingDown).Nodup := by decide +kernel
  have hg : Set.InjOn countingDown {q | q ∈ epsilonCycle.states} :=
    List.inj_on_of_nodup_map hdistinct
  obtain ⟨hautomaton, hconfigurations⟩ := determinize_rename epsilonCycle countingDown hg
  refine ⟨hg, hautomaton, hconfigurations.trans ?_⟩
  decide +kernel

end Automaton

end FormalLanguage
