import FormalLanguage.Proofs.Conflicts
import Mathlib.Order.Bounds.Basic
import Mathlib.Tactic

/-!
How building a relation under a policy ends. Forbidden epsilon edges come first, and the least of
them is reported; conflicts are looked for after that, among the labelled edges and then among the
epsilon edges. Since edges with one source and label come up by ascending target, though not side
by side, the first one that is met a second time has the second smallest of their targets, and the
one it collides with has the smallest. All of this depends on which edges are listed, not on how.
-/

namespace FormalLanguage

namespace Edge

variable {d e : Edge}

/-- Labelled edges come before epsilon edges, and edges of one kind in ascending order. -/
def ListedBefore (d e : Edge) : Prop :=
  if d.isEpsilon = e.isEpsilon then compare d e = .lt else e.isEpsilon = true

theorem target_lt_of_compare_lt (h : compare d e = .lt) (hkey : d.key = e.key) :
    d.target < e.target := by
  obtain ⟨hsource, hlabel⟩ := Prod.mk.injEq .. |>.mp hkey
  change (compare d.source e.source).then
    ((compare d.target e.target).then (compare d.label e.label)) = .lt at h
  rw [hsource, hlabel, Std.compare_self, Std.compare_self] at h
  rcases Ordering.then_eq_lt.mp h with hlt | ⟨_, hlt⟩
  · cases hlt
  · rcases Ordering.then_eq_lt.mp hlt with hlt | ⟨_, hlt⟩
    · exact Std.compare_eq_lt.mp hlt
    · cases hlt

theorem ListedBefore.target_lt (h : d.ListedBefore e) (hkey : d.key = e.key) :
    d.target < e.target := by
  have hkind : d.isEpsilon = e.isEpsilon := congrArg (fun k => k.2.isNone) hkey
  rw [ListedBefore, if_pos hkind] at h
  exact target_lt_of_compare_lt h hkey

end Edge

namespace TransitionRelation

variable {f : TransitionRelation} {p : Policy} {es : List Edge}

theorem all_pairwise_listedBefore (f : TransitionRelation) :
    f.all.Pairwise Edge.ListedBefore := by
  have hlabeled : ∀ e ∈ f.labeled.toList, e.isEpsilon = false := fun e he => by
    simpa using (mem_labeled.mp he).2
  have hepsilon : ∀ e ∈ f.epsilon.toList, e.isEpsilon = true := fun e he => by
    simpa using (mem_epsilon.mp he).2
  refine List.pairwise_append.mpr ⟨?_, ?_, ?_⟩
  · refine f.labeled.ascending.imp_of_mem fun {d e} hd he hlt => ?_
    rwa [Edge.ListedBefore, if_pos ((hlabeled d hd).trans (hlabeled e he).symm)]
  · refine f.epsilon.ascending.imp_of_mem fun {d e} hd he hlt => ?_
    rwa [Edge.ListedBefore, if_pos ((hepsilon d hd).trans (hepsilon e he).symm)]
  · intro d hd e he
    rw [Edge.ListedBefore, hlabeled d hd, hepsilon e he]
    rfl

/-- The first edge whose source and label were met before, with the edge that they were met on:
the two have the smallest targets there are for this source and label. -/
theorem conflict?_eq_some {first second : Edge} (h : f.conflict? = some (first, second)) :
    ∃ before after, f.all = before ++ second :: after ∧ (before.map Edge.key).Nodup ∧
      second.key ∈ before.map Edge.key ∧
      IsLeast {t | ⟨second.source, t, second.label⟩ ∈ f} first.target ∧
      IsLeast {t | ⟨second.source, t, second.label⟩ ∈ f ∧ t ≠ first.target} second.target := by
  obtain ⟨before, after, hall, hdistinct, _, hheld, hkey⟩ := KeyedSet.firstCollision_eq_some h
  have hfirst : first ∈ before := hheld.resolve_left fun hnone => nomatch hnone
  have horder := f.all_pairwise_listedBefore
  rw [hall] at horder
  obtain ⟨_, hrest, hacross⟩ := List.pairwise_append.mp horder
  have hlt : first.target < second.target :=
    (hacross first hfirst second List.mem_cons_self).target_lt hkey
  have hmem : ∀ {e : Edge}, e ∈ before ++ second :: after → e ∈ f := fun he =>
    mem_all.mp (hall ▸ he)
  -- An edge with this source and label is the first of them, the second, or a later one.
  have hcases : ∀ t, (⟨second.source, t, second.label⟩ : Edge) ∈ f →
      t = first.target ∨ second.target ≤ t := by
    intro t ht
    have hlisted := mem_all.mpr ht
    rw [hall] at hlisted
    rcases List.mem_append.mp hlisted with hbefore | hbehind
    · refine Or.inl ?_
      have hsame := List.inj_on_of_nodup_map hdistinct hbefore hfirst hkey.symm
      exact congrArg Edge.target hsame
    · refine Or.inr ?_
      rcases List.mem_cons.mp hbehind with hsecond | hlater
      · have htarget : t = second.target := congrArg Edge.target hsecond
        rw [htarget]
        exact UInt32.le_refl _
      · have hlt : second.target < t := ((List.pairwise_cons.mp hrest).1 _ hlater).target_lt rfl
        exact UInt32.le_of_lt hlt
  obtain ⟨hsource, hlabel⟩ := Prod.mk.injEq .. |>.mp hkey
  have hfirst_listed : (⟨second.source, first.target, second.label⟩ : Edge) ∈ f := by
    rw [← hsource, ← hlabel]
    exact hmem (List.mem_append_left _ hfirst)
  have hsecond_listed : (⟨second.source, second.target, second.label⟩ : Edge) ∈ f :=
    hmem (List.mem_append_right _ List.mem_cons_self)
  refine ⟨before, after, hall, hdistinct, List.mem_map.mpr ⟨first, hfirst, hkey⟩,
    ⟨hfirst_listed, ?_⟩, ⟨⟨hsecond_listed, (UInt32.ne_of_lt hlt).symm⟩, ?_⟩⟩
  · intro t ht
    rcases hcases t ht with rfl | hle
    · exact UInt32.le_refl _
    · exact UInt32.le_trans (UInt32.le_of_lt hlt) hle
  · rintro t ⟨ht, hother⟩
    exact (hcases t ht).resolve_left hother

/-- The policy does not object to the listed edges for reading nothing. -/
def EpsilonAllowed (p : Policy) (es : List Edge) : Prop :=
  p.allowsEpsilon = true ∨ ∀ e ∈ es, e.isEpsilon = false

/-- The policy does not object to the listed edges for having source and label in common. -/
def SharingAllowed (p : Policy) (es : List Edge) : Prop :=
  p.allowsConflicts = true ∨ ∀ d ∈ es, ∀ e ∈ es, d.key = e.key → d = e

theorem forbiddenEpsilon_ofList_eq_none_iff :
    p.forbiddenEpsilon (ofList es) = none ↔ EpsilonAllowed p es := by
  simp [Policy.forbiddenEpsilon_eq_none_iff, EpsilonAllowed]

theorem forbiddenConflict_ofList_eq_none_iff :
    p.forbiddenConflict (ofList es) = none ↔ SharingAllowed p es := by
  simp [Policy.forbiddenConflict_eq_none_iff, SharingAllowed]

/-- Of forbidden epsilon edges the least is reported, whatever else is wrong. -/
theorem build_of_not_epsilonAllowed (h : ¬ EpsilonAllowed p es) :
    ∃ e ∈ es, e.isEpsilon = true ∧
      (∀ d ∈ es, d.isEpsilon = true → (compare e d).isLE = true) ∧
      build p es = .error (.epsilonEdge e) := by
  cases hforbidden : p.forbiddenEpsilon (ofList es) with
  | none => exact absurd (forbiddenEpsilon_ofList_eq_none_iff.mp hforbidden) h
  | some e =>
      have hpolicy : p.allowsEpsilon = false := Bool.eq_false_iff.mpr fun hall => h (Or.inl hall)
      have hhead : (ofList es).epsilon.toList.head? = some e := by
        simpa [Policy.forbiddenEpsilon, hpolicy] using hforbidden
      rw [epsilon, SortedSet.filter, List.head?_filter, SortedSet.find?_eq_some_iff] at hhead
      obtain ⟨he, hepsilon, hleast⟩ := hhead
      refine ⟨e, mem_ofList.mp he, hepsilon, ?_, build_of_forbiddenEpsilon hforbidden⟩
      exact fun d hd hd' => hleast d (mem_ofList.mpr hd) hd'

theorem build_of_not_sharingAllowed (hepsilon : EpsilonAllowed p es)
    (h : ¬ SharingAllowed p es) :
    ∃ first second, (ofList es).conflict? = some (first, second) ∧
      build p es = .error (.conflict second.source second.label first.target second.target) := by
  cases hforbidden : p.forbiddenConflict (ofList es) with
  | none => exact absurd (forbiddenConflict_ofList_eq_none_iff.mp hforbidden) h
  | some pair =>
      have hpolicy : p.allowsConflicts = false := Bool.eq_false_iff.mpr fun hall => h (Or.inl hall)
      refine ⟨pair.1, pair.2, ?_, build_of_forbiddenConflict
        (forbiddenEpsilon_ofList_eq_none_iff.mpr hepsilon) hforbidden⟩
      simpa [Policy.forbiddenConflict, hpolicy] using hforbidden

theorem build_congr {es' : List Edge} (h : ∀ e, e ∈ es' ↔ e ∈ es) : build p es' = build p es := by
  have hlisted : ofList es' = ofList es := by
    rw [ofList, ofList, SortedSet.ofList_eq fun e => (h e).trans SortedSet.mem_ofList.symm]
  rw [build, build, hlisted]

/-- How building a relation under a policy ends. It succeeds exactly when the policy objects to no
listed edge and to no pair of different edges with one source and label, and then the relation is
that of the listed edges. Of forbidden epsilon edges the least is reported, also when there are
conflicts. Otherwise the conflict is at the first edge whose source and label an earlier one has,
in a list that holds each edge once, the labelled ones before the epsilon ones and both in
ascending order; the two targets that are reported are the smallest and the next one for this
source and label. In what order and how often edges are listed makes no difference, and
the edges are deterministic exactly when the policy for deterministic automata lets them pass. -/
theorem build_under_policy (p : Policy) (es : List Edge) :
    let listed := (ofList es).all
    (∀ f, build p es = .ok f ↔ f = ofList es ∧ EpsilonAllowed p es ∧ SharingAllowed p es) ∧
    (¬ EpsilonAllowed p es → ∃ e ∈ es, e.isEpsilon = true ∧
      (∀ d ∈ es, d.isEpsilon = true → (compare e d).isLE = true) ∧
      build p es = .error (.epsilonEdge e)) ∧
    ((∀ e, e ∈ listed ↔ e ∈ es) ∧ listed.Pairwise Edge.ListedBefore) ∧
    (EpsilonAllowed p es → ¬ SharingAllowed p es →
      ∃ (before : List Edge) (second : Edge) (after : List Edge) (first : State),
      listed = before ++ second :: after ∧ (before.map Edge.key).Nodup ∧
      second.key ∈ before.map Edge.key ∧
      IsLeast {t | ⟨second.source, t, second.label⟩ ∈ es} first ∧
      IsLeast {t | ⟨second.source, t, second.label⟩ ∈ es ∧ t ≠ first} second.target ∧
      first < second.target ∧
      build p es = .error (.conflict second.source second.label first second.target)) ∧
    (∀ es', (∀ e, e ∈ es' ↔ e ∈ es) → build p es' = build p es) ∧
    ((ofList es).isDeterministic = true ↔ ∃ f, build .dfa es = .ok f) := by
  intro listed
  have hlisted : ∀ e, e ∈ listed ↔ e ∈ es := fun e => by simp [listed]
  refine ⟨?_, build_of_not_epsilonAllowed, ⟨hlisted, all_pairwise_listedBefore _⟩, ?_,
    fun es' h => build_congr h, ?_⟩
  · intro f
    rw [build_eq_ok_iff]
    refine and_congr_right ?_
    rintro rfl
    simp [EpsilonAllowed, SharingAllowed]
  · intro hepsilon hsharing
    obtain ⟨first, second, hconflict, hbuild⟩ := build_of_not_sharingAllowed hepsilon hsharing
    obtain ⟨before, after, hall, hdistinct, hkey, hfirst, hsecond⟩ := conflict?_eq_some hconflict
    simp only [mem_ofList] at hfirst hsecond
    refine ⟨before, second, after, first.target, hall, hdistinct, hkey, hfirst, hsecond, ?_,
      hbuild⟩
    exact UInt32.lt_of_le_of_ne (hfirst.2 hsecond.1.1) hsecond.1.2.symm
  · rw [isDeterministic_iff]
    constructor
    · rintro ⟨hepsilon, hkeys⟩
      exact ⟨ofList es, (build_eq_ok_iff _ _ _).mpr ⟨rfl, Or.inr hepsilon, Or.inr hkeys⟩⟩
    · rintro ⟨f, hbuild⟩
      obtain ⟨rfl, hepsilon, hkeys⟩ := (build_eq_ok_iff _ _ _).mp hbuild
      exact ⟨hepsilon.resolve_left Bool.false_ne_true, hkeys.resolve_left Bool.false_ne_true⟩

/-- Conflicts of a labelled and of an epsilon edge, out of order and with one edge listed twice. -/
def tangledEdges : List Edge :=
  [⟨1, 7, none⟩, ⟨2, 5, some "a"⟩, ⟨1, 6, none⟩, ⟨2, 4, some "b"⟩, ⟨2, 3, some "a"⟩,
    ⟨2, 4, some "a"⟩, ⟨2, 3, some "a"⟩]

/-- Where epsilon edges are allowed, the conflict of the labelled edges is reported; where they are
not, the least of them; and turning the list round makes no difference. -/
theorem build_under_policy_tangledEdges :
    let lenient : Policy := ⟨false, true⟩
    EpsilonAllowed lenient tangledEdges ∧ ¬ SharingAllowed lenient tangledEdges ∧
    (∃ (before : List Edge) (second : Edge) (after : List Edge) (first : State),
      (ofList tangledEdges).all = before ++ second :: after ∧ (before.map Edge.key).Nodup ∧
      second.key ∈ before.map Edge.key ∧
      IsLeast {t | ⟨second.source, t, second.label⟩ ∈ tangledEdges} first ∧
      IsLeast {t | ⟨second.source, t, second.label⟩ ∈ tangledEdges ∧ t ≠ first} second.target ∧
      first < second.target ∧
      build lenient tangledEdges =
        .error (.conflict second.source second.label first second.target)) ∧
    ¬ EpsilonAllowed .dfa tangledEdges ∧
    (∃ e ∈ tangledEdges, e.isEpsilon = true ∧
      (∀ d ∈ tangledEdges, d.isEpsilon = true → (compare e d).isLE = true) ∧
      build .dfa tangledEdges = .error (.epsilonEdge e)) ∧
    build .dfa tangledEdges.reverse = build .dfa tangledEdges := by
  intro lenient
  have hepsilon : EpsilonAllowed lenient tangledEdges := Or.inl rfl
  have hsharing : ¬ SharingAllowed lenient tangledEdges := by
    unfold SharingAllowed
    decide +kernel
  have hforbidden : ¬ EpsilonAllowed .dfa tangledEdges := by
    unfold EpsilonAllowed
    decide +kernel
  obtain ⟨_, _, _, hconflict, _⟩ := build_under_policy lenient tangledEdges
  obtain ⟨_, hleast, _, _, hsame, _⟩ := build_under_policy .dfa tangledEdges
  exact ⟨hepsilon, hsharing, hconflict hepsilon hsharing, hforbidden, hleast hforbidden,
    hsame tangledEdges.reverse fun e => List.mem_reverse⟩

end TransitionRelation

end FormalLanguage
