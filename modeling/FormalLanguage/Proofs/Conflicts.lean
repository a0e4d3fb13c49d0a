import FormalLanguage.Automaton.Policy
import Mathlib.Data.List.Dedup

/-!
When a transition relation obeys a policy. A conflict is found exactly when two different edges
share source and label, although the search meets the edges in an order in which such edges need
not stand next to each other. Building a relation under a policy therefore succeeds exactly when
no edge and no pair of edges is forbidden, and then changes nothing.
-/

namespace FormalLanguage

namespace KeyedSet

variable {α κ : Type} {key : α → κ} [DecidableEq κ]

/-- No arrival collides exactly when the arriving keys are distinct and none is held yet. -/
theorem firstCollision_eq_none_iff (s : KeyedSet key) (xs : List α) :
    s.firstCollision xs = none ↔
      (xs.map key).Nodup ∧ ∀ x ∈ xs, key x ∉ s.entries.map key := by
  induction xs generalizing s with
  | nil => simp [firstCollision]
  | cons x xs ih =>
      cases hfind : s.find? (key x) with
      | some resident =>
          have hheld : key x ∈ s.entries.map key := by
            by_contra hfree
            rw [find?_eq_none.mpr hfree] at hfind
            cases hfind
          simp only [firstCollision, hfind, reduceCtorEq, false_iff]
          rintro ⟨_, hfree⟩
          exact hfree x (by simp) hheld
      | none =>
          have hfree : key x ∉ s.entries.map key := find?_eq_none.mp hfind
          have hkeys : (s.insert x).entries.map key = s.entries.map key ++ [key x] := by
            rw [entries_insert, if_neg hfree, List.map_append, List.map_singleton]
          simp only [firstCollision, hfind, ih, hkeys, List.map_cons, List.nodup_cons,
            List.mem_append, List.mem_cons, List.not_mem_nil, or_false, not_or,
            forall_eq_or_imp]
          constructor
          · rintro ⟨hdistinct, hrest⟩
            refine ⟨⟨?_, hdistinct⟩, hfree, fun y hy => (hrest y hy).1⟩
            intro hmem
            obtain ⟨y, hy, hsame⟩ := List.mem_map.mp hmem
            exact (hrest y hy).2 hsame
          · rintro ⟨⟨hnew, hdistinct⟩, _, hrest⟩
            refine ⟨hdistinct, fun y hy => ⟨hrest y hy, ?_⟩⟩
            intro hsame
            exact hnew (List.mem_map.mpr ⟨y, hy, hsame⟩)

/-- The first arrival to collide comes behind arrivals whose keys are new, and the key that it
brings belongs to one of these or was held from the start. -/
theorem firstCollision_eq_some {s : KeyedSet key} {xs : List α} {resident x : α}
    (h : s.firstCollision xs = some (resident, x)) :
    ∃ before after, xs = before ++ x :: after ∧ (before.map key).Nodup ∧
      (∀ y ∈ before, key y ∉ s.entries.map key) ∧
      (resident ∈ s.entries ∨ resident ∈ before) ∧ key resident = key x := by
  induction xs generalizing s with
  | nil => cases h
  | cons y xs ih =>
      cases hfind : s.find? (key y) with
      | some holder =>
          simp only [firstCollision, hfind, Option.some.injEq, Prod.mk.injEq] at h
          obtain ⟨rfl, rfl⟩ := h
          obtain ⟨hheld, hkey⟩ := mem_and_key_of_find?_eq_some hfind
          exact ⟨[], xs, rfl, .nil, fun _ hy => (nomatch hy), Or.inl hheld, hkey⟩
      | none =>
          simp only [firstCollision, hfind] at h
          have hfree : key y ∉ s.entries.map key := find?_eq_none.mp hfind
          have hentries : (s.insert y).entries = s.entries ++ [y] := by
            rw [entries_insert, if_neg hfree]
          obtain ⟨before, after, rfl, hdistinct, hnew, hresident, hkey⟩ := ih h
          have hnew : ∀ z ∈ before, key z ∉ s.entries.map key ∧ key z ≠ key y := by
            intro z hz
            have hz' := hnew z hz
            rw [hentries, List.map_append, List.mem_append, not_or] at hz'
            exact ⟨hz'.1, fun hsame => hz'.2 (List.mem_singleton.mpr hsame)⟩
          refine ⟨y :: before, after, rfl, ?_, ?_, ?_, hkey⟩
          · refine List.nodup_cons.mpr ⟨fun hmem => ?_, hdistinct⟩
            obtain ⟨z, hz, hsame⟩ := List.mem_map.mp hmem
            exact (hnew z hz).2 hsame
          · exact List.forall_mem_cons.mpr ⟨hfree, fun z hz => (hnew z hz).1⟩
          · rw [hentries, List.mem_append, List.mem_singleton] at hresident
            rcases hresident with (hold | rfl) | hlater
            · exact Or.inl hold
            · exact Or.inr List.mem_cons_self
            · exact Or.inr (List.mem_cons_of_mem y hlater)

end KeyedSet

namespace TransitionRelation

theorem nodup_all (f : TransitionRelation) : f.all.Nodup := by
  refine List.nodup_append.mpr ⟨f.labeled.nodup_toList, f.epsilon.nodup_toList, ?_⟩
  rintro d hd e he rfl
  exact (mem_labeled.mp hd).2 (mem_epsilon.mp he).2

theorem ofList_all (f : TransitionRelation) : ofList f.all = f := by
  have hedges : SortedSet.ofList f.all = f.edges := SortedSet.ext fun e => by simp
  rw [ofList, hedges]

/-- A relation has as many edges as there are different ones in the list that it is made of. -/
theorem size_ofList (es : List Edge) : (ofList es).size = es.dedup.length := by
  have hperm : (ofList es).all.Perm es.dedup :=
    (List.perm_ext_iff_of_nodup (nodup_all _) es.nodup_dedup).mpr fun e => by simp
  rw [← hperm.length_eq, all, List.length_append]
  rfl

/-- There is no conflict exactly when source and label together identify an edge. -/
theorem conflict?_eq_none_iff (f : TransitionRelation) :
    f.conflict? = none ↔ ∀ d ∈ f, ∀ e ∈ f, d.key = e.key → d = e := by
  have hempty : ∀ e ∈ f.all, e.key ∉ (∅ : KeyedSet Edge.key).entries.map Edge.key :=
    fun _ _ h => nomatch h
  rw [conflict?, KeyedSet.firstCollision_eq_none_iff, and_iff_left hempty,
    List.nodup_map_iff_inj_on f.nodup_all]
  simp only [mem_all]

theorem epsilon_eq_empty_iff {f : TransitionRelation} :
    f.epsilon = ∅ ↔ ∀ e ∈ f, e.isEpsilon = false := by
  constructor
  · intro hnone e he
    cases hepsilon : e.isEpsilon with
    | false => rfl
    | true =>
        have hmem : e ∈ f.epsilon := mem_epsilon.mpr ⟨he, Edge.isEpsilon_iff.mp hepsilon⟩
        simp [hnone] at hmem
  · intro hlabeled
    apply SortedSet.eq_empty_of_forall_not_mem
    intro e he
    obtain ⟨hmem, hepsilon⟩ := mem_epsilon.mp he
    exact Edge.isEpsilon_eq_false_iff.mp (hlabeled e hmem) hepsilon

theorem isDeterministic_iff {f : TransitionRelation} :
    f.isDeterministic = true ↔
      (∀ e ∈ f, e.isEpsilon = false) ∧ ∀ d ∈ f, ∀ e ∈ f, d.key = e.key → d = e := by
  rw [isDeterministic, Bool.and_eq_true, SortedSet.isEmpty_iff, Option.isNone_iff_eq_none,
    epsilon_eq_empty_iff, conflict?_eq_none_iff]

end TransitionRelation

namespace Policy

variable {p : Policy} {f : TransitionRelation}

theorem forbiddenEpsilon_eq_none_iff :
    p.forbiddenEpsilon f = none ↔
      p.allowsEpsilon = true ∨ ∀ e ∈ f, e.isEpsilon = false := by
  unfold forbiddenEpsilon
  cases p.allowsEpsilon with
  | true => simp
  | false =>
      rw [← TransitionRelation.epsilon_eq_empty_iff, ← SortedSet.isEmpty_iff]
      simp [SortedSet.isEmpty]

theorem forbiddenConflict_eq_none_iff :
    p.forbiddenConflict f = none ↔
      p.allowsConflicts = true ∨ ∀ d ∈ f, ∀ e ∈ f, d.key = e.key → d = e := by
  unfold forbiddenConflict
  cases p.allowsConflicts with
  | true => simp
  | false => simp [TransitionRelation.conflict?_eq_none_iff]

end Policy

namespace TransitionRelation

variable {p : Policy} {es : List Edge}

theorem build_of_forbiddenEpsilon {e : Edge} (h : p.forbiddenEpsilon (ofList es) = some e) :
    build p es = .error (.epsilonEdge e) := by
  simp only [build, h]

theorem build_of_forbiddenConflict {first second : Edge}
    (hepsilon : p.forbiddenEpsilon (ofList es) = none)
    (h : p.forbiddenConflict (ofList es) = some (first, second)) :
    build p es = .error (.conflict second.source second.label first.target second.target) := by
  simp only [build, hepsilon, h]

/-- A relation is built as it was listed, exactly when every forbidden thing is absent. -/
theorem build_eq_ok_iff (p : Policy) (es : List Edge) (f : TransitionRelation) :
    build p es = .ok f ↔
      f = ofList es ∧ (p.allowsEpsilon = true ∨ ∀ e ∈ f, e.isEpsilon = false) ∧
        (p.allowsConflicts = true ∨ ∀ d ∈ f, ∀ e ∈ f, d.key = e.key → d = e) := by
  rw [← Policy.forbiddenEpsilon_eq_none_iff, ← Policy.forbiddenConflict_eq_none_iff]
  cases hepsilon : p.forbiddenEpsilon (ofList es) with
  | some e =>
      rw [build_of_forbiddenEpsilon hepsilon]
      refine iff_of_false nofun ?_
      rintro ⟨rfl, hnone, _⟩
      rw [hepsilon] at hnone
      cases hnone
  | none =>
      cases hconflict : p.forbiddenConflict (ofList es) with
      | some pair =>
          rw [build_of_forbiddenConflict hepsilon hconflict]
          refine iff_of_false nofun ?_
          rintro ⟨rfl, _, hnone⟩
          rw [hconflict] at hnone
          cases hnone
      | none =>
          have hbuild : build p es = .ok (ofList es) := by
            simp only [build, hepsilon, hconflict]
          rw [hbuild]
          constructor
          · rintro ⟨⟩
            exact ⟨rfl, hepsilon, hconflict⟩
          · rintro ⟨rfl, _⟩
            rfl

end TransitionRelation

end FormalLanguage
