import FormalLanguage.Automaton.Relation
import FormalLanguage.Proofs.Closures
import FormalLanguage.Proofs.Conflicts
import FormalLanguage.Proofs.Outgoing
import Mathlib.Data.List.Induction

/-!
Questions about the edges of a relation. The edges are kept by kind, so an edge is looked for on
its own side only, and that is enough because its label tells the side. A pattern keeps the last
demand of each kind, and asking for a label and asking for an epsilon edge are demands of one kind;
so the edges that satisfy the pattern are those that meet the last demands. With fields that are
given or missing the pattern comes from one demand for each field that is given.
-/

namespace FormalLanguage

/-- The pattern for labels that a demand stands for, or its absence. -/
def LabelPattern.ofDemand : Option (Option Letter) → LabelPattern
  | none => .any
  | some none => .epsilon
  | some (some a) => .letter a

theorem LabelPattern.admits_ofDemand {demand : Option (Option Letter)} {label : Option Letter} :
    (ofDemand demand).admits label = true ↔ ∀ l ∈ demand, label = l := by
  match demand with
  | none => simp [ofDemand, admits]
  | some none => simp [ofDemand, admits]
  | some (some a) => simp [ofDemand, admits]

namespace EdgePattern

/-- A pattern holds the last demand of each kind. -/
theorem ofSettings_eq (settings : List PatternSetting) : ofSettings settings =
    { source := (settings.filterMap PatternSetting.source?).getLast?
      target := (settings.filterMap PatternSetting.target?).getLast?
      label := .ofDemand (settings.filterMap PatternSetting.label?).getLast? } := by
  -- From the end of the list, since it is the last setting that overrides the others.
  induction settings using List.reverseRecOn with
  | nil => rfl
  | append_singleton settings s ih =>
      have hset : ofSettings (settings ++ [s]) = (ofSettings settings).set s := List.foldl_append
      rw [hset, ih]
      cases s <;> simp [set, PatternSetting.source?, PatternSetting.target?,
        PatternSetting.label?, LabelPattern.ofDemand]

/-- An edge satisfies a pattern exactly when it meets the demands that the pattern was made of. -/
theorem admits_ofSettings {settings : List PatternSetting} {e : Edge} :
    (ofSettings settings).admits e = true ↔ e.Meets settings := by
  rw [ofSettings_eq, admits, Bool.and_eq_true, Bool.and_eq_true, LabelPattern.admits_ofDemand,
    Option.all_eq_true, Option.all_eq_true, and_assoc]
  simp only [beq_iff_eq]
  rfl

/-- An edge satisfies the pattern for some fields exactly when it agrees with those that are
given. -/
theorem admits_ofFields {source target : Option State} {label : Option Letter} {e : Edge} :
    (ofFields source target label).admits e = true ↔ (∀ q ∈ source, e.source = q) ∧
      (∀ q ∈ target, e.target = q) ∧ ∀ a ∈ label, e.label = some a := by
  rw [admits, Bool.and_eq_true, Bool.and_eq_true, and_assoc]
  cases label <;> simp [ofFields, LabelPattern.admits, Option.all_eq_true]

theorem ofFields_eq_ofSettings (source target : Option State) (label : Option Letter) :
    ofFields source target label = ofSettings (PatternSetting.ofFields source target label) := by
  cases source <;> cases target <;> cases label <;> rfl

end EdgePattern

namespace TransitionRelation

variable {f : TransitionRelation} {es : List Edge} {e : Edge}

/-- Looking among the edges of one kind is enough. -/
theorem contains_iff : f.contains e = true ↔ e ∈ f := by
  unfold contains
  split
  next hepsilon => simpa using fun _ => Edge.isEpsilon_iff.mp hepsilon
  next hlabeled => simpa using fun _ => mt Edge.isEpsilon_iff.mpr hlabeled

/-- The two kinds of edges are the two parts of the list that the relation was made of. -/
theorem sides_ofList (es : List Edge) :
    (ofList es).epsilon = SortedSet.ofList (es.partition Edge.isEpsilon).1 ∧
    (ofList es).labeled = SortedSet.ofList (es.partition Edge.isEpsilon).2 := by
  rw [List.partition_eq_filter_filter]
  constructor
  · apply SortedSet.ext
    simp
  · apply SortedSet.ext
    simp

@[simp] theorem mem_matching {p : EdgePattern} : e ∈ f.matching p ↔ e ∈ f ∧ p.admits e = true := by
  simp [matching]

theorem hasEdge_iff {source target : Option State} {label : Option Letter} :
    f.hasEdge source target label = true ↔ ∃ e ∈ f, (∀ q ∈ source, e.source = q) ∧
      (∀ q ∈ target, e.target = q) ∧ ∀ a ∈ label, e.label = some a := by
  rw [hasEdge, Bool.not_eq_true', List.isEmpty_eq_false_iff_exists_mem]
  simp only [mem_matching, EdgePattern.admits_ofFields]

/-- Questions about edges are answered as the list says that the relation was made of. The list
falls into the labelled and the epsilon edges. All edges are listed kind by kind, the labelled ones
first and each kind in order; every edge of the list comes once and no other does, so the size is
the number of different edges in it. Looking for an edge among those of its kind finds it exactly
when it is in the list. A pattern selects from all edges, without changing their order, those with
the source, the target and the label that its settings demanded last, where asking for an epsilon
edge demands to have no label, which the label without characters is not; what no setting demanded
may be anything. Asked with some fields given, the relation has an edge exactly when some edge of
the list agrees with these, and so an epsilon edge will do where no label is given. -/
theorem edgeQueries_agree (es : List Edge) (settings : List PatternSetting) :
    let f := ofList es
    (f.epsilon = SortedSet.ofList (es.partition Edge.isEpsilon).1 ∧
      f.labeled = SortedSet.ofList (es.partition Edge.isEpsilon).2) ∧
    f.all = f.labeled.toList ++ f.epsilon.toList ∧
    ((∀ e, e ∈ f.labeled ↔ e ∈ es ∧ e.label ≠ none) ∧ f.labeled.toList.Pairwise Edge.Before) ∧
    ((∀ e, e ∈ f.epsilon ↔ e ∈ es ∧ e.label = none) ∧ f.epsilon.toList.Pairwise Edge.Before) ∧
    (∀ e, f.all.count e = if e ∈ es then 1 else 0) ∧
    f.size = f.all.length ∧ f.size = es.dedup.length ∧
    (∀ e, f.contains e = true ↔ e ∈ es) ∧
    f.matching (.ofSettings settings) = f.all.filter (fun e => decide (e.Meets settings)) ∧
    ∀ (source target : Option State) (label : Option Letter),
      (f.hasEdge source target label = true ↔ ∃ e ∈ es, (∀ q ∈ source, e.source = q) ∧
        (∀ q ∈ target, e.target = q) ∧ ∀ a ∈ label, e.label = some a) ∧
      f.hasEdge source target label =
        !(f.matching (.ofSettings (PatternSetting.ofFields source target label))).isEmpty := by
  intro f
  have hmem : ∀ e, e ∈ f ↔ e ∈ es := fun e => mem_ofList
  refine ⟨sides_ofList es, rfl, ⟨fun e => ?_, Edge.pairwise_before _⟩,
    ⟨fun e => ?_, Edge.pairwise_before _⟩, ?_, List.length_append.symm, size_ofList es,
    fun e => contains_iff.trans (hmem e), ?_, ?_⟩
  · rw [mem_labeled, hmem]
  · rw [mem_epsilon, hmem]
  · intro e
    rw [(nodup_all f).count]
    simp only [mem_all, hmem]
  · refine List.filter_congr fun e _ => ?_
    rw [Bool.eq_iff_iff, EdgePattern.admits_ofSettings, decide_eq_true_iff]
  · intro source target label
    refine ⟨?_, ?_⟩
    · rw [hasEdge_iff]
      simp only [hmem]
    · rw [hasEdge, EdgePattern.ofFields_eq_ofSettings]

/-- Edges without a label and with the one that has no characters, one of them listed twice. -/
def bareEdges : List Edge :=
  [⟨1, 2, none⟩, ⟨1, 2, some ""⟩, ⟨0, 3, none⟩, ⟨1, 2, some "a"⟩, ⟨1, 2, some ""⟩]

/-- Among `bareEdges` a later demand on the label takes the place of an earlier one, whichever of
the two asks for an epsilon edge. The edge out of state 0 is found where no label is given, and not
where the label without characters is. -/
theorem edgeQueries_agree_bareEdges :
    let f := ofList bareEdges
    f.matching (.ofSettings [.label "a", .source 0, .epsilon, .source 1]) = [⟨1, 2, none⟩] ∧
    f.matching (.ofSettings [.epsilon, .label ""]) = [⟨1, 2, some ""⟩] ∧
    f.size = 4 ∧ f.contains ⟨1, 2, some "b"⟩ = false ∧
    f.hasEdge (some 0) none none = true ∧ f.hasEdge (some 0) none (some "") = false := by
  intro f
  obtain ⟨_, _, _, _, _, _, hsize, hcontains, hreplaced, hgiven⟩ :=
    edgeQueries_agree bareEdges [.label "a", .source 0, .epsilon, .source 1]
  obtain ⟨_, _, _, _, _, _, _, _, hlabel, _⟩ := edgeQueries_agree bareEdges [.epsilon, .label ""]
  refine ⟨hreplaced.trans (by decide +kernel), hlabel.trans (by decide +kernel),
    hsize.trans (by decide +kernel), ?_, ?_, ?_⟩
  · rw [← Bool.not_eq_true, hcontains]
    decide +kernel
  · exact (hgiven (some 0) none none).1.mpr ⟨⟨0, 3, none⟩, by decide, by simp⟩
  · rw [← Bool.not_eq_true, (hgiven (some 0) none (some "")).1]
    simp [bareEdges]

end TransitionRelation

end FormalLanguage
