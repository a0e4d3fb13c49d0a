import FormalLanguage.Automaton.Relation

/-!
The edges that leave a state are read off an ordered set by skipping everything before the least
conceivable edge out of that state and stopping at the first edge with another source. This
module shows that the shortcut gives what a scan of the whole set would: edges are ordered by
source first, no edge out of a state comes before the one to state 0 without a label, and so the
edges of one source stand together.
-/

namespace FormalLanguage

namespace Edge

/-- Edges in ascending order have sources in ascending order. -/
theorem source_le_of_compare_lt {d e : Edge} (h : compare d e = .lt) : d.source ≤ e.source := by
  change (compare d.source e.source).then _ = .lt at h
  rcases Ordering.then_eq_lt.mp h with hlt | ⟨heq, _⟩
  · exact UInt32.le_of_lt (Std.compare_eq_lt.mp hlt)
  · rw [Std.compare_eq_iff_eq.mp heq]
    exact UInt32.le_refl e.source

/-- What comes before the least conceivable edge out of a state has a lower source. -/
theorem compare_least_isLT_iff {e : Edge} {q : State} :
    (compare e ⟨q, 0, none⟩).isLT = true ↔ e.source < q := by
  rw [Ordering.isLT_iff_eq_lt]
  change (compare e.source q).then ((compare e.target 0).then (compare e.label none)) = .lt ↔ _
  rw [Ordering.then_eq_lt, Std.compare_eq_lt, Ordering.then_eq_lt, Std.compare_eq_lt]
  constructor
  · rintro (hlt | ⟨_, hzero | ⟨_, hnone⟩⟩)
    · exact hlt
    · exact absurd hzero UInt32.not_lt_zero
    · cases hl : e.label with
      | none => simp [hl] at hnone
      | some a => simp [hl, compare] at hnone
  · exact Or.inl

end Edge

/-- In a list with ascending sources, those from `q` on that stand in front of the first other
source are all those with source `q`. -/
private theorem takeWhile_source_eq_filter (q : State) (es : List Edge)
    (hsorted : es.Pairwise fun d e => d.source ≤ e.source) (hleast : ∀ e ∈ es, q ≤ e.source) :
    es.takeWhile (fun e => e.source == q) = es.filter fun e => e.source == q := by
  induction es with
  | nil => rfl
  | cons e es ih =>
      obtain ⟨hfirst, hrest⟩ := List.pairwise_cons.mp hsorted
      by_cases hq : e.source = q
      · have hkeep : (e.source == q) = true := by simp [hq]
        simp only [List.takeWhile_cons, List.filter_cons, hkeep, if_true]
        rw [ih hrest fun d hd => hleast d (List.mem_cons_of_mem e hd)]
      · have hstop : (e.source == q) = false := by simp [hq]
        simp only [List.takeWhile_cons, List.filter_cons, hstop, Bool.false_eq_true, if_false]
        symm
        apply List.filter_eq_nil_iff.mpr
        intro d hd hsame
        have hle : d.source ≤ q := by simp [beq_iff_eq.mp hsame]
        exact hq (UInt32.le_antisymm (UInt32.le_trans (hfirst d hd) hle)
          (hleast e (by simp)))

/-- Skipping the sources below `q` first changes nothing about that. -/
private theorem takeWhile_dropWhile_source_eq_filter (q : State) (es : List Edge)
    (hsorted : es.Pairwise fun d e => d.source ≤ e.source) :
    (es.dropWhile fun e => (compare e ⟨q, 0, none⟩).isLT).takeWhile (fun e => e.source == q) =
      es.filter fun e => e.source == q := by
  induction es with
  | nil => rfl
  | cons e es ih =>
      obtain ⟨hfirst, hrest⟩ := List.pairwise_cons.mp hsorted
      by_cases hlow : e.source < q
      · have hskip := Edge.compare_least_isLT_iff.mpr hlow
        have hother : (e.source == q) = false := beq_false_of_ne (UInt32.ne_of_lt hlow)
        simp only [List.dropWhile_cons, List.filter_cons, hskip, hother, if_true,
          Bool.false_eq_true, if_false]
        exact ih hrest
      · have hle : q ≤ e.source := UInt32.not_lt.mp hlow
        have hstay : ¬ (compare e ⟨q, 0, none⟩).isLT = true := fun h =>
          hlow (Edge.compare_least_isLT_iff.mp h)
        rw [List.dropWhile_cons, if_neg hstay]
        apply takeWhile_source_eq_filter q (e :: es) hsorted
        intro d hd
        rcases List.mem_cons.mp hd with rfl | hd
        · exact hle
        · exact UInt32.le_trans hle (hfirst d hd)

/-- The edges found by the shortcut are those that a scan for the source would find, in the same
order. -/
theorem toList_outgoing (q : State) (edges : SortedSet Edge) :
    (outgoing q edges).toList = edges.toList.filter fun e => e.source == q :=
  takeWhile_dropWhile_source_eq_filter q edges.toList
    (edges.ascending.imp Edge.source_le_of_compare_lt)

@[simp] theorem mem_outgoing {q : State} {edges : SortedSet Edge} {e : Edge} :
    e ∈ outgoing q edges ↔ e ∈ edges ∧ e.source = q := by
  rw [← SortedSet.mem_toList, toList_outgoing, List.mem_filter, SortedSet.mem_toList, beq_iff_eq]

namespace TransitionRelation

/-- Reading a letter leads along every edge with that label out of a state of the configuration,
and nowhere else. -/
@[simp] theorem mem_move {f : TransitionRelation} {states : Configuration} {a : Letter}
    {q : State} : q ∈ f.move states a ↔ ∃ p ∈ states, ⟨p, q, some a⟩ ∈ f := by
  unfold move
  rw [SortedSet.mem_ofList, List.mem_flatMap]
  refine exists_congr fun p => and_congr_right fun _ => ?_
  constructor
  · intro hq
    obtain ⟨⟨_, _, _⟩, he, rfl⟩ := List.mem_map.mp hq
    obtain ⟨hout, hlabel⟩ := List.mem_filter.mp he
    obtain ⟨hmem, rfl⟩ := mem_outgoing.mp hout
    obtain rfl := beq_iff_eq.mp hlabel
    exact (mem_labeled.mp hmem).1
  · intro hedge
    exact List.mem_map.mpr ⟨⟨p, q, some a⟩, by simp [hedge], rfl⟩

end TransitionRelation

/-!
The edges that leave a state, read off a range, against those that a scan of all edges finds. A
range holds what is not below its bound. No edge out of a state is below the least conceivable one,
and edges in ascending order have ascending sources, so the range begins with the edges out of the
state and the first other source ends them. Collecting targets edge by edge from these ranges comes
to the same as going through all edges for a source in the configuration.
-/

/-- What an ascending list has left when the values below a bound are dropped is what is not below
it. -/
private theorem dropWhile_below_eq_filter {α : Type} [Ord α] [Std.TransOrd α] (bound : α)
    (xs : List α) (hxs : xs.Pairwise fun x y => compare x y = .lt) :
    xs.dropWhile (fun x => (compare x bound).isLT) =
      xs.filter fun x => (compare x bound).isGE := by
  induction xs with
  | nil => rfl
  | cons x xs ih =>
      obtain ⟨hfirst, hrest⟩ := List.pairwise_cons.mp hxs
      by_cases hbelow : compare x bound = .lt
      · rw [List.dropWhile_cons_of_pos (by simp [hbelow]),
          List.filter_cons_of_neg (by simp [hbelow])]
        exact ih hrest
      · have hx : (compare x bound).isGE = true := Ordering.isGE_iff_ne_lt.mpr hbelow
        rw [List.dropWhile_cons_of_neg (by simpa using hbelow)]
        symm
        apply List.filter_eq_self.mpr
        intro y hy
        rcases List.mem_cons.mp hy with rfl | hy
        · exact hx
        · have hyx : compare y x = .gt := Std.OrientedCmp.gt_iff_lt.mpr (hfirst y hy)
          exact Std.TransCmp.isGE_trans (by simp [hyx]) hx

/-- A range is what a scan for the values that are not below its bound finds. -/
theorem SortedSet.toList_startingAt {α : Type} [Ord α] [Std.TransOrd α] (bound : α)
    (s : SortedSet α) :
    (s.startingAt bound).toList = s.toList.filter fun x => (compare x bound).isGE :=
  dropWhile_below_eq_filter bound s.toList s.ascending

namespace Edge

variable {d e : Edge}

/-- The comparison of edges is the order by source, by target and by label. -/
theorem compare_eq_lt_iff : compare d e = .lt ↔ d.Before e := by
  have hletters (a b : Letter) : compare a b = .lt ↔ a < b := compareOfLessAndEq_eq_lt
  change (compare d.source e.source).then
    ((compare d.target e.target).then (compare d.label e.label)) = .lt ↔ _
  rw [Ordering.then_eq_lt, Std.compare_eq_lt, Ordering.then_eq_lt, Std.compare_eq_lt,
    Std.LawfulEqCmp.compare_eq_iff_eq, Std.LawfulEqCmp.compare_eq_iff_eq]
  obtain ⟨source, target, label⟩ := d
  obtain ⟨source', target', label'⟩ := e
  constructor
  · rintro (hsource | ⟨hsource, htarget | ⟨htarget, hlabel⟩⟩)
    · exact .bySource hsource
    · exact .byTarget hsource htarget
    · cases hsource
      cases htarget
      match label, label' with
      | none, none => cases hlabel
      | none, some a => exact .byKind source target a
      | some a, none => cases hlabel
      | some a, some b => exact .byLetter source target ((hletters a b).mp hlabel)
  · rintro (hsource | ⟨hsource, htarget⟩ | ⟨_, _, _⟩ | ⟨_, _, hletter⟩)
    · exact Or.inl hsource
    · exact Or.inr ⟨hsource, Or.inl htarget⟩
    · exact Or.inr ⟨rfl, Or.inr ⟨rfl, rfl⟩⟩
    · exact Or.inr ⟨rfl, Or.inr ⟨rfl, (hletters _ _).mpr hletter⟩⟩

theorem pairwise_before (edges : SortedSet Edge) : edges.toList.Pairwise Before :=
  edges.ascending.imp compare_eq_lt_iff.mp

/-- No edge out of a state comes before the one to state 0 without a label. -/
theorem least_before (q r : State) (label : Option Letter) :
    (⟨q, 0, none⟩ : Edge) = ⟨q, r, label⟩ ∨ Before ⟨q, 0, none⟩ ⟨q, r, label⟩ := by
  by_cases hzero : r = 0
  · subst hzero
    cases label with
    | none => exact Or.inl rfl
    | some a => exact Or.inr (.byKind q 0 a)
  · exact Or.inr (.byTarget rfl (UInt32.pos_iff_ne_zero.mpr hzero))

end Edge

/-- The range from the least conceivable edge out of a state on holds the edges out of this state
and out of all higher ones. -/
theorem mem_startingAt_least {q : State} {edges : SortedSet Edge} {e : Edge} :
    e ∈ edges.startingAt ⟨q, 0, none⟩ ↔ e ∈ edges ∧ q ≤ e.source := by
  rw [← SortedSet.mem_toList, SortedSet.toList_startingAt, List.mem_filter, SortedSet.mem_toList,
    Ordering.isGE_iff_ne_lt, ← Ordering.isLT_iff_eq_lt, Edge.compare_least_isLT_iff, UInt32.not_lt]

namespace TransitionRelation

variable {f : TransitionRelation} {states : Configuration} {a : Letter}

@[simp] theorem mem_scan {q : State} :
    q ∈ f.scan states a ↔ ∃ e ∈ f.labeled, e.source ∈ states ∧ e.label = some a ∧ e.target = q := by
  simp [scan, and_assoc]

theorem mem_foldl_noteTarget {es : List Edge} {found : Configuration} {q : State} :
    q ∈ es.foldl (noteTarget a) found ↔
      q ∈ found ∨ ∃ e ∈ es, e.label = some a ∧ e.target = q := by
  induction es generalizing found with
  | nil => simp
  | cons e es ih =>
      rw [List.foldl_cons, ih, noteTarget]
      split
      next hlabel => simp [hlabel, or_assoc, or_left_comm, eq_comm]
      next hlabel => simp [hlabel]

theorem mem_collect {q : State} :
    q ∈ f.collect states a ↔
      ∃ p ∈ states, ∃ e ∈ outgoing p f.labeled, e.label = some a ∧ e.target = q := by
  have hfold : ∀ (ps : List State) (found : Configuration),
      q ∈ ps.foldl (fun found p => (outgoing p f.labeled).toList.foldl (noteTarget a) found) found ↔
        q ∈ found ∨ ∃ p ∈ ps, ∃ e ∈ outgoing p f.labeled, e.label = some a ∧ e.target = q := by
    intro ps
    induction ps with
    | nil => simp
    | cons p ps ih =>
        intro found
        rw [List.foldl_cons, ih, mem_foldl_noteTarget, or_assoc]
        simp
  simpa [collect] using hfold states.toList ∅

/-- Collecting edge by edge from ranges comes to the same as going through all edges. -/
theorem collect_eq_scan (f : TransitionRelation) (states : Configuration) (a : Letter) :
    f.collect states a = f.scan states a := by
  apply SortedSet.ext
  intro q
  rw [mem_collect, mem_scan]
  simp only [mem_outgoing]
  constructor
  · rintro ⟨p, hp, e, ⟨he, rfl⟩, hread⟩
    exact ⟨e, he, hp, hread⟩
  · rintro ⟨e, he, hp, hread⟩
    exact ⟨e.source, hp, e, ⟨he, rfl⟩, hread⟩

theorem move_eq_collect (f : TransitionRelation) (states : Configuration) (a : Letter) :
    f.move states a = f.collect states a := by
  apply SortedSet.ext
  intro q
  rw [mem_collect, move, SortedSet.mem_ofList]
  simp [and_assoc]

end TransitionRelation

/-- Reading the edges out of a state off a range is complete and exact, whatever edges there are
and whatever the state. Nothing out of the state comes before the bound of the range, and edges in
order have their sources in order; so the range holds the edges out of this state and out of higher
ones, and those read off it are what a scan for the source finds: all edges of the set out of the
state and no others, each of them once and in order. Therefore a letter leads where a scan of all
labelled edges for a source in the configuration and this letter leads, and so it does if the
targets are collected state by state and edge by edge. -/
theorem outgoing_exact (edges : SortedSet Edge) (q : State) :
    let least : Edge := ⟨q, 0, none⟩
    (∀ (r : State) (label : Option Letter),
      least = ⟨q, r, label⟩ ∨ least.Before ⟨q, r, label⟩) ∧
    edges.toList.Pairwise (fun d e => d.Before e ∧ d.source ≤ e.source) ∧
    (∀ e, e ∈ edges.startingAt least ↔ e ∈ edges ∧ q ≤ e.source) ∧
    (outgoing q edges).toList = edges.toList.filter (fun e => decide (e.source = q)) ∧
    (∀ e, e ∈ (outgoing q edges).toList ↔ e ∈ edges ∧ e.source = q) ∧
    (outgoing q edges).toList.Nodup ∧ (outgoing q edges).toList.Pairwise Edge.Before ∧
    ∀ (f : TransitionRelation) (states : Configuration) (a : Letter),
      f.move states a = f.scan states a ∧ f.collect states a = f.scan states a ∧
      ∀ t, t ∈ f.move states a ↔
        ∃ e ∈ f.labeled, e.source ∈ states ∧ e.label = some a ∧ e.target = t := by
  intro least
  refine ⟨Edge.least_before q, ?_, fun e => mem_startingAt_least, toList_outgoing q edges,
    fun e => mem_outgoing, (outgoing q edges).nodup_toList, Edge.pairwise_before _, ?_⟩
  · exact edges.ascending.imp fun h =>
      ⟨Edge.compare_eq_lt_iff.mp h, Edge.source_le_of_compare_lt h⟩
  · intro f states a
    have hmove : f.move states a = f.scan states a :=
      (f.move_eq_collect states a).trans (f.collect_eq_scan states a)
    refine ⟨hmove, f.collect_eq_scan states a, fun t => ?_⟩
    rw [hmove]
    exact TransitionRelation.mem_scan

end FormalLanguage
