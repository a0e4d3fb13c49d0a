import FormalLanguage.Grammar.Basic
import FormalLanguage.Proofs.FirstEquations
import FormalLanguage.Proofs.GrammarFaults
import FormalLanguage.Proofs.LeftCorners
import FormalLanguage.Proofs.Search

/-!
What the analyses look at. Two grammars that declare the same names have the same nullable symbols
and the same left corners when their rules let the same symbols vanish and put the same symbols in
front. Grammars whose rules have the same pairs of sides are such grammars, however their rules are
numbered and in whatever order they stand.
-/

namespace FormalLanguage

namespace Grammar

/-- The same names are declared, the rules let the same symbols vanish, whatever is known to vanish
already, and put the same symbols in front. -/
structure AnalyzedAlike (G H : Grammar) : Prop where
  vocabulary : G.toVocabulary = H.toVocabulary
  vanishing : ∀ known left, G.hasVanishingSide known left = H.hasVanishingSide known left
  corners : ∀ nullable s t,
    t ∈ G.directCorners nullable s ↔ t ∈ H.directCorners nullable s

namespace AnalyzedAlike

variable {G H : Grammar}

theorem nullableSet_eq (h : G.AnalyzedAlike H) : G.nullableSet = H.nullableSet := by
  have hnonterminals : G.nonterminals = H.nonterminals :=
    congrArg Vocabulary.nonterminals h.vocabulary
  have hnote : G.noteNullable = H.noteNullable := by
    funext known n
    rw [noteNullable, noteNullable, h.vanishing]
  have hpass : G.nullablePass = H.nullablePass := by
    funext known
    rw [nullablePass, nullablePass, hnote, hnonterminals]
  have hroom : G.undecided = H.undecided := by
    funext known
    rw [undecided, undecided, hnonterminals]
  have hsteps : G.nullability = H.nullability := by
    simp only [nullability, hpass, hroom]
  rw [nullableSet, nullableSet, hsteps]

theorem leftCorner_eq (h : G.AnalyzedAlike H) (nullable : SortedSet Symbol) :
    G.leftCorner nullable = H.leftCorner nullable := by
  have hproper : G.properSymbols = H.properSymbols := by
    rw [properSymbols, properSymbols, h.vocabulary]
  simp only [leftCorner, directLeftCorner, hproper, h.corners nullable]

/-- Both analyses agree. -/
theorem lookahead_eq (h : G.AnalyzedAlike H) :
    G.lookahead.nullable = H.lookahead.nullable ∧
      G.lookahead.leftCorner = H.lookahead.leftCorner := by
  refine ⟨h.nullableSet_eq, ?_⟩
  change G.leftCorner G.nullableSet = H.leftCorner H.nullableSet
  rw [h.nullableSet_eq, h.leftCorner_eq]

theorem firstSets_eq (h : G.AnalyzedAlike H) : G.lookahead.firstSets = H.lookahead.firstSets := by
  simp only [Lookahead.firstSets, Lookahead.firstTerminals, h.lookahead_eq.2]

end AnalyzedAlike

/-- The same names are declared and the same left sides have the same right sides. -/
structure SameSides (G H : Grammar) : Prop where
  vocabulary : G.toVocabulary = H.toVocabulary
  sides : ∀ left right, (∃ r ∈ G.rules, r.left = left ∧ r.right = right) ↔
    ∃ r ∈ H.rules, r.left = left ∧ r.right = right

namespace SameSides

variable {G H : Grammar}

theorem symm (h : G.SameSides H) : H.SameSides G where
  vocabulary := h.vocabulary.symm
  sides left right := (h.sides left right).symm

theorem exists_rule (h : G.SameSides H) {P : Symbol → List Symbol → Prop}
    (hG : ∃ r ∈ G.rules, P r.left r.right) : ∃ r ∈ H.rules, P r.left r.right := by
  obtain ⟨r, hr, hP⟩ := hG
  obtain ⟨s, hs, hleft, hright⟩ := (h.sides r.left r.right).mp ⟨r, hr, rfl, rfl⟩
  exact ⟨s, hs, by rwa [hleft, hright]⟩

theorem exists_rule_iff (h : G.SameSides H) (P : Symbol → List Symbol → Prop) :
    (∃ r ∈ G.rules, P r.left r.right) ↔ ∃ r ∈ H.rules, P r.left r.right :=
  ⟨h.exists_rule, h.symm.exists_rule⟩

theorem analyzedAlike (h : G.SameSides H) : G.AnalyzedAlike H where
  vocabulary := h.vocabulary
  vanishing known left := by
    rw [Bool.eq_iff_iff, hasVanishingSide_iff, hasVanishingSide_iff]
    exact h.exists_rule_iff fun l right => l = left ∧ ∀ s ∈ right, vanishes known s = true
  corners nullable s t := by
    simp only [directCorners, List.mem_flatMap, mem_alternatives, and_assoc]
    exact h.exists_rule_iff fun l right => l = s ∧ t ∈ leading nullable right

theorem lookahead_eq (h : G.SameSides H) :
    G.lookahead.nullable = H.lookahead.nullable ∧
      G.lookahead.leftCorner = H.lookahead.leftCorner :=
  h.analyzedAlike.lookahead_eq

end SameSides

end Grammar

/-!
End markers stand for nothing. What looks at a sequence of symbols passes over end markers, each in
its own way: the search for a symbol that was not declared does not stop at one, the test whether
all symbols vanish does not fail at one, the symbols that can come first do not include one, and the
walk over a sequence goes on behind one with nothing added. So none of them tells sequences apart
that differ by end markers, and grammars whose rules differ by end markers are refused for the same
fault or have the same analyses.
-/

theorem Grammar.leading_of_isEndMarker {s : Symbol} (hs : s.isEndMarker = true)
    (nullable : SortedSet Symbol) (u : List Symbol) :
    leading nullable (s :: u) = leading nullable u := by
  rw [leading, if_pos hs]

theorem Grammar.first_of_isEndMarker (G : Grammar) {s : Symbol} (hs : s.isEndMarker = true) :
    G.lookahead.first s = ⟨∅, true⟩ := by
  have hmissing : s ∉ G.lookahead.leftCorner.symbols := fun hmem =>
    (mem_symbols_leftCorner.mp hmem).2 (Symbol.isEndMarker_iff.mp hs)
  have hnull : G.lookahead.isNullable s = true := vanishes_iff.mpr (Or.inl hs)
  rw [Lookahead.first, G.lookahead.firstTerminals_eq_empty hmissing, hnull]

theorem Grammar.firstOf_of_isEndMarker (G : Grammar) {s : Symbol} (hs : s.isEndMarker = true)
    (u : List Symbol) : G.lookahead.firstOf (s :: u) = G.lookahead.firstOf u := by
  rw [← List.singleton_append, Lookahead.firstOf_append, Lookahead.firstOf_singleton,
    G.first_of_isEndMarker hs, FirstSet.nothing_followedBy]

namespace EndVariant

variable {u v : List Symbol}

/-- A function of sequences does not see end markers if it does not see one in front, and if what it
gives for a sequence with one more symbol in front depends on what it gives without. -/
theorem map_eq {α : Type} {f : List Symbol → α} (h : EndVariant u v)
    (hend : ∀ s u, s.isEndMarker = true → f (s :: u) = f u)
    (hcons : ∀ s u v, f u = f v → f (s :: u) = f (s :: v)) : f u = f v := by
  induction h with
  | nil => rfl
  | keep s _ ih => exact hcons s _ _ ih
  | putIn hs _ ih => rw [hend _ _ (Symbol.isEndMarker_iff.mpr hs), ih]
  | leaveOut hs _ ih => rw [hend _ _ (Symbol.isEndMarker_iff.mpr hs), ih]

theorem find?_eq {p : Symbol → Bool} (h : EndVariant u v)
    (hp : ∀ s, s.isEndMarker = true → p s = false) : u.find? p = v.find? p := by
  refine h.map_eq (fun s u hs => ?_) fun s u v ih => ?_
  · rw [List.find?_cons, hp s hs]
  · rw [List.find?_cons, List.find?_cons, ih]

theorem all_eq {p : Symbol → Bool} (h : EndVariant u v)
    (hp : ∀ s, s.isEndMarker = true → p s = true) : u.all p = v.all p := by
  refine h.map_eq (f := fun w => w.all p) (fun s u hs => ?_) fun s u v ih => ?_
  · rw [List.all_cons, hp s hs, Bool.true_and]
  · rw [List.all_cons, List.all_cons, ih]

theorem leading_eq (h : EndVariant u v) (nullable : SortedSet Symbol) :
    Grammar.leading nullable u = Grammar.leading nullable v := by
  refine h.map_eq (fun s u hs => Grammar.leading_of_isEndMarker hs nullable u) fun s u v ih => ?_
  rw [Grammar.leading, Grammar.leading, ih]

theorem all_vanishes_eq (h : EndVariant u v) (known : SortedSet Symbol) :
    u.all (Grammar.vanishes known) = v.all (Grammar.vanishes known) :=
  h.all_eq fun _ hs => Grammar.vanishes_iff.mpr (Or.inl hs)

theorem allNullable_eq (h : EndVariant u v) (G : Grammar) :
    G.lookahead.allNullable u = G.lookahead.allNullable v :=
  h.all_vanishes_eq G.lookahead.nullable

theorem firstOf_eq (h : EndVariant u v) (G : Grammar) :
    G.lookahead.firstOf u = G.lookahead.firstOf v := by
  refine h.map_eq (fun s u hs => G.firstOf_of_isEndMarker hs u) fun s u v ih => ?_
  rw [← List.singleton_append, Lookahead.firstOf_append, ih, ← Lookahead.firstOf_append]
  rfl

end EndVariant

namespace Vocabulary

variable {V : Vocabulary} {rules rules' : List Rule}

theorem fault?_variant {r s : Rule} (h : r.Variant s) (taken : List UInt32) :
    Option.Rel GrammarFault.Variant (V.fault? taken r) (V.fault? taken s) := by
  have hfind : r.right.find? (fun t => !V.allowsRight t) =
      s.right.find? (fun t => !V.allowsRight t) :=
    h.right.find?_eq fun t ht => by rw [allowsRight, ht, Bool.true_or, Bool.not_true]
  rw [fault?, fault?, ← h.left, ← hfind, ← h.order]
  split
  next =>
    split
    next t _ => exact .some (.undeclaredRight t h)
    next =>
      split
      next => exact .some (.same _)
      next => exact .none
  next => exact .some (.undeclaredLeft h)

/-- The rules in front of a faulty rule have no faults in the variant either, and leave the same
order numbers. -/
theorem firstFault?_variant (h : List.Forall₂ Rule.Variant rules rules') (taken : List UInt32) :
    Option.Rel GrammarFault.Variant (V.firstFault? taken rules) (V.firstFault? taken rules') := by
  induction h generalizing taken with
  | nil => exact .none
  | @cons r s rules rules' hrs _ ih =>
      have hlater := ih (r.order :: taken)
      rw [firstFault?, firstFault?, ← hrs.order]
      have hfirst := fault?_variant (V := V) hrs taken
      generalize V.fault? taken r = x at hfirst ⊢
      generalize V.fault? taken s = y at hfirst ⊢
      cases hfirst with
      | some he => exact .some he
      | none => exact hlater

theorem verdict_variant (h : List.Forall₂ Rule.Variant rules rules') (start : Symbol) :
    Option.Rel GrammarFault.Variant (V.verdict rules start) (V.verdict rules' start) := by
  cases hambiguous : V.ambiguous? with
  | some n =>
      rw [verdict_of_ambiguous hambiguous, verdict_of_ambiguous hambiguous]
      exact .some (.same _)
  | none =>
      by_cases hstart : start.name ∈ V.nonterminals
      · rw [verdict_of_unambiguous hambiguous hstart, verdict_of_unambiguous hambiguous hstart]
        exact firstFault?_variant h []
      · rw [verdict_of_undeclaredStart hambiguous hstart,
          verdict_of_undeclaredStart hambiguous hstart]
        exact .some (.same _)

end Vocabulary

namespace Grammar

variable {G H : Grammar}

theorem alternatives_variant (h : List.Forall₂ Rule.Variant G.rules H.rules) (left : Symbol) :
    List.Forall₂ Rule.Variant (G.alternatives left) (H.alternatives left) := by
  refine List.rel_filter ?_ h
  intro r s hrs
  simp only [hrs.left]

theorem hasVanishingSide_variant (h : List.Forall₂ Rule.Variant G.rules H.rules)
    (known : SortedSet Symbol) (left : Symbol) :
    G.hasVanishingSide known left = H.hasVanishingSide known left :=
  any_eq_of_paired (alternatives_variant h left) fun _ _ hrs => hrs.right.all_vanishes_eq known

theorem directCorners_variant (h : List.Forall₂ Rule.Variant G.rules H.rules)
    (nullable : SortedSet Symbol) (left : Symbol) :
    G.directCorners nullable left = H.directCorners nullable left := by
  have hsides : (G.alternatives left).map (fun r => leading nullable r.right) =
      (H.alternatives left).map (fun r => leading nullable r.right) :=
    map_eq_of_paired (alternatives_variant h left) fun r s hrs => hrs.right.leading_eq nullable
  rw [directCorners, directCorners, List.flatMap_def, hsides, List.flatMap_def]

theorem analyzedAlike_of_variant (hvocabulary : G.toVocabulary = H.toVocabulary)
    (h : List.Forall₂ Rule.Variant G.rules H.rules) : G.AnalyzedAlike H where
  vocabulary := hvocabulary
  vanishing := hasVanishingSide_variant h
  corners nullable s t := by rw [directCorners_variant h]

/-- Building a grammar from rules that differ by end markers ends alike. -/
theorem build_variant {rules rules' : List Rule} (h : List.Forall₂ Rule.Variant rules rules')
    (nonterminals terminals : List Symbol) (start : Symbol) :
    (∃ e e', build nonterminals terminals rules start = .error e ∧
      build nonterminals terminals rules' start = .error e' ∧ e.Variant e') ∨
    ∃ G H, build nonterminals terminals rules start = .ok G ∧
      build nonterminals terminals rules' start = .ok H ∧ G.AnalyzedAlike H := by
  have hverdicts := Vocabulary.verdict_variant
    (V := Vocabulary.ofSymbols nonterminals terminals) h start
  generalize hfirst : (Vocabulary.ofSymbols nonterminals terminals).verdict rules start = x
    at hverdicts
  generalize hsecond : (Vocabulary.ofSymbols nonterminals terminals).verdict rules' start = y
    at hverdicts
  cases hverdicts with
  | some he => exact Or.inl ⟨_, _, build_of_fault hfirst, build_of_fault hsecond, he⟩
  | none =>
      obtain ⟨G, hG, hvocabulary, hrules, _⟩ := build_of_sound hfirst
      obtain ⟨H, hH, hvocabulary', hrules', _⟩ := build_of_sound hsecond
      refine Or.inr ⟨G, H, hG, hH, ?_⟩
      refine analyzedAlike_of_variant (hvocabulary.trans hvocabulary'.symm) ?_
      rwa [hrules, hrules']

theorem endFree_row (G : Grammar) (s : Symbol) : EndFree (G.lookahead.leftCorner.row s) := by
  intro t ht
  have hproper := (proper_of_holds (SymbolRelation.mem_row.mp ht)).2
  exact Symbol.isEndMarker_eq_false_iff.mp (mem_properSymbols.mp hproper).2

theorem endFree_firstTerminals (G : Grammar) (s : Symbol) :
    EndFree (G.lookahead.firstTerminals s) :=
  fun t ht => G.endFree_row s t (SortedSet.mem_filter.mp ht).1

theorem endFree_firstOfMeanings (G : Grammar) (ms : List (Option Symbol)) :
    EndFree (G.lookahead.firstOfMeanings ms).terminals := by
  have hnone : EndFree ∅ := by simp [EndFree]
  induction ms with
  | nil => exact hnone
  | cons m ms ih =>
      cases m with
      | none => exact hnone
      | some s =>
          rw [Lookahead.firstOfMeanings]
          split
          next =>
            intro t ht
            rcases SortedSet.mem_union.mp ht with hs | hlater
            · exact G.endFree_firstTerminals s t hs
            · exact ih t hlater
          next => exact G.endFree_firstTerminals s

/-- End markers are transparent, whatever their kinds and whether they are declared. Rules that
differ by end markers on their right sides, one of which may be an end marker and nothing else, are
refused together and for the same fault, or are accepted together, and then the grammars have the
same nullable symbols, the same left corners and the same FIRST sets. Sequences that differ by end
markers begin with the same terminals and can be empty together. No row of left corners and no FIRST
set, of a symbol, a sequence or a text, holds a symbol with the name of the end marker. -/
theorem endMarkers_transparent :
    (∀ (nonterminals terminals : List Symbol) (start : Symbol) (rules rules' : List Rule),
      List.Forall₂ Rule.Variant rules rules' →
      (∃ e e', build nonterminals terminals rules start = .error e ∧
        build nonterminals terminals rules' start = .error e' ∧ e.Variant e') ∨
      ∃ G H, build nonterminals terminals rules start = .ok G ∧
        build nonterminals terminals rules' start = .ok H ∧
        G.lookahead.nullable = H.lookahead.nullable ∧
        G.lookahead.leftCorner = H.lookahead.leftCorner ∧
        G.lookahead.firstSets = H.lookahead.firstSets) ∧
    (∀ (G : Grammar) (u v : List Symbol), EndVariant u v →
      G.lookahead.firstOf u = G.lookahead.firstOf v ∧
      G.lookahead.allNullable u = G.lookahead.allNullable v) ∧
    ∀ G : Grammar,
      (∀ X : Symbol, EndFree (G.lookahead.leftCorner.row X) ∧
        EndFree (G.lookahead.first X).terminals) ∧
      (∀ entry ∈ G.lookahead.firstSets, EndFree entry.2) ∧
      (∀ u : List Symbol, EndFree (G.lookahead.firstOf u).terminals) ∧
      ∀ text : String, EndFree (G.lookahead.firstOfText text).terminals := by
  refine ⟨?_, fun G u v h => ⟨h.firstOf_eq G, h.allNullable_eq G⟩, fun G => ?_⟩
  · intro nonterminals terminals start rules rules' h
    rcases build_variant h nonterminals terminals start with herror | ⟨G, H, hG, hH, halike⟩
    · exact Or.inl herror
    · obtain ⟨hnullable, hcorners⟩ := halike.lookahead_eq
      exact Or.inr ⟨G, H, hG, hH, hnullable, hcorners, halike.firstSets_eq⟩
  · refine ⟨fun X => ⟨G.endFree_row X, G.endFree_firstTerminals X⟩, ?_, ?_, ?_⟩
    · intro entry hentry
      obtain ⟨s, _, rfl⟩ := List.mem_map.mp hentry
      exact G.endFree_firstTerminals s
    · exact fun u => G.endFree_firstOfMeanings (u.map some)
    · exact fun text => G.endFree_firstOfMeanings (G.lookahead.meanings text)

/-- Rules with end markers of both kinds, one of them a right side by itself and one a left side. -/
def markedRules : List Rule :=
  [⟨.nonterminal "S", [.terminal "$"], 0⟩,
    ⟨.nonterminal "S", [.nonterminal "$", .terminal "a", .terminal "$"], 1⟩,
    ⟨.nonterminal "$", [.nonterminal "S", .nonterminal "$", .nonterminal "S"], 2⟩]

/-- The same rules with other end markers on the right. -/
def unmarkedRules : List Rule :=
  [⟨.nonterminal "S", [], 0⟩,
    ⟨.nonterminal "S", [.terminal "$", .terminal "a"], 1⟩,
    ⟨.nonterminal "$", [.nonterminal "S", .nonterminal "S"], 2⟩]

/-- Both are accepted, with the end marker declared, and analyzed alike. Without the terminal `a`
both are refused. -/
theorem endMarkers_transparent_markedRules :
    let nonterminals : List Symbol := [.nonterminal "S", .nonterminal "$"]
    let start : Symbol := .nonterminal "S"
    let sequence : List Symbol := [.nonterminal "S", .terminal "a"]
    let marked : List Symbol := [.nonterminal "$", .nonterminal "S", .endMarker, .terminal "a"]
    List.Forall₂ Rule.Variant markedRules unmarkedRules ∧
    EndVariant sequence marked ∧
    (∃ G H, build nonterminals [.terminal "a"] markedRules start = .ok G ∧
      build nonterminals [.terminal "a"] unmarkedRules start = .ok H ∧
      G.lookahead.nullable = H.lookahead.nullable ∧
      G.lookahead.leftCorner = H.lookahead.leftCorner ∧
      G.lookahead.firstOf sequence = G.lookahead.firstOf marked) ∧
    ∃ e e', build nonterminals [] markedRules start = .error e ∧
      build nonterminals [] unmarkedRules start = .error e' ∧ e.Variant e' := by
  intro nonterminals start sequence marked
  obtain ⟨hbuild, hsequences, _⟩ := endMarkers_transparent
  have hrules : List.Forall₂ Rule.Variant markedRules unmarkedRules :=
    .cons ⟨rfl, .leaveOut rfl .nil, rfl⟩
      (.cons ⟨rfl, .putIn rfl (.leaveOut rfl (.keep _ (.leaveOut rfl .nil))), rfl⟩
        (.cons ⟨rfl, .keep _ (.leaveOut rfl (.keep _ .nil)), rfl⟩ .nil))
  have hmarked : EndVariant sequence marked := .putIn rfl (.keep _ (.putIn rfl (.keep _ .nil)))
  obtain ⟨K, hK⟩ : ∃ K, build nonterminals [.terminal "a"] markedRules start = .ok K :=
    exists_build_eq_ok_iff.mpr (by decide +kernel)
  have hrefused : ¬ ∃ K, build nonterminals [] markedRules start = .ok K := fun h =>
    absurd (exists_build_eq_ok_iff.mp h) (by decide +kernel)
  refine ⟨hrules, hmarked, ?_, ?_⟩
  · rcases hbuild nonterminals [.terminal "a"] start _ _ hrules with
      ⟨e, _, he, _⟩ | ⟨G, H, hG, hH, hnullable, hcorners, _⟩
    · cases hK.symm.trans he
    · exact ⟨G, H, hG, hH, hnullable, hcorners, (hsequences G _ _ hmarked).1⟩
  · rcases hbuild nonterminals [] start _ _ hrules with herror | ⟨G, _, hG, _⟩
    · exact herror
    · exact absurd ⟨G, hG⟩ hrefused

end Grammar

end FormalLanguage
