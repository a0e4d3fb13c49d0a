import FormalLanguage.Grammar.Basic
import Mathlib.Data.String.Basic
import Mathlib.Tactic

/-!
How building a grammar ends. Names declared as both kinds come first, then the start symbol, then
the rules; each stage is looked at only when the ones before it found nothing. Only the sets of
declared names matter for this, not the lists that declare them. The rules in front of the first
faulty one leave nothing but their order numbers.
-/

namespace FormalLanguage

namespace Vocabulary

variable {V : Vocabulary}

theorem ambiguous?_eq_none_iff :
    V.ambiguous? = none ↔ ∀ n ∈ V.nonterminals, n ∉ V.terminals := by
  simp [ambiguous?]

/-- The name that is reported as declared twice over is the least of them. -/
theorem isLeast_of_ambiguous? {n : String} (h : V.ambiguous? = some n) :
    IsLeast {m | m ∈ V.nonterminals ∧ m ∈ V.terminals} n := by
  obtain ⟨hmem, hboth, hleast⟩ := SortedSet.find?_eq_some_iff.mp h
  refine ⟨⟨hmem, of_decide_eq_true hboth⟩, ?_⟩
  rintro m ⟨hnonterminal, hterminal⟩
  have hle := hleast m hnonterminal (decide_eq_true hterminal)
  exact compare_le_iff_le.mp (Ordering.isLE_iff_ne_gt.mp hle)

theorem fault?_undeclaredLeft {taken : List UInt32} {r : Rule} (h : V.allowsLeft r.left = false) :
    V.fault? taken r = some (.undeclaredLeft r) := by
  rw [fault?, h]
  rfl

theorem fault?_undeclaredRight {taken : List UInt32} {r : Rule} {before behind : List Symbol}
    {s : Symbol} (hleft : V.allowsLeft r.left = true) (hright : r.right = before ++ s :: behind)
    (hbefore : ∀ t ∈ before, V.allowsRight t = true) (hs : V.allowsRight s = false) :
    V.fault? taken r = some (.undeclaredRight s r) := by
  have hfind : r.right.find? (fun t => !V.allowsRight t) = some s := by
    rw [List.find?_eq_some_iff_append]
    refine ⟨by simp [hs], before, behind, hright, ?_⟩
    intro t ht
    simp [hbefore t ht]
  rw [fault?, if_pos hleft, hfind]

/-- Sound rules only add their numbers to those that are taken. -/
theorem firstFault?_append {taken : List UInt32} {earlier later : List Rule}
    (h : V.firstFault? taken earlier = none) :
    V.firstFault? taken (earlier ++ later) =
      V.firstFault? ((earlier.map Rule.order).reverse ++ taken) later := by
  induction earlier generalizing taken with
  | nil => rfl
  | cons r earlier ih =>
      obtain ⟨hfirst, hrest⟩ := Option.or_eq_none_iff.mp h
      rw [List.cons_append, firstFault?, hfirst, Option.none_or, ih hrest]
      simp

/-- A walk along the rules stops at the first faulty one, with the numbers of those before it. -/
theorem firstFault?_eq_some_iff {taken : List UInt32} {rules : List Rule} {e : GrammarFault} :
    V.firstFault? taken rules = some e ↔
      ∃ earlier r later, rules = earlier ++ r :: later ∧ V.firstFault? taken earlier = none ∧
        V.fault? ((earlier.map Rule.order).reverse ++ taken) r = some e := by
  constructor
  · induction rules generalizing taken with
    | nil => nofun
    | cons q rules ih =>
        intro h
        rcases Option.or_eq_some_iff.mp h with hq | ⟨hq, hrest⟩
        · exact ⟨[], q, rules, rfl, rfl, hq⟩
        · obtain ⟨earlier, r, later, rfl, hearlier, hr⟩ := ih hrest
          refine ⟨q :: earlier, r, later, rfl, ?_, ?_⟩
          · exact Option.or_eq_none_iff.mpr ⟨hq, hearlier⟩
          · simpa using hr
  · rintro ⟨earlier, r, later, rfl, hearlier, hr⟩
    rw [firstFault?_append hearlier, firstFault?, hr, Option.some_or]

theorem firstFault?_of_first {earlier later : List Rule} {r : Rule} {e : GrammarFault}
    (hearlier : V.firstFault? [] earlier = none) (he : ∀ taken, V.fault? taken r = some e) :
    V.firstFault? [] (earlier ++ r :: later) = some e :=
  firstFault?_eq_some_iff.mpr ⟨earlier, r, later, rfl, hearlier, he _⟩

/-- What is wrong first with a start symbol and rules over a vocabulary, or with the vocabulary. -/
def verdict (V : Vocabulary) (rules : List Rule) (start : Symbol) : Option GrammarFault :=
  (V.ambiguous?.map .ambiguousName).or
    (if start.name ∈ V.nonterminals then V.firstFault? [] rules
      else some (.undeclaredStart (.nonterminal start.name)))

theorem verdict_of_ambiguous {rules : List Rule} {start : Symbol} {n : String}
    (h : V.ambiguous? = some n) : V.verdict rules start = some (.ambiguousName n) := by
  rw [verdict, h]
  rfl

theorem verdict_of_unambiguous {rules : List Rule} {start : Symbol}
    (h : V.ambiguous? = none) (hstart : start.name ∈ V.nonterminals) :
    V.verdict rules start = V.firstFault? [] rules := by
  rw [verdict, h, if_pos hstart]
  rfl

theorem verdict_of_undeclaredStart {rules : List Rule} {start : Symbol}
    (h : V.ambiguous? = none) (hstart : start.name ∉ V.nonterminals) :
    V.verdict rules start = some (.undeclaredStart (.nonterminal start.name)) := by
  rw [verdict, h, if_neg hstart]
  rfl

/-- Of the start symbol only its name counts. -/
theorem verdict_congr {W : Vocabulary} {rules : List Rule} {start start' : Symbol} (h : V = W)
    (hname : start.name = start'.name) : V.verdict rules start = W.verdict rules start' := by
  rw [verdict, verdict, h, hname]

end Vocabulary

namespace Grammar

variable {nonterminals terminals : List Symbol} {rules : List Rule} {start : Symbol}

/-- The proofs in a grammar aside, its vocabulary, its rules and its start symbol are all there is
to it. -/
theorem eq_of_parts {G H : Grammar} (hvocabulary : G.toVocabulary = H.toVocabulary)
    (hrules : G.rules = H.rules) (hstart : G.start = H.start) : G = H := by
  cases G
  cases H
  cases hvocabulary
  cases hrules
  cases hstart
  rfl

theorem build_cases (nonterminals terminals : List Symbol) (rules : List Rule) (start : Symbol) :
    let V := Vocabulary.ofSymbols nonterminals terminals
    (∃ e, V.verdict rules start = some e ∧
      build nonterminals terminals rules start = .error e) ∨
    ∃ G, V.verdict rules start = none ∧ build nonterminals terminals rules start = .ok G ∧
      G.toVocabulary = V ∧ G.rules = rules ∧ G.start = start.name := by
  intro V
  unfold build
  dsimp only
  split
  next n hn => exact Or.inl ⟨_, V.verdict_of_ambiguous hn, rfl⟩
  next hn =>
    split
    next hstart =>
      rw [Vocabulary.verdict_of_unambiguous hn hstart]
      split
      next e he => exact Or.inl ⟨e, he, rfl⟩
      next hnone => exact Or.inr ⟨_, hnone, rfl, rfl, rfl, rfl⟩
    next hstart => exact Or.inl ⟨_, Vocabulary.verdict_of_undeclaredStart hn hstart, rfl⟩

theorem build_eq_error_iff {e : GrammarFault} :
    build nonterminals terminals rules start = .error e ↔
      (Vocabulary.ofSymbols nonterminals terminals).verdict rules start = some e := by
  rcases build_cases nonterminals terminals rules start with
    ⟨e', he', hbuild⟩ | ⟨G, hnone, hbuild, _⟩
  · rw [hbuild, he', Except.error.injEq, Option.some.injEq]
  · rw [hbuild, hnone]
    exact iff_of_false nofun nofun

theorem build_of_fault {e : GrammarFault}
    (h : (Vocabulary.ofSymbols nonterminals terminals).verdict rules start = some e) :
    build nonterminals terminals rules start = .error e :=
  build_eq_error_iff.mpr h

theorem build_of_sound
    (h : (Vocabulary.ofSymbols nonterminals terminals).verdict rules start = none) :
    ∃ G, build nonterminals terminals rules start = .ok G ∧
      G.toVocabulary = Vocabulary.ofSymbols nonterminals terminals ∧ G.rules = rules ∧
      G.start = start.name := by
  rcases build_cases nonterminals terminals rules start with ⟨e, he, _⟩ | ⟨G, _, hbuild⟩
  · rw [h] at he
    cases he
  · exact ⟨G, hbuild⟩

theorem exists_build_eq_ok_iff :
    (∃ G, build nonterminals terminals rules start = .ok G) ↔
      (Vocabulary.ofSymbols nonterminals terminals).verdict rules start = none := by
  constructor
  · rintro ⟨G, hG⟩
    cases hverdict : (Vocabulary.ofSymbols nonterminals terminals).verdict rules start with
    | none => rfl
    | some e => cases hG.symm.trans (build_of_fault hverdict)
  · intro hnone
    obtain ⟨G, hG, _⟩ := build_of_sound hnone
    exact ⟨G, hG⟩

/-- A grammar holds what it was built from. -/
theorem parts_of_build_eq_ok {G : Grammar} (h : build nonterminals terminals rules start = .ok G) :
    G.toVocabulary = Vocabulary.ofSymbols nonterminals terminals ∧ G.rules = rules ∧
      G.start = start.name := by
  obtain ⟨H, hH, hparts⟩ := build_of_sound (exists_build_eq_ok_iff.mp ⟨G, h⟩)
  obtain rfl : G = H := Except.ok.inj (h.symm.trans hH)
  exact hparts

theorem build_congr {nonterminals' terminals' : List Symbol} {start' : Symbol}
    (h : Vocabulary.ofSymbols nonterminals terminals =
      Vocabulary.ofSymbols nonterminals' terminals') (hname : start.name = start'.name) :
    build nonterminals terminals rules start = build nonterminals' terminals' rules start' := by
  have hsame : (Vocabulary.ofSymbols nonterminals terminals).verdict rules start =
      (Vocabulary.ofSymbols nonterminals' terminals').verdict rules start' :=
    Vocabulary.verdict_congr h hname
  cases hverdict : (Vocabulary.ofSymbols nonterminals' terminals').verdict rules start' with
  | some e => rw [build_of_fault (hsame.trans hverdict), build_of_fault hverdict]
  | none =>
      obtain ⟨G, hG, hvocabulary, hrules, hstart⟩ := build_of_sound (hsame.trans hverdict)
      obtain ⟨H, hH, hvocabulary', hrules', hstart'⟩ := build_of_sound hverdict
      rw [hG, hH]
      congr 1
      apply eq_of_parts
      · rw [hvocabulary, hvocabulary', h]
      · rw [hrules, hrules']
      · rw [hstart, hstart', hname]

end Grammar

end FormalLanguage
