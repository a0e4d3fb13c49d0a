import FormalLanguage.Grammar.Draft
import FormalLanguage.Proofs.GrammarFaults

/-!
Drafts and the order of additions. Each addition puts its names and rules behind those that are
there already and touches nothing else, so a draft is known from what its additions declare taken
together. Names get their kinds when the draft is built, and there only the sets of declared names
are looked at; the sequence of rules alone keeps its order, which numbers the rules.
-/

namespace FormalLanguage.Draft

theorem addOrKeep_eq (D : Draft) (addition : Addition) :
    D.addOrKeep addition =
      ⟨D.start, D.nonterminals ++ addition.nonterminalNames,
        D.terminals ++ addition.terminalNames, D.rules ++ addition.newRules⟩ := by
  cases addition with
  | line text =>
      simp only [addOrKeep, add, Addition.nonterminalNames, Addition.terminalNames,
        Addition.newRules, List.append_nil]
      cases Line.split text with
      | ok line => rfl
      | error e => simp
  | _ => simp [addOrKeep, add, Addition.nonterminalNames, Addition.terminalNames,
      Addition.newRules]

/-- A refused addition declares nothing. -/
theorem addOrKeep_of_refused {D : Draft} {addition : Addition} {e : GrammarFault}
    (h : D.add addition = .error e) : D.addOrKeep addition = D := by
  rw [addOrKeep, h]

theorem addAll_eq (D : Draft) (additions : List Addition) :
    D.addAll additions =
      ⟨D.start, D.nonterminals ++ additions.flatMap Addition.nonterminalNames,
        D.terminals ++ additions.flatMap Addition.terminalNames,
        D.rules ++ additions.flatMap Addition.newRules⟩ := by
  induction additions generalizing D with
  | nil => simp [addAll]
  | cons addition additions ih =>
      have hstep : D.addAll (addition :: additions) = (D.addOrKeep addition).addAll additions := rfl
      rw [hstep, ih, addOrKeep_eq]
      simp

theorem addAll_new (start : String) (additions : List Addition) :
    (new start).addAll additions = ofAdditions start additions :=
  addAll_eq (new start) additions

theorem addAll_append (D : Draft) (before behind : List Addition) :
    D.addAll (before ++ behind) = (D.addAll before).addAll behind := by
  rw [addAll, List.foldl_append]
  rfl

/-- The vocabulary that a draft declares. -/
def vocabulary (D : Draft) : Vocabulary :=
  ⟨SortedSet.ofList D.nonterminals, SortedSet.ofList D.terminals⟩

theorem ofSymbols_eq_vocabulary (D : Draft) :
    Vocabulary.ofSymbols (D.nonterminals.map .nonterminal) (D.terminals.map .terminal) =
      D.vocabulary := by
  have hnonterminals :
      (D.nonterminals.map Symbol.nonterminal).map Symbol.name = D.nonterminals := by
    rw [List.map_map]
    exact List.map_id _
  have hterminals : (D.terminals.map Symbol.terminal).map Symbol.name = D.terminals := by
    rw [List.map_map]
    exact List.map_id _
  rw [Vocabulary.ofSymbols, hnonterminals, hterminals]
  rfl

section Congruence

variable {D E : Draft} (hnonterminals : ∀ n, n ∈ D.nonterminals ↔ n ∈ E.nonterminals)
  (hterminals : ∀ n, n ∈ D.terminals ↔ n ∈ E.terminals)

include hnonterminals hterminals

theorem vocabulary_congr : D.vocabulary = E.vocabulary := by
  have hleft : SortedSet.ofList D.nonterminals = SortedSet.ofList E.nonterminals :=
    SortedSet.ofList_eq fun n => (hnonterminals n).trans SortedSet.mem_ofList.symm
  have hright : SortedSet.ofList D.terminals = SortedSet.ofList E.terminals :=
    SortedSet.ofList_eq fun n => (hterminals n).trans SortedSet.mem_ofList.symm
  exact congrArg₂ Vocabulary.mk hleft hright

theorem symbolOf_congr : D.symbolOf = E.symbolOf := by
  funext name
  simp only [symbolOf, hnonterminals, hterminals]

/-- A draft is built from its start symbol, the sets of declared names and the sequence of rules. -/
theorem build_eq_of_same (hstart : D.start = E.start) (hrules : D.rules = E.rules) :
    D.build = E.build := by
  have hnumbered : D.numberedRules = E.numberedRules := by
    rw [numberedRules, numberedRules, symbolOf_congr hnonterminals hterminals, hrules]
  rw [build, build, hnumbered, hstart]
  refine Grammar.build_congr ?_ rfl
  rw [ofSymbols_eq_vocabulary, ofSymbols_eq_vocabulary, vocabulary_congr hnonterminals hterminals]

end Congruence

/-- What a draft builds depends on what was declared and not on when. Two sequences of additions
that declare the same nonterminals and the same terminals and bring the same rules in the same
order build the same grammar or report the same fault. In particular a refused addition leaves no
trace, and neither does a declaration of names that are declared elsewhere, be it before or behind
the place where they are used. -/
theorem build_eq_of_same_declarations (start : String) :
    (∀ first second : List Addition,
      let D := ofAdditions start first
      let E := ofAdditions start second
      (∀ n, n ∈ D.nonterminals ↔ n ∈ E.nonterminals) →
      (∀ n, n ∈ D.terminals ↔ n ∈ E.terminals) → D.rules = E.rules →
      ((new start).addAll first).build = ((new start).addAll second).build) ∧
    (∀ (before behind : List Addition) (addition : Addition) (e : GrammarFault),
      ((new start).addAll before).add addition = .error e →
      ((new start).addAll (before ++ addition :: behind)).build =
        ((new start).addAll (before ++ behind)).build) ∧
    (∀ (before behind : List Addition) (addition : Addition),
      let D := ofAdditions start (before ++ behind)
      (∀ n ∈ addition.nonterminalNames, n ∈ D.nonterminals) →
      (∀ n ∈ addition.terminalNames, n ∈ D.terminals) → addition.newRules = [] →
      ((new start).addAll (before ++ addition :: behind)).build =
        ((new start).addAll (before ++ behind)).build) := by
  have hsame : ∀ first second : List Addition,
      (∀ n, n ∈ (ofAdditions start first).nonterminals ↔
        n ∈ (ofAdditions start second).nonterminals) →
      (∀ n, n ∈ (ofAdditions start first).terminals ↔ n ∈ (ofAdditions start second).terminals) →
      (ofAdditions start first).rules = (ofAdditions start second).rules →
      ((new start).addAll first).build = ((new start).addAll second).build := by
    intro first second hnonterminals hterminals hrules
    rw [addAll_new, addAll_new]
    exact build_eq_of_same hnonterminals hterminals rfl hrules
  refine ⟨hsame, ?_, ?_⟩
  · intro before behind addition e hrefused
    have hkept : ((new start).addAll before).addAll (addition :: behind) =
        (((new start).addAll before).addOrKeep addition).addAll behind := rfl
    rw [addAll_append, hkept, addOrKeep_of_refused hrefused, addAll_append]
  · intro before behind addition D hnonterminals hterminals hrules
    apply hsame
    · intro n
      have hn := hnonterminals n
      simp only [D, ofAdditions, List.flatMap_append, List.flatMap_cons, List.mem_cons,
        List.mem_append] at hn ⊢
      tauto
    · intro n
      have hn := hterminals n
      simp only [D, ofAdditions, List.flatMap_append, List.flatMap_cons,
        List.mem_append] at hn ⊢
      tauto
    · simp [ofAdditions, hrules]

/-- Names are declared behind their uses and more than once, and one line is refused. -/
def lateDeclarations : List Addition :=
  [.line "S ::= a T | $", .terminal "a", .line "no rule", .nonterminal "T", .rule "T" ["b"],
    .terminals ["b", "a"]]

/-- The same names, each declared once and in front of its uses, and the same rules one by one. -/
def earlyDeclarations : List Addition :=
  [.nonterminals ["S", "T"], .terminals ["a", "b"], .rule "S" ["a", "T"], .rule "S" [],
    .rule "T" ["b"]]

theorem build_eq_of_same_declarations_late :
    (∀ n, n ∈ (ofAdditions "S" lateDeclarations).nonterminals ↔
      n ∈ (ofAdditions "S" earlyDeclarations).nonterminals) ∧
    (∀ n, n ∈ (ofAdditions "S" lateDeclarations).terminals ↔
      n ∈ (ofAdditions "S" earlyDeclarations).terminals) ∧
    (ofAdditions "S" lateDeclarations).rules = (ofAdditions "S" earlyDeclarations).rules ∧
    ((new "S").addAll lateDeclarations).build = ((new "S").addAll earlyDeclarations).build := by
  have hnonterminals : ∀ n, n ∈ (ofAdditions "S" lateDeclarations).nonterminals ↔
      n ∈ (ofAdditions "S" earlyDeclarations).nonterminals := by
    simp [ofAdditions, lateDeclarations, earlyDeclarations, Addition.nonterminalNames]
  have hterminals : ∀ n, n ∈ (ofAdditions "S" lateDeclarations).terminals ↔
      n ∈ (ofAdditions "S" earlyDeclarations).terminals := by
    intro n
    simp only [ofAdditions, lateDeclarations, earlyDeclarations, Addition.terminalNames,
      List.flatMap_cons, List.flatMap_nil, List.mem_append, List.mem_cons]
    tauto
  have hrules : (ofAdditions "S" lateDeclarations).rules =
      (ofAdditions "S" earlyDeclarations).rules := by decide +kernel
  exact ⟨hnonterminals, hterminals, hrules,
    (build_eq_of_same_declarations "S").1 _ _ hnonterminals hterminals hrules⟩

end FormalLanguage.Draft
