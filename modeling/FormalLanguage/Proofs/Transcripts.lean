import FormalLanguage.Grammar.Draft
import FormalLanguage.Proofs.DraftedRules
import FormalLanguage.Proofs.EndMarkers
import FormalLanguage.Proofs.WrittenRules
import Mathlib.Data.FinEnum

/-!
Taking a written grammar up again. Every line is accepted and reads as the names of one rule. The
declared names turn these back into the symbols they came from, so that the draft makes the same
rules, numbered by their places. The analyses do not look at numbers, hence they agree with those
of the grammar that was written down.
-/

namespace FormalLanguage

namespace Draft

/-- Additions that are accepted whatever came before them are accepted one after the other. -/
theorem foldlM_add {additions : List Addition}
    (h : ∀ addition ∈ additions, ∀ D : Draft, ∃ E, D.add addition = .ok E) (D : Draft) :
    additions.foldlM add D = .ok (D.addAll additions) := by
  induction additions generalizing D with
  | nil => rfl
  | cons addition additions ih =>
      obtain ⟨hfirst, hrest⟩ := List.forall_mem_cons.mp h
      obtain ⟨E, hE⟩ := hfirst D
      have hkept : D.addOrKeep addition = E := by rw [addOrKeep, hE]
      have hall : D.addAll (addition :: additions) = E.addAll additions := by
        rw [← hkept]
        rfl
      rw [List.foldlM_cons, hE, hall]
      exact ih hrest E

namespace Addition

variable {addition : Addition}

theorem accepted_of_isDeclaration (h : addition.isDeclaration = true) (D : Draft) :
    ∃ E, D.add addition = .ok E := by
  cases addition with
  | rule left right => cases h
  | line text => cases h
  | _ => exact ⟨_, rfl⟩

theorem newRules_of_isDeclaration (h : addition.isDeclaration = true) :
    addition.newRules = [] := by
  cases addition with
  | rule left right => cases h
  | line text => cases h
  | _ => rfl

end Addition

end Draft

namespace Rule

/-- What a rule looks like when it is written down. -/
def written (r : Rule) : String × List String := (r.left.name, r.right.map Symbol.name)

end Rule

namespace Grammar

variable {G : Grammar} {declarations : List Draft.Addition}

theorem mem_rulesByOrder {r : Rule} : r ∈ G.rulesByOrder ↔ r ∈ G.rules :=
  (List.mergeSort_perm G.rules _).mem_iff

/-- Order numbers are all different, so there are no more rules than numbers. -/
theorem length_rulesByOrder_le (G : Grammar) : G.rulesByOrder.length ≤ 2 ^ 32 := by
  have hlength := G.orders_distinct.length_le_card
  rw [List.length_map, ← FinEnum.card_eq_fintypeCard, FinEnum.card_UInt32] at hlength
  rwa [rulesByOrder, Rule.sorted, List.length_mergeSort]

namespace Writable

variable (hG : G.Writable)

include hG

theorem names_right_ne {r : Rule} (hr : r ∈ G.rules) :
    r.right.map Symbol.name ≠ [Symbol.endName] := by
  obtain ⟨right, hright⟩ := hG.assembled r hr
  rw [hright]
  exact Rule.names_ofSides_ne _ _ _

/-- A symbol on a right side is the end marker or declared. -/
theorem right_cases {r : Rule} (hr : r ∈ G.rules) {s : Symbol} (hs : s ∈ r.right) :
    s = .endMarker ∨ (∃ n ∈ G.nonterminals, s = .nonterminal n) ∨
      ∃ n ∈ G.terminals, s = .terminal n := by
  have hallowed := G.right_allowed r hr s hs
  rw [Vocabulary.allowsRight, Bool.or_eq_true] at hallowed
  rcases hallowed with hend | hdeclared
  · exact Or.inl (hG.end_terminal r hr s hs hend)
  · cases s with
    | nonterminal n => exact Or.inr (Or.inl ⟨n, of_decide_eq_true hdeclared, rfl⟩)
    | terminal n => exact Or.inr (Or.inr ⟨n, of_decide_eq_true hdeclared, rfl⟩)

theorem right_plain {r : Rule} (hr : r ∈ G.rules) {s : Symbol} (hs : s ∈ r.right) :
    Text.IsWord s.name.toList ∧ '|' ∉ s.name.toList := by
  rcases hG.right_cases hr hs with rfl | ⟨n, hn, rfl⟩ | ⟨n, hn, rfl⟩
  · decide
  · exact hG.nonterminal_plain n hn
  · exact hG.terminal_plain n hn

theorem split_text {r : Rule} (hr : r ∈ G.rules) :
    Line.split r.text = .ok ⟨r.left.name, [r.right.map Symbol.name]⟩ := by
  obtain ⟨n, hn, hleft⟩ := left_declared hr
  have hword : Text.IsWord r.left.name.toList := by
    rw [hleft]
    exact (hG.nonterminal_plain n hn).1
  exact Rule.split_text hword (hG.left_plain r hr) (fun s hs => hG.right_plain hr hs)
    (hG.names_right_ne hr)

theorem foldlM_transcript
    (hnames : ∀ addition ∈ declarations, addition.isDeclaration = true) :
    (G.transcript declarations).foldlM Draft.add (Draft.new G.start) =
      .ok (Draft.ofAdditions G.start (G.transcript declarations)) := by
  rw [← Draft.addAll_new]
  apply Draft.foldlM_add
  intro addition haddition D
  rcases List.mem_append.mp haddition with hdeclaration | hline
  · exact Draft.Addition.accepted_of_isDeclaration (hnames addition hdeclaration) D
  · obtain ⟨r, hr, rfl⟩ := List.mem_map.mp hline
    rw [Draft.add, hG.split_text (mem_rulesByOrder.mp hr)]
    exact ⟨_, rfl⟩

theorem rules_transcript
    (hnames : ∀ addition ∈ declarations, addition.isDeclaration = true) :
    (Draft.ofAdditions G.start (G.transcript declarations)).rules =
      G.rulesByOrder.map Rule.written := by
  have hlines : ∀ r ∈ G.rulesByOrder,
      (Draft.Addition.line r.text).newRules = [r.written] := by
    intro r hr
    rw [Draft.Addition.newRules, hG.split_text (mem_rulesByOrder.mp hr)]
    rfl
  have hnone : declarations.flatMap Draft.Addition.newRules = [] := by
    rw [List.flatMap_eq_nil_iff]
    exact fun addition h => Draft.Addition.newRules_of_isDeclaration (hnames addition h)
  change (G.transcript declarations).flatMap Draft.Addition.newRules = _
  rw [transcript, List.flatMap_append, hnone, List.nil_append, List.flatMap_map,
    List.flatMap_congr hlines, List.map_eq_flatMap]

end Writable

theorem declares_transcript (h : (Draft.ofAdditions G.start declarations).Declares G) :
    (Draft.ofAdditions G.start (G.transcript declarations)).Declares G where
  nonterminals n := by
    rw [← h.nonterminals]
    simp [Draft.ofAdditions, transcript, Draft.Addition.nonterminalNames]
  terminals n := by
    rw [← h.terminals]
    simp [Draft.ofAdditions, transcript, Draft.Addition.terminalNames]

end Grammar

namespace Draft.Declares

variable {D : Draft} {G : Grammar} (hD : D.Declares G)

include hD

theorem vocabulary_eq : D.vocabulary = G.toVocabulary :=
  congrArg₂ Vocabulary.mk (SortedSet.ofList_eq hD.nonterminals) (SortedSet.ofList_eq hD.terminals)

variable (hG : G.Writable)

include hG

/-- A written name stands for the symbol that it was written for. -/
theorem symbolOf_name {r : Rule} (hr : r ∈ G.rules) {s : Symbol} (hs : s ∈ r.right) :
    D.symbolOf s.name = s := by
  simp only [symbolOf, hD.nonterminals, hD.terminals]
  rcases hG.right_cases hr hs with rfl | ⟨n, hn, rfl⟩ | ⟨n, hn, rfl⟩
  · have hname : Symbol.endMarker.name = Symbol.endName := rfl
    rw [hname, if_neg hG.end_not_nonterminal, if_neg hG.end_not_terminal]
    rfl
  · exact if_pos hn
  · have hother : (Symbol.terminal n).name ∉ G.nonterminals := fun h => G.disjoint n h hn
    rw [if_neg hother]
    exact if_pos hn

/-- Only the number of a rule is lost on the way. -/
theorem ruleAt_written {r : Rule} (hr : r ∈ G.rules) (i : Nat) :
    D.ruleAt i r.written = { r with order := UInt32.ofNat i } := by
  obtain ⟨n, _, hleft⟩ := Grammar.left_declared hr
  have hsymbols : r.written.2.map D.symbolOf = r.right := by
    rw [Rule.written, List.map_map]
    exact (List.map_congr_left fun s hs => hD.symbolOf_name hG hr hs).trans (List.map_id _)
  have hend : r.written.2 ≠ [Symbol.endName] := hG.names_right_ne hr
  have hright := right_ruleAt D i r.written
  rw [hsymbols, if_neg hend] at hright
  have hsymbol : Symbol.nonterminal r.written.1 = r.left := by
    rw [Rule.written, hleft]
    rfl
  calc D.ruleAt i r.written
      = ⟨.nonterminal r.written.1, (D.ruleAt i r.written).right, UInt32.ofNat i⟩ := rfl
    _ = ⟨r.left, r.right, UInt32.ofNat i⟩ := by rw [hright, hsymbol]

theorem permits_written {r : Rule} (hr : r ∈ G.rules) : D.Permits r.written := by
  constructor
  · obtain ⟨n, hn, hleft⟩ := Grammar.left_declared hr
    rw [hD.nonterminals, Rule.written, hleft]
    exact hn
  · intro name hname
    obtain ⟨s, hs, rfl⟩ := List.mem_map.mp hname
    rw [Resolves, hD.nonterminals, hD.terminals]
    rcases hG.right_cases hr hs with rfl | ⟨n, hn, rfl⟩ | ⟨n, hn, rfl⟩
    · exact Or.inr (Or.inr rfl)
    · exact Or.inl hn
    · exact Or.inr (Or.inl hn)

/-- From the names and the written rules of a grammar a draft builds one with the same vocabulary
and start symbol and the same rules by order, numbered anew. -/
theorem build_written (hstart : D.start = G.start)
    (hrules : D.rules = G.rulesByOrder.map Rule.written) :
    ∃ H, D.build = .ok H ∧ H.toVocabulary = G.toVocabulary ∧ H.start = G.start ∧
      H.rules = G.rulesByOrder.mapIdx (fun i r => { r with order := UInt32.ofNat i }) ∧
      H.rulesByOrder = H.rules := by
  have hcount : D.rules.length ≤ 2 ^ 32 := by
    rw [hrules, List.length_map]
    exact G.length_rulesByOrder_le
  have hdeclared : D.start ∈ D.nonterminals := by
    rw [hD.nonterminals, hstart]
    exact G.start_declared
  have hdisjoint : ∀ n ∈ D.nonterminals, n ∉ D.terminals := by
    intro n hn
    rw [hD.terminals]
    exact G.disjoint n ((hD.nonterminals n).mp hn)
  have hpermits : ∀ written ∈ D.rules, D.Permits written := by
    intro written hwritten
    rw [hrules] at hwritten
    obtain ⟨r, hr, rfl⟩ := List.mem_map.mp hwritten
    exact hD.permits_written hG (Grammar.mem_rulesByOrder.mp hr)
  obtain ⟨H, hbuild, hvocabulary, hmade, hHstart⟩ :=
    build_of_permits hdeclared hdisjoint hcount hpermits
  refine ⟨H, hbuild, hvocabulary.trans hD.vocabulary_eq, hHstart.trans hstart, ?_,
    (rulesByOrder_eq hmade hcount).trans hmade.symm⟩
  rw [hmade, hrules]
  apply List.ext_getElem?
  intro i
  rw [List.getElem?_mapIdx, List.getElem?_mapIdx, List.getElem?_map]
  cases hplace : G.rulesByOrder[i]? with
  | none => rfl
  | some r =>
      have hr : r ∈ G.rules := Grammar.mem_rulesByOrder.mp (List.mem_of_getElem? hplace)
      simp only [Option.map_some, hD.ruleAt_written hG hr]

end Draft.Declares

namespace Grammar

/-- Numbering the rules anew leaves their sides. -/
theorem sameSides_of_renumbered {G H : Grammar} (hvocabulary : H.toVocabulary = G.toVocabulary)
    (hrules : H.rules = G.rulesByOrder.mapIdx fun i r => { r with order := UInt32.ofNat i }) :
    H.SameSides G := by
  refine ⟨hvocabulary, fun left right => ?_⟩
  rw [hrules]
  constructor
  · rintro ⟨s, hs, rfl, rfl⟩
    obtain ⟨i, hi, rfl⟩ := List.mem_mapIdx.mp hs
    exact ⟨G.rulesByOrder[i], mem_rulesByOrder.mp (List.getElem_mem hi), rfl, rfl⟩
  · rintro ⟨r, hr, rfl, rfl⟩
    obtain ⟨i, hi, rfl⟩ := List.getElem_of_mem (mem_rulesByOrder.mpr hr)
    exact ⟨_, List.mem_mapIdx.mpr ⟨i, hi, rfl⟩, rfl, rfl⟩

/-- A grammar comes back from its transcript. If its names do not get in the way of the notation, a
draft accepts the transcript addition by addition, in whatever order the names are declared, and
builds a grammar with the same symbols, the same analyses and the same rules, each numbered by its
place in the order. -/
theorem build_transcript (G : Grammar) (hG : G.Writable) (declarations : List Draft.Addition)
    (hnames : ∀ addition ∈ declarations, addition.isDeclaration = true)
    (hdeclares : (Draft.ofAdditions G.start declarations).Declares G) :
    ∃ D H, (G.transcript declarations).foldlM Draft.add (Draft.new G.start) = .ok D ∧
      D.build = .ok H ∧
      H.nonterminals = G.nonterminals ∧ H.terminals = G.terminals ∧
      H.startSymbol = G.startSymbol ∧
      H.lookahead.nullable = G.lookahead.nullable ∧
      H.lookahead.leftCorner = G.lookahead.leftCorner ∧
      H.lookahead.firstSets = G.lookahead.firstSets ∧
      H.rulesByOrder.length = G.rulesByOrder.length ∧
      ∀ (i : Nat) r, G.rulesByOrder[i]? = some r → ∃ s, H.rulesByOrder[i]? = some s ∧
        s.left = r.left ∧ s.right = r.right ∧ s.order.toNat = i := by
  obtain ⟨H, hbuild, hvocabulary, hstart, hrules, hsorted⟩ :=
    (declares_transcript hdeclares).build_written hG rfl (hG.rules_transcript hnames)
  obtain ⟨hnullable, hcorners⟩ := (sameSides_of_renumbered hvocabulary hrules).lookahead_eq
  refine ⟨_, H, hG.foldlM_transcript hnames, hbuild, congrArg Vocabulary.nonterminals hvocabulary,
    congrArg Vocabulary.terminals hvocabulary, congrArg Symbol.nonterminal hstart, hnullable,
    hcorners, ?_, ?_, ?_⟩
  · simp only [Lookahead.firstSets, Lookahead.firstTerminals, hcorners]
  · rw [hsorted, hrules, List.length_mapIdx]
  · intro i r hr
    have hi : i < G.rulesByOrder.length := (List.getElem?_eq_some_iff.mp hr).1
    refine ⟨{ r with order := UInt32.ofNat i }, ?_, rfl, rfl, ?_⟩
    · rw [hsorted, hrules, List.getElem?_mapIdx, hr, Option.map_some]
    · exact UInt32.toNat_ofNat_of_lt' (hi.trans_le G.length_rulesByOrder_le)

/-- Names that look like something else: nonterminals without brackets, a terminal with brackets,
one that is `::=` and a left side that ends with a colon. End markers stand alone and in company,
and the numbers leave gaps and do not ascend. -/
def misleadingNames : Grammar :=
  (Grammar.build [.nonterminal "S", .nonterminal "T:"] [.terminal "<x>", .terminal "::="]
    [.ofSides (.nonterminal "T:") [.endMarker, .endMarker] 7,
      .ofSides (.nonterminal "S") [.terminal "<x>", .nonterminal "T:", .endMarker] 3,
      .ofSides (.nonterminal "S") [.endMarker] 0,
      .ofSides (.nonterminal "T:") [.terminal "::="] 4]
    (.nonterminal "S")).toOption.get (by decide +kernel)

theorem writable_misleadingNames : misleadingNames.Writable where
  assembled r hr := by
    have hsides : ∀ r ∈ misleadingNames.rules, r = .ofSides r.left r.right r.order := by
      decide +kernel
    exact ⟨r.right, hsides r hr⟩
  end_not_nonterminal := by decide +kernel
  end_not_terminal := by decide +kernel
  end_terminal := by decide +kernel
  nonterminal_plain := by
    have hlisted : ∀ n ∈ misleadingNames.nonterminals.toList,
        Text.IsWord n.toList ∧ '|' ∉ n.toList := by decide +kernel
    exact fun n hn => hlisted n (SortedSet.mem_toList.mpr hn)
  terminal_plain := by
    have hlisted : ∀ n ∈ misleadingNames.terminals.toList,
        Text.IsWord n.toList ∧ '|' ∉ n.toList := by decide +kernel
    exact fun n hn => hlisted n (SortedSet.mem_toList.mpr hn)
  left_plain := by decide +kernel

/-- The names of `misleadingNames` but for its start symbol, some of them twice. -/
def misleadingDeclarations : List Draft.Addition :=
  [.terminal "<x>", .nonterminals ["T:"], .terminals ["::=", "<x>"]]

/-- `misleadingNames` comes back. Its empty rule has become the first one, and the rule that
reads `T: ::= $ $` the last. -/
theorem build_transcript_misleadingNames :
    misleadingNames.Writable ∧
    (∀ addition ∈ misleadingDeclarations, addition.isDeclaration = true) ∧
    (Draft.ofAdditions "S" misleadingDeclarations).Declares misleadingNames ∧
    misleadingNames.transcript misleadingDeclarations =
      [.terminal "<x>", .nonterminals ["T:"], .terminals ["::=", "<x>"], .line "S ::= $",
        .line "S ::= <x> T: $", .line "T: ::= ::=", .line "T: ::= $ $"] ∧
    ∃ D H, (misleadingNames.transcript misleadingDeclarations).foldlM Draft.add (Draft.new "S") =
        .ok D ∧ D.build = .ok H ∧
      H.lookahead.firstSets = misleadingNames.lookahead.firstSets ∧
      ∃ s, H.rulesByOrder[3]? = some s ∧ s.right = [.endMarker, .endMarker] ∧
        s.order.toNat = 3 := by
  have hrules : misleadingNames.rules = [⟨.nonterminal "T:", [.endMarker, .endMarker], 7⟩,
      ⟨.nonterminal "S", [.terminal "<x>", .nonterminal "T:", .endMarker], 3⟩,
      ⟨.nonterminal "S", [], 0⟩, ⟨.nonterminal "T:", [.terminal "::="], 4⟩] := by
    decide +kernel
  have hsorted : misleadingNames.rulesByOrder = [⟨.nonterminal "S", [], 0⟩,
      ⟨.nonterminal "S", [.terminal "<x>", .nonterminal "T:", .endMarker], 3⟩,
      ⟨.nonterminal "T:", [.terminal "::="], 4⟩,
      ⟨.nonterminal "T:", [.endMarker, .endMarker], 7⟩] := by
    rw [rulesByOrder, hrules]
    cbv
  have hnames : ∀ addition ∈ misleadingDeclarations, addition.isDeclaration = true := by decide
  have hdeclares : (Draft.ofAdditions "S" misleadingDeclarations).Declares misleadingNames := by
    have hnonterminals : misleadingNames.nonterminals.toList = ["S", "T:"] := by decide +kernel
    have hterminals : misleadingNames.terminals.toList = ["::=", "<x>"] := by decide +kernel
    constructor
    · intro n
      rw [← SortedSet.mem_toList, hnonterminals]
      rfl
    · intro n
      rw [← SortedSet.mem_toList, hterminals]
      simp only [Draft.ofAdditions, misleadingDeclarations, Draft.Addition.terminalNames,
        List.flatMap_cons, List.flatMap_nil, List.mem_append, List.mem_cons]
      tauto
  obtain ⟨D, H, hadded, hbuild, _, _, _, _, _, hfirst, _, hplaces⟩ :=
    build_transcript misleadingNames writable_misleadingNames misleadingDeclarations hnames
      hdeclares
  obtain ⟨s, hs, _, hright, horder⟩ := hplaces 3 _ (by rw [hsorted]; rfl)
  refine ⟨writable_misleadingNames, hnames, hdeclares, ?_, D, H, hadded, hbuild, hfirst, s, hs,
    hright, horder⟩
  rw [transcript, hsorted]
  decide +kernel

end Grammar

end FormalLanguage
