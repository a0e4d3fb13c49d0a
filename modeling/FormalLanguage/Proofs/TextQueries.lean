import FormalLanguage.Proofs.FirstEquations
import FormalLanguage.Proofs.TextCuts

/-!
Questions asked in texts. A name in a text can be replaced by a symbol: the end marker and declared
names by what they mean, and any other name by a terminal, which is undeclared and therefore begins
with nothing and cannot be empty, just as a name without meaning. So the form of an unknown name
does not matter, and if the declared symbols keep to the form of their names, no declarations have
to be looked at.
-/

namespace FormalLanguage

namespace Vocabulary

variable {V : Vocabulary} {name : String} {s : Symbol}

/-- The symbol that a name in a text is replaced by. -/
def reading (V : Vocabulary) (name : String) : Symbol :=
  if name = Symbol.endName then .endMarker else (V.symbol? name).getD (.terminal name)

theorem declared_of_symbol? (h : V.symbol? name = some s) :
    V.declares s = true ∧ s.name = name := by
  rw [symbol?] at h
  split at h
  next hn =>
    cases h
    exact ⟨decide_eq_true hn, rfl⟩
  next =>
    split at h
    next ht =>
      cases h
      exact ⟨decide_eq_true ht, rfl⟩
    next => cases h

theorem undeclared_of_symbol? (h : V.symbol? s.name = none) : V.declares s = false := by
  rw [symbol?] at h
  split at h
  next => cases h
  next hn =>
    split at h
    next => cases h
    next ht =>
      cases s with
      | nonterminal n => exact decide_eq_false hn
      | terminal n => exact decide_eq_false ht

end Vocabulary

namespace Lookahead

variable (L : Lookahead)

theorem firstOfMeanings_eq_firstOf {ms : List (Option Symbol)} {u : List Symbol}
    (h : ms.map L.firstOfMeaning = u.map L.first) : L.firstOfMeanings ms = L.firstOf u := by
  rw [firstOf, firstOfMeanings_eq_foldr, firstOfMeanings_eq_foldr, h, List.map_map]
  rfl

theorem nullable_firstOfText (text : String) :
    (L.firstOfText text).nullable = L.textNullable text :=
  L.nullable_firstOfMeanings (L.meanings text)

/-- Only the words of a text matter, whatever blanks stand around them. -/
theorem meanings_eq_of_runs {text other : String} {words : List (List Char)}
    (htext : Text.Runs text.toList words) (hother : Text.Runs other.toList words) :
    L.meanings text = L.meanings other := by
  have hnames : Line.names text = Line.names other := by
    rw [Line.names, Line.names, Line.namesOf, Line.namesOf, htext.words_eq, hother.words_eq]
  rw [meanings, meanings, hnames]

end Lookahead

namespace Grammar

variable {G : Grammar} {name : String} {s : Symbol}

theorem first_of_undeclared (hs : G.declares s = false) (hproper : s.isEndMarker = false) :
    G.lookahead.first s = ∅ := by
  apply FirstSet.ext
  · intro t
    refine iff_of_false (fun ht => ?_) (SortedSet.not_mem_empty t)
    have hcorner := ((G.lookahead.mem_firstTerminals s t).mp ht).2
    have hdeclared := (mem_properSymbols.mp (proper_of_holds hcorner).1).1
    exact Bool.false_ne_true (hs.symm.trans hdeclared)
  · apply Bool.eq_false_of_not_eq_true
    intro hnull
    rcases vanishes_iff.mp hnull with hend | hmem
    · exact Bool.false_ne_true (hproper.symm.trans hend)
    · exact Bool.false_ne_true (hs.symm.trans (declared_of_mem_nullableSet hmem hproper).2)

/-- A name without meaning begins with what any symbol of that name begins with. -/
theorem first_of_unknown (h : G.symbol? s.name = none) (hproper : s.name ≠ Symbol.endName) :
    G.lookahead.first s = ∅ :=
  first_of_undeclared (Vocabulary.undeclared_of_symbol? h) (beq_eq_false_iff_ne.mpr hproper)

theorem firstOfMeaning_meaning (G : Grammar) (name : String) :
    G.lookahead.firstOfMeaning (G.meaning name) = G.lookahead.first (G.reading name) := by
  rw [Vocabulary.meaning, Vocabulary.reading]
  split
  next => rfl
  next hproper =>
    cases hname : G.symbol? name with
    | some s => rfl
    | none => exact (first_of_unknown (s := .terminal name) hname hproper).symm

/-- If declared symbols have the form of their names, every name may be taken by its form. -/
theorem first_reading_eq_first_ofName
    (hform : ∀ s, G.declares s = true → Symbol.ofName s.name = s) (name : String) :
    G.lookahead.first (G.reading name) = G.lookahead.first (.ofName name) := by
  rw [Vocabulary.reading]
  split
  next hend =>
    subst hend
    rfl
  next hproper =>
    cases hname : G.symbol? name with
    | some s =>
        obtain ⟨hdeclared, rfl⟩ := Vocabulary.declared_of_symbol? hname
        rw [Option.getD_some, hform s hdeclared]
    | none =>
        have hsame : (Symbol.ofName name).name = name := Symbol.name_ofName name
        have hunknown : G.lookahead.first (.ofName name) = ∅ := by
          apply first_of_unknown
          · rwa [hsame]
          · rwa [hsame]
        rw [hunknown]
        exact first_of_unknown (s := .terminal name) hname hproper

theorem firstOfText_eq_firstOf (G : Grammar) (text : String) :
    G.lookahead.firstOfText text = G.lookahead.firstOf ((Line.names text).map G.reading) := by
  apply Lookahead.firstOfMeanings_eq_firstOf
  rw [Lookahead.meanings, List.map_map, List.map_map]
  exact List.map_congr_left fun name _ => G.firstOfMeaning_meaning name

theorem firstOf_reading_eq_firstOf_ofName
    (hform : ∀ s, G.declares s = true → Symbol.ofName s.name = s) (names : List String) :
    G.lookahead.firstOf (names.map G.reading) = G.lookahead.firstOf (names.map Symbol.ofName) := by
  apply Lookahead.firstOfMeanings_eq_firstOf
  rw [List.map_map, List.map_map, List.map_map]
  exact List.map_congr_left fun name _ => first_reading_eq_first_ofName hform name

/-- Questions in texts are questions about sequences. With the end marker for `$`, the declared
symbol for a declared name and a terminal for any other name, both questions about a text have the
same answers as those about the sequence of its names, and the two answers agree on whether the
text can be empty. Texts with the same words have the same answers, whatever blanks stand around
the words. If every declared symbol is what the form of its name says, then the names of a text may
be taken by their forms, unknown names included. -/
theorem text_queries_agree (G : Grammar) :
    (∀ text : String,
      let sequence := (Line.names text).map G.reading
      G.lookahead.firstOfText text = G.lookahead.firstOf sequence ∧
      G.lookahead.textNullable text = G.lookahead.allNullable sequence ∧
      (G.lookahead.firstOfText text).nullable = G.lookahead.textNullable text) ∧
    (∀ (text other : String) (words : List (List Char)),
      Text.Runs text.toList words → Text.Runs other.toList words →
        G.lookahead.firstOfText text = G.lookahead.firstOfText other ∧
        G.lookahead.textNullable text = G.lookahead.textNullable other) ∧
    ((∀ s, G.declares s = true → Symbol.ofName s.name = s) → ∀ text : String,
      G.lookahead.firstOfText text = G.lookahead.firstOf (Line.symbols text)) := by
  refine ⟨?_, ?_, ?_⟩
  · intro text sequence
    have hfirst := G.firstOfText_eq_firstOf text
    refine ⟨hfirst, ?_, G.lookahead.nullable_firstOfText text⟩
    rw [← Lookahead.nullable_firstOfText, hfirst, Lookahead.nullable_firstOf]
  · intro text other words htext hother
    have hmeanings := G.lookahead.meanings_eq_of_runs htext hother
    constructor
    · rw [Lookahead.firstOfText, Lookahead.firstOfText, hmeanings]
    · rw [Lookahead.textNullable, Lookahead.textNullable, hmeanings]
  · intro hform text
    rw [firstOfText_eq_firstOf, firstOf_reading_eq_firstOf_ofName hform, Line.symbols]

/-- Lists of items that may be empty, with names that tell what they stand for. -/
def itemList : Grammar :=
  (Grammar.build [.nonterminal "<list>", .nonterminal "<item>"] [.terminal "x", .terminal "$"]
    [.ofSides (.nonterminal "<list>") [.nonterminal "<item>", .nonterminal "<list>"] 0,
      .ofSides (.nonterminal "<list>") [.endMarker] 1,
      .ofSides (.nonterminal "<item>") [.terminal "x", .endMarker] 2]
    (.nonterminal "<list>")).toOption.get (by decide +kernel)

/-- In `itemList` a list can begin with `x`, and an end marker among other names does not hide what
follows it, but the unknown name at the end does not let the text be empty. Other blanks change
nothing, and neither does reading the names by their forms. -/
theorem text_queries_agree_itemList :
    let words := ["<list>".toList, "$".toList, "<unknown>".toList]
    Text.Runs "<list> $ <unknown>".toList words ∧
    Text.Runs "\u2003<list>\t$\u3000 <unknown>\n".toList words ∧
    (∀ s, itemList.declares s = true → Symbol.ofName s.name = s) ∧
    itemList.lookahead.firstOfText "<list> $ <unknown>" =
      ⟨SortedSet.ofList [.terminal "x"], false⟩ ∧
    itemList.lookahead.firstOfText "\u2003<list>\t$\u3000 <unknown>\n" =
      ⟨SortedSet.ofList [.terminal "x"], false⟩ ∧
    itemList.lookahead.firstOf [.nonterminal "<list>", .endMarker, .nonterminal "<unknown>"] =
      ⟨SortedSet.ofList [.terminal "x"], false⟩ := by
  intro words
  have hplain : Text.Runs "<list> $ <unknown>".toList words :=
    Text.words_eq_iff_runs.mp (by decide +kernel)
  have hpadded : Text.Runs "\u2003<list>\t$\u3000 <unknown>\n".toList words :=
    Text.words_eq_iff_runs.mp (by decide +kernel)
  have hform : ∀ s, itemList.declares s = true → Symbol.ofName s.name = s := by
    have hlisted : ∀ s ∈ itemList.symbols.toList, Symbol.ofName s.name = s := by decide +kernel
    exact fun s hs => hlisted s (SortedSet.mem_toList.mpr (Vocabulary.mem_symbols.mpr hs))
  have hanswer : itemList.lookahead.firstOfText "<list> $ <unknown>" =
      ⟨SortedSet.ofList [.terminal "x"], false⟩ := by decide +kernel
  have hsymbols : Line.symbols "<list> $ <unknown>" =
      [.nonterminal "<list>", .endMarker, .nonterminal "<unknown>"] := by decide +kernel
  obtain ⟨_, hwords, hforms⟩ := text_queries_agree itemList
  refine ⟨hplain, hpadded, hform, hanswer, ?_, ?_⟩
  · rw [← (hwords _ _ _ hplain hpadded).1, hanswer]
  · rw [← hsymbols, ← hforms hform, hanswer]

end Grammar

end FormalLanguage
