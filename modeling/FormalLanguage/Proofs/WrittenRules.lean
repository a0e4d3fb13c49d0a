import FormalLanguage.Proofs.AcceptedLines
import FormalLanguage.Proofs.TextCuts

/-!
Reading written rules. Words that are joined by single blanks are found again, the first `::=` of a
written line is the one behind its left side, and an end marker that stands for an empty right side
reads as nothing. So a written line reads as its names, provided that no name holds a character
that the notation uses itself; and a written rule is a line with one alternative.
-/

namespace FormalLanguage

namespace Line

/-- A left side that does not hold `::=` itself is told from what stands behind by the first `::=`,
since the blank between them keeps the two from running together. -/
theorem sides_of_not_infix {before : List Char} (h : ¬ defines <:+: before)
    (behind : List Char) :
    sides (before ++ ' ' :: ':' :: ':' :: '=' :: behind) = some (before ++ [' '], behind) := by
  induction before with
  | nil => rfl
  | cons c before ih =>
      have hlater : ¬ defines <:+: before := fun hin => h (List.infix_cons hin)
      have hhere : ∀ rest, c = ':' →
          before ++ ' ' :: ':' :: ':' :: '=' :: behind = ':' :: '=' :: rest → False := by
        rintro rest rfl hstarts
        match before with
        | [] => cases hstarts
        | [_] => cases hstarts
        | _ :: _ :: later =>
            simp only [List.cons_append, List.cons.injEq] at hstarts
            obtain ⟨rfl, rfl, _⟩ := hstarts
            exact h ⟨[], later, rfl⟩
      rw [List.cons_append, sides.eq_3 _ _ hhere, ih hlater]
      rfl

theorem namesOf_blank_cons (cs : List Char) : namesOf (' ' :: cs) = namesOf cs := by
  rw [namesOf, Text.words_blank_cons rfl, namesOf]

theorem namesOf_concat_blank (cs : List Char) : namesOf (cs ++ [' ']) = namesOf cs := by
  rw [namesOf, Text.words_append_blank rfl, Text.words_nil, List.append_nil, namesOf]

/-- Written pieces between bars read as the pieces themselves. -/
theorem map_namesOf_splitOn : ∀ {pieces : List (List Char)}, pieces ≠ [] →
    (∀ piece ∈ pieces, '|' ∉ piece) →
    ((' ' :: [' ', '|', ' '].intercalate pieces).splitOn '|').map namesOf = pieces.map namesOf
  | [], hne, _ => absurd rfl hne
  | [piece], _, h => by
      have hbar : '|' ∉ ' ' :: piece := by simpa using h piece
      rw [List.intercalate_singleton, List.splitOn_eq_singleton hbar, List.map_singleton,
        List.map_singleton, namesOf_blank_cons]
  | piece :: next :: pieces, _, h => by
      obtain ⟨hpiece, hrest⟩ := List.forall_mem_cons.mp h
      have hbar : '|' ∉ ' ' :: (piece ++ [' ']) := by simpa using hpiece
      have hcut : ' ' :: [' ', '|', ' '].intercalate (piece :: next :: pieces) =
          (' ' :: (piece ++ [' '])) ++
            '|' :: ' ' :: [' ', '|', ' '].intercalate (next :: pieces) := by
        simp [List.intercalate_cons_cons]
      rw [hcut, List.splitOn_append_cons_self_of_not_mem hbar, List.map_cons, List.map_cons,
        map_namesOf_splitOn (List.cons_ne_nil next pieces) hrest, namesOf_blank_cons,
        namesOf_concat_blank]

theorem toList_sequenceText {names : List String} (h : names ≠ []) :
    (sequenceText names).toList = [' '].intercalate (names.map String.toList) := by
  have hblank : " ".toList = [' '] := rfl
  rw [sequenceText, if_neg fun hempty => h (List.isEmpty_iff.mp hempty),
    String.toList_intercalate, hblank]

theorem bar_not_mem_sequenceText {names : List String} (h : ∀ name ∈ names, '|' ∉ name.toList) :
    '|' ∉ (sequenceText names).toList := by
  by_cases hempty : names = []
  · rw [hempty]
    decide
  · rw [toList_sequenceText hempty]
    apply Text.not_mem_intercalate (by decide)
    simpa using h

theorem namesOf_sequenceText {names : List String}
    (hwords : ∀ name ∈ names, Text.IsWord name.toList) (hend : names ≠ [Symbol.endName]) :
    namesOf (sequenceText names).toList = names := by
  by_cases hempty : names = []
  · rw [hempty]
    decide
  · have hread : Text.words ([' '].intercalate (names.map String.toList)) =
        names.map String.toList := by
      apply Text.words_intercalate
      simpa using hwords
    have hback : (names.map String.toList).map String.ofList = names := by simp
    rw [toList_sequenceText hempty, namesOf, hread, hback]
    exact if_neg hend

theorem toList_text (L : Line String) :
    L.text.toList = L.left.toList ++ ' ' :: ':' :: ':' :: '=' :: ' ' ::
      [' ', '|', ' '].intercalate
        (L.alternatives.map fun alternative => (sequenceText alternative).toList) := by
  have hmark : " ::= ".toList = [' ', ':', ':', '=', ' '] := rfl
  have hbar : " | ".toList = [' ', '|', ' '] := rfl
  rw [text, String.toList_append, String.toList_append, hmark, String.toList_intercalate, hbar,
    List.map_map]
  simp [Function.comp_def]

/-- When one right side can be written. -/
theorem writable_alone {left : String} {names : List String} (hleft : Text.IsWord left.toList)
    (hplain : ¬ defines <:+: left.toList)
    (hnames : ∀ name ∈ names, Text.IsWord name.toList ∧ '|' ∉ name.toList)
    (hend : names ≠ [Symbol.endName]) : (⟨left, [names]⟩ : Line String).Writable where
  left_word := hleft
  left_plain := hplain
  nonempty := List.cons_ne_nil names []
  right_word := by simpa using fun name hname => (hnames name hname).1
  right_plain := by simpa using fun name hname => (hnames name hname).2
  not_end := by simpa using hend

/-- A written line reads as its names. -/
theorem split_text {L : Line String} (h : L.Writable) : split L.text = .ok L := by
  have hsides := sides_of_not_infix h.left_plain (' ' :: [' ', '|', ' '].intercalate
    (L.alternatives.map fun alternative => (sequenceText alternative).toList))
  rw [← L.toList_text] at hsides
  have hleft : Text.words (L.left.toList ++ [' ']) = [L.left.toList] := by
    rw [Text.words_append_blank rfl, Text.words_of_isWord h.left_word, Text.words_nil,
      List.append_nil]
  have hbars : ∀ piece ∈ L.alternatives.map fun alternative => (sequenceText alternative).toList,
      '|' ∉ piece := by
    intro piece hpiece
    obtain ⟨alternative, hmem, rfl⟩ := List.mem_map.mp hpiece
    exact bar_not_mem_sequenceText (h.right_plain alternative hmem)
  have hpieces :
      (L.alternatives.map fun alternative => (sequenceText alternative).toList) ≠ [] := by
    simpa using h.nonempty
  have hnames : (L.alternatives.map fun alternative => (sequenceText alternative).toList).map
      namesOf = L.alternatives := by
    rw [List.map_map]
    refine (List.map_congr_left fun alternative hmem => ?_).trans (List.map_id _)
    exact namesOf_sequenceText (h.right_word alternative hmem) (h.not_end alternative hmem)
  rw [split, hsides]
  simp only [hleft]
  rw [String.ofList_toList, map_namesOf_splitOn hpieces hbars, hnames]

end Line

/-- A rule is written as a line with one alternative. -/
theorem Rule.text_eq (r : Rule) :
    r.text = (Line.mk r.left.name [r.right.map Symbol.name]).text := by
  have hempty : (r.right.map Symbol.name).isEmpty = r.isEpsilon := by
    rw [Rule.isEpsilon, List.isEmpty_map]
  rw [Rule.text, Line.text, List.map_singleton, Line.sequenceText, hempty,
    String.intercalate_singleton]

/-- A written rule reads as the names of its sides. -/
theorem Rule.split_text {r : Rule} (hleft : Text.IsWord r.left.name.toList)
    (hmark : ¬ Line.defines <:+: r.left.name.toList)
    (hright : ∀ s ∈ r.right, Text.IsWord s.name.toList ∧ '|' ∉ s.name.toList)
    (hend : r.right.map Symbol.name ≠ [Symbol.endName]) :
    Line.split r.text = .ok ⟨r.left.name, [r.right.map Symbol.name]⟩ := by
  have hnames : ∀ name ∈ r.right.map Symbol.name,
      Text.IsWord name.toList ∧ '|' ∉ name.toList := by simpa using hright
  rw [r.text_eq]
  exact Line.split_text (Line.writable_alone hleft hmark hnames hend)

/-!
Writing lines anew. The names that come out of a line can be written again, so a line that is
written from what was read reads the same as the first one, as a whole and with each alternative on
a line of its own. A rule comes back from its own line if its names tell what they stand for.
-/

theorem Symbol.map_name_map_ofName (names : List String) :
    (names.map ofName).map name = names := by
  rw [List.map_map]
  exact (List.map_congr_left fun n _ => name_ofName n).trans (List.map_id names)

namespace Line

theorem map_name_map_ofName (L : Line String) : (L.map Symbol.ofName).map Symbol.name = L := by
  have halternatives : (L.alternatives.map fun names => names.map Symbol.ofName).map
      (fun symbols => symbols.map Symbol.name) = L.alternatives := by
    rw [List.map_map]
    refine (List.map_congr_left fun names _ => ?_).trans (List.map_id _)
    exact Symbol.map_name_map_ofName names
  rw [map, map, halternatives, Symbol.name_ofName]

/-- Writable names are read back from their line, each as what its form says. -/
theorem parse_text {L : Line String} (h : L.Writable)
    (hleft : (Symbol.ofName L.left).isTerminal = false) :
    parse L.text = .ok (L.map Symbol.ofName) :=
  parse_eq_ok_iff.mpr ⟨L, split_text h, hleft, rfl⟩

theorem Writable.alone {L : Line String} (h : L.Writable) {names : List String}
    (hmem : names ∈ L.alternatives) : (⟨L.left, [names]⟩ : Line String).Writable :=
  writable_alone h.left_word h.left_plain
    (fun name hname => ⟨h.right_word names hmem name hname, h.right_plain names hmem name hname⟩)
    (h.not_end names hmem)

end Line

namespace Rule

variable {r : Rule}

theorem Writable.line (h : r.Writable) (hend : r.right.map Symbol.name ≠ [Symbol.endName]) :
    (⟨r.left.name, [r.right.map Symbol.name]⟩ : Line String).Writable := by
  have hnames : ∀ name ∈ r.right.map Symbol.name,
      Text.IsWord name.toList ∧ '|' ∉ name.toList := by
    simpa using fun s hs => ⟨h.word s (List.mem_cons_of_mem r.left hs), h.right_plain s hs⟩
  exact Line.writable_alone (h.word r.left List.mem_cons_self) h.left_plain hnames hend

/-- A rule comes back from its line, unless its right side is an end marker that stands for
itself. -/
theorem parse_text (h : r.Writable) (hend : r.right.map Symbol.name ≠ [Symbol.endName]) :
    Line.parse r.text = .ok ⟨r.left, [r.right]⟩ := by
  have hleft : Symbol.ofName r.left.name = r.left := h.told_by_name r.left List.mem_cons_self
  have hright : (r.right.map Symbol.name).map Symbol.ofName = r.right := by
    rw [List.map_map]
    refine (List.map_congr_left fun s hs => ?_).trans (List.map_id _)
    exact h.told_by_name s (List.mem_cons_of_mem r.left hs)
  have hnonterminal : (Symbol.ofName r.left.name).isTerminal = false := by
    rw [hleft]
    exact h.left_nonterminal
  rw [r.text_eq, Line.parse_text (h.line hend) hnonterminal, Line.map, hleft, List.map_singleton,
    hright]

/-- A rule that is made from names is written as these names. -/
theorem text_ofSides_map_ofName {left : String} {names : List String}
    (hend : names ≠ [Symbol.endName]) (order : UInt32) :
    (ofSides (.ofName left) (names.map Symbol.ofName) order).text =
      (⟨left, [names]⟩ : Line String).text := by
  have hback := Symbol.map_name_map_ofName names
  have hright := right_ofSides (.ofName left) (names.map Symbol.ofName) order
  rw [hback, if_neg hend] at hright
  have hleft : (ofSides (.ofName left) (names.map Symbol.ofName) order).left.name = left :=
    Symbol.name_ofName left
  rw [text_eq, hright, hback, hleft]

end Rule

namespace Line

/-- Lines and rules come back both ways. A rule that was put together from its sides, whose names
tell what they stand for and do not get in the way of the notation, is read back from its own line.
And whatever line was read, writing what came out of it, in the one form with single blanks, bars
between the alternatives and an end marker for an empty one, gives a line that reads the same; so
does the line of each rule that is made from one of the alternatives. -/
theorem parse_written :
    (∀ left right order, (Rule.ofSides left right order).Writable →
      parse (Rule.ofSides left right order).text =
        .ok ⟨left, [(Rule.ofSides left right order).right]⟩) ∧
    (∀ line P, parse line = .ok P → parse (P.map Symbol.name).text = .ok P ∧
      ∀ alternative ∈ P.alternatives, ∀ order,
        parse (Rule.ofSides P.left alternative order).text = .ok ⟨P.left, [alternative]⟩) := by
  constructor
  · intro left right order h
    exact Rule.parse_text h (Rule.names_ofSides_ne left right order)
  · intro line P h
    obtain ⟨L, hsplit, hleft, rfl⟩ := parse_eq_ok_iff.mp h
    have hwritable := writable_of_split hsplit
    constructor
    · rw [map_name_map_ofName]
      exact parse_text hwritable hleft
    · intro alternative hmem order
      obtain ⟨names, hnames, rfl⟩ := List.mem_map.mp hmem
      change parse (Rule.ofSides (.ofName L.left) (names.map Symbol.ofName) order).text = _
      rw [Rule.text_ofSides_map_ofName (hwritable.not_end names hnames),
        parse_text (hwritable.alone hnames) hleft]
      rfl

/-- A left side and right sides that hold parts of the notation come back from their line, and so
does all that is read from `crampedLine`, with its empty alternatives. -/
theorem parse_written_crampedLine :
    let r := Rule.ofSides (.nonterminal "<:=:>")
      [.endMarker, .terminal "::=", .endMarker, .nonterminal "<b>"] 3
    r.Writable ∧ parse r.text = .ok ⟨r.left, [r.right]⟩ ∧
    ∃ P, parse crampedLine = .ok P ∧ parse (P.map Symbol.name).text = .ok P ∧
      [] ∈ P.alternatives ∧ parse (Rule.ofSides P.left [] 0).text = .ok ⟨P.left, [[]]⟩ := by
  intro r
  obtain ⟨hrules, hlines⟩ := parse_written
  have hr : r.Writable :=
    { left_nonterminal := rfl
      told_by_name := by decide +kernel
      word := by decide +kernel
      left_plain := by decide +kernel
      right_plain := by decide +kernel }
  have hcramped : parse crampedLine = .ok ⟨.nonterminal "<a:>", [[], [],
      [.endMarker, .nonterminal "<b>", .terminal "c::=", .terminal "$$"], []]⟩ := by decide +kernel
  obtain ⟨hwhole, halone⟩ := hlines _ _ hcramped
  exact ⟨hr, hrules _ _ _ hr, _, hcramped, hwhole, List.mem_cons_self,
    halone [] List.mem_cons_self 0⟩

end Line

end FormalLanguage
