import FormalLanguage.Grammar.Line
import FormalLanguage.Proofs.TextCuts
import FormalLanguage.Text.Basic
import Mathlib.Data.List.Forall2

/-!
The notation of rule lines, said without reading them: what a line spells, how a line is written so
that it spells given names, and which names can be written that way.
-/

namespace FormalLanguage

namespace Line

/-- The sign between a left side and its alternatives. -/
def defines : List Char := "::=".toList

/-- What a piece of a line between bars stands for: the names in it, or nothing if an end marker
stands there alone. -/
inductive Alternative (piece : List Char) : List String → Prop
  | empty : Text.Runs piece [Symbol.endName.toList] → Alternative piece []
  | names {names : List String} : Text.Runs piece (names.map String.toList) →
      names ≠ [Symbol.endName] → Alternative piece names

/-- A line spells a left side, which is all that stands before the first `::=`, and alternatives,
one for each piece between the bars behind it. -/
inductive Spells (line : String) (L : Line String) : Prop
  | intro {before behind : List Char} {pieces : List (List Char)} :
      Text.CutAtFirst defines line.toList before behind → Text.Runs before [L.left.toList] →
      pieces ≠ [] → (∀ piece ∈ pieces, '|' ∉ piece) → behind = ['|'].intercalate pieces →
      List.Forall₂ Alternative pieces L.alternatives → Spells line L

def map {α β : Type} (f : α → β) (L : Line α) : Line β :=
  ⟨f L.left, L.alternatives.map fun alternative => alternative.map f⟩

/-- A sequence of names as it is written. An empty one is shown as an end marker. -/
def sequenceText (names : List String) : String :=
  if names.isEmpty then Symbol.endName else " ".intercalate names

/-- A left side and its alternatives as they are written on one line. -/
def text (L : Line String) : String :=
  L.left ++ " ::= " ++ " | ".intercalate (L.alternatives.map sequenceText)

/-- Names that do not get in the way of the notation, in at least one alternative. -/
structure Writable (L : Line String) : Prop where
  left_word : Text.IsWord L.left.toList
  left_plain : ¬ defines <:+: L.left.toList
  nonempty : L.alternatives ≠ []
  right_word : ∀ alternative ∈ L.alternatives, ∀ name ∈ alternative, Text.IsWord name.toList
  right_plain : ∀ alternative ∈ L.alternatives, ∀ name ∈ alternative, '|' ∉ name.toList
  not_end : ∀ alternative ∈ L.alternatives, alternative ≠ [Symbol.endName]

end Line

/-- A rule whose names do not get in the way of the notation and tell by their form alone what they
stand for. -/
structure Rule.Writable (r : Rule) : Prop where
  left_nonterminal : r.left.isTerminal = false
  told_by_name : ∀ s ∈ r.left :: r.right, Symbol.ofName s.name = s
  word : ∀ s ∈ r.left :: r.right, Text.IsWord s.name.toList
  left_plain : ¬ Line.defines <:+: r.left.name.toList
  right_plain : ∀ s ∈ r.right, '|' ∉ s.name.toList

/-!
Which lines are accepted, and as what. A line is accepted exactly when it spells a left side and
alternatives: the reader stops at the first `::=`, takes the one word before it for the left side
and cuts what stands behind it at its bars. What an accepted line gives can be written again, since
a piece between bars holds no bar and what stands before the first `::=` does not hold it.
-/

namespace Line

variable {cs before behind : List Char}

theorem sides_eq_none_iff : sides cs = none ↔ ¬ defines <:+: cs := by
  fun_induction sides cs with
  | case1 => decide
  | case2 behind => exact iff_of_false nofun fun h => h ⟨[], behind, rfl⟩
  | case3 c rest hhere ih =>
      rw [Option.map_eq_none_iff, ih, List.infix_cons_iff, not_or]
      refine (and_iff_right ?_).symm
      rintro ⟨behind, hstarts⟩
      obtain ⟨hc, hrest⟩ := List.cons.inj hstarts
      exact hhere behind hc.symm hrest.symm

theorem cutAtFirst_of_sides (h : sides cs = some (before, behind)) :
    Text.CutAtFirst defines cs before behind := by
  fun_induction sides cs generalizing before with
  | case1 => cases h
  | case2 rest =>
      cases h
      exact ⟨rfl, fun earlier later _ => Nat.zero_le _⟩
  | case3 c rest hhere ih =>
      obtain ⟨⟨front, _⟩, hfront, hpair⟩ := Option.map_eq_some_iff.mp h
      cases hpair
      have hcut := ih hfront
      constructor
      · rw [hcut.parts]
        rfl
      · intro earlier later hparts
        cases earlier with
        | nil =>
            obtain ⟨hc, hrest⟩ := List.cons.inj hparts
            exact absurd hrest (hhere later hc)
        | cons d earlier =>
            obtain ⟨-, hrest⟩ := List.cons.inj hparts
            exact Nat.succ_le_succ (hcut.first earlier later hrest)

/-- A line is divided at the first `::=`. -/
theorem sides_eq_some_iff :
    sides cs = some (before, behind) ↔ Text.CutAtFirst defines cs before behind := by
  constructor
  · exact cutAtFirst_of_sides
  · intro hcut
    cases hsides : sides cs with
    | none => exact absurd ⟨before, behind, hcut.parts.symm⟩ (sides_eq_none_iff.mp hsides)
    | some pair =>
        obtain ⟨hbefore, hbehind⟩ := (cutAtFirst_of_sides hsides).unique hcut
        rw [← hbefore, ← hbehind]

theorem exists_cutAtFirst (h : defines <:+: cs) :
    ∃ before behind, Text.CutAtFirst defines cs before behind := by
  cases hsides : sides cs with
  | none => exact absurd h (sides_eq_none_iff.mp hsides)
  | some pair => exact ⟨_, _, sides_eq_some_iff.mp hsides⟩

theorem alternative_iff {piece : List Char} {names : List String} :
    Alternative piece names ↔ namesOf piece = names := by
  have hback : ((Text.words piece).map String.ofList).map String.toList = Text.words piece := by
    simp
  constructor
  · rintro (halone | ⟨hruns, hend⟩)
    · rw [namesOf, halone.words_eq]
      rfl
    · have hread : (names.map String.toList).map String.ofList = names := by simp
      rw [namesOf, hruns.words_eq, hread]
      exact if_neg hend
  · rintro rfl
    rw [namesOf]
    split
    next halone =>
      rw [halone] at hback
      exact .empty (Text.words_eq_iff_runs.mp hback.symm)
    next hend => exact .names (Text.words_eq_iff_runs.mp hback.symm) hend

variable {line : String} {L : Line String} {P : Line Symbol}

/-- What a line is cut into when it is accepted. -/
theorem split_eq_ok_iff_exists : split line = .ok L ↔
    ∃ before behind, Text.CutAtFirst defines line.toList before behind ∧
      Text.Runs before [L.left.toList] ∧ L.alternatives = (behind.splitOn '|').map namesOf := by
  constructor
  · intro h
    rw [split] at h
    split at h
    next => cases h
    next before behind hsides =>
      split at h
      next left hleft =>
        cases h
        refine ⟨before, behind, sides_eq_some_iff.mp hsides, ?_, rfl⟩
        rw [String.toList_ofList]
        exact Text.words_eq_iff_runs.mp hleft
      next => cases h
  · rintro ⟨before, behind, hcut, hleft, halternatives⟩
    rw [split, sides_eq_some_iff.mpr hcut]
    simp only [hleft.words_eq, String.ofList_toList, ← halternatives]

theorem split_eq_ok_iff_spells : split line = .ok L ↔ Spells line L := by
  rw [split_eq_ok_iff_exists]
  constructor
  · rintro ⟨before, behind, hcut, hleft, halternatives⟩
    refine .intro hcut hleft (List.splitOn_ne_nil '|' behind)
      (fun _ => Text.not_mem_of_mem_splitOn) (List.intercalate_splitOn '|').symm ?_
    rw [halternatives, List.forall₂_map_right_iff, List.forall₂_same]
    exact fun piece _ => alternative_iff.mpr rfl
  · rintro @⟨before, behind, pieces, hcut, hleft, hne, hbars, hbehind, hspelled⟩
    have hpieces : behind.splitOn '|' = pieces := by
      rw [hbehind]
      exact List.splitOn_intercalate '|' hbars hne
    refine ⟨before, behind, hcut, hleft, ?_⟩
    rw [hpieces, ← List.forall₂_eq_eq_eq, List.forall₂_map_right_iff]
    exact hspelled.flip.imp fun _ _ h => (alternative_iff.mp h).symm

/-- A line is accepted when one word stands before the first `::=`. -/
theorem exists_split_iff : (∃ L, split line = .ok L) ↔ defines <:+: line.toList ∧
    ∀ before behind, Text.CutAtFirst defines line.toList before behind →
      ∃ left, Text.Runs before [left] := by
  constructor
  · rintro ⟨L, hL⟩
    obtain ⟨before, behind, hcut, hleft, -⟩ := split_eq_ok_iff_exists.mp hL
    refine ⟨⟨before, behind, hcut.parts.symm⟩, fun before' behind' hcut' => ?_⟩
    rw [(hcut'.unique hcut).1]
    exact ⟨_, hleft⟩
  · rintro ⟨hmark, hword⟩
    obtain ⟨before, behind, hcut⟩ := exists_cutAtFirst hmark
    obtain ⟨left, hleft⟩ := hword before behind hcut
    have hname : Text.Runs before [(String.ofList left).toList] := by
      rwa [String.toList_ofList]
    exact ⟨⟨String.ofList left, _⟩, split_eq_ok_iff_exists.mpr ⟨_, _, hcut, hname, rfl⟩⟩

theorem length_alternatives (h : split line = .ok L)
    (hcut : Text.CutAtFirst defines line.toList before behind) :
    L.alternatives.length = behind.count '|' + 1 := by
  obtain ⟨_, _, hcut', -, halternatives⟩ := split_eq_ok_iff_exists.mp h
  rw [halternatives, List.length_map, Text.length_splitOn, (hcut'.unique hcut).2]

theorem Alternative.plain {piece : List Char} {names : List String}
    (h : Alternative piece names) :
    names ≠ [Symbol.endName] ∧
      ∀ name ∈ names, Text.IsWord name.toList ∧ name.toList <:+: piece := by
  cases h with
  | empty => simp
  | names hruns hend =>
      refine ⟨hend, fun name hname => ?_⟩
      have hrun : name.toList ∈ names.map String.toList := List.mem_map_of_mem hname
      exact ⟨hruns.isWord _ hrun, hruns.isInfix _ hrun⟩

/-- Names that come out of a line can be written on one again. -/
theorem writable_of_split (h : split line = .ok L) : L.Writable := by
  obtain ⟨before, behind, hcut, hleft, halternatives⟩ := split_eq_ok_iff_exists.mp h
  have hplain : ∀ alternative ∈ L.alternatives, ∃ piece,
      '|' ∉ piece ∧ Alternative piece alternative := by
    intro alternative hmem
    rw [halternatives] at hmem
    obtain ⟨piece, hpiece, rfl⟩ := List.mem_map.mp hmem
    exact ⟨piece, Text.not_mem_of_mem_splitOn hpiece, alternative_iff.mpr rfl⟩
  refine { left_word := hleft.isWord _ List.mem_cons_self, left_plain := ?_, nonempty := ?_,
           right_word := ?_, right_plain := ?_, not_end := ?_ }
  · intro hmark
    apply hcut.not_infix_before (List.cons_ne_nil _ _)
    exact hmark.trans (hleft.isInfix _ List.mem_cons_self)
  · simp [halternatives, List.splitOn_ne_nil]
  · intro alternative hmem name hname
    obtain ⟨piece, -, hpiece⟩ := hplain alternative hmem
    exact (hpiece.plain.2 name hname).1
  · intro alternative hmem name hname hbar
    obtain ⟨piece, hnobar, hpiece⟩ := hplain alternative hmem
    exact hnobar ((hpiece.plain.2 name hname).2.subset hbar)
  · intro alternative hmem
    obtain ⟨piece, -, hpiece⟩ := hplain alternative hmem
    exact hpiece.plain.1

theorem split_eq_ok_or_error (line : String) :
    (∃ L, split line = .ok L) ∨ split line = .error (.malformedLine line) := by
  rw [split]
  split
  next => exact Or.inr rfl
  next =>
    split
    next => exact Or.inl ⟨_, rfl⟩
    next => exact Or.inr rfl

theorem parse_eq_ok_iff : parse line = .ok P ↔
    ∃ L, split line = .ok L ∧ (Symbol.ofName L.left).isTerminal = false ∧
      P = L.map Symbol.ofName := by
  rw [parse]
  split
  next e he => simp [he]
  next left alternatives hsplit =>
    split
    next hterminal => simp [hsplit, hterminal]
    next hnonterminal =>
      constructor
      · rintro ⟨⟩
        exact ⟨_, hsplit, Bool.eq_false_of_not_eq_true hnonterminal, rfl⟩
      · rintro ⟨L, hL, -, rfl⟩
        cases hsplit.symm.trans hL
        rfl

theorem parse_eq_ok_or_error (line : String) :
    (∃ P, parse line = .ok P) ∨ parse line = .error (.malformedLine line) := by
  rw [parse]
  split
  next e he =>
    rcases split_eq_ok_or_error line with ⟨L, hL⟩ | herror
    · cases he.symm.trans hL
    · cases he.symm.trans herror
      exact Or.inr rfl
  next =>
    split
    next => exact Or.inr rfl
    next => exact Or.inl ⟨_, rfl⟩

end Line

theorem isBracketed_iff_exists {name : String} :
    isBracketed name = true ↔ ∃ inner, inner ≠ [] ∧ name.toList = '<' :: inner ++ ['>'] := by
  rw [isBracketed]
  constructor
  · intro h
    split at h
    next d c rest hname =>
      obtain ⟨front, hfront⟩ := List.getLast?_eq_some_iff.mp (beq_iff_eq.mp h)
      exact ⟨d :: front, List.cons_ne_nil d front, by rw [hname, hfront]; rfl⟩
    next => cases h
  · rintro ⟨inner, hne, hname⟩
    obtain ⟨d, front, rfl⟩ := List.exists_cons_of_ne_nil hne
    cases front with
    | nil => simp [hname]
    | cons c front => simp [hname, List.getLast?_cons]

theorem utf8ByteSize_of_brackets {name : String} {inner : List Char}
    (h : name.toList = '<' :: inner ++ ['>']) :
    name.utf8ByteSize = (String.ofList inner).utf8ByteSize + 2 := by
  have hname : name = "<" ++ String.ofList inner ++ ">" := by
    rw [← String.toList_inj, h]
    simp
  have hopen : "<".utf8ByteSize = 1 := rfl
  have hclose : ">".utf8ByteSize = 1 := rfl
  rw [hname, String.utf8ByteSize_append, String.utf8ByteSize_append, hopen, hclose]
  omega

/-- Brackets have something between them when they take up more than their own two bytes. -/
theorem isBracketed_iff {name : String} : isBracketed name = true ↔
    ['<'] <+: name.toList ∧ ['>'] <:+ name.toList ∧ 2 < name.utf8ByteSize := by
  rw [isBracketed_iff_exists]
  constructor
  · rintro ⟨inner, hne, hname⟩
    have hinner : (String.ofList inner).utf8ByteSize ≠ 0 := by
      rw [ne_eq, String.utf8ByteSize_eq_zero_iff]
      exact fun hempty => hne (by simpa using congrArg String.toList hempty)
    have hsize := utf8ByteSize_of_brackets hname
    rw [hname]
    exact ⟨⟨inner ++ ['>'], rfl⟩, ⟨'<' :: inner, rfl⟩, by omega⟩
  · rintro ⟨⟨behind, hopen⟩, ⟨front, hclose⟩, hlong⟩
    cases front with
    | nil => simp [← hclose] at hopen
    | cons c inner =>
        have hc : '<' = c := by
          rw [← hclose] at hopen
          exact (List.cons.inj hopen).1
        subst hc
        refine ⟨inner, ?_, hclose.symm⟩
        rintro rfl
        have hsize := utf8ByteSize_of_brackets hclose.symm
        simp only [String.ofList_nil, String.utf8ByteSize_empty] at hsize
        omega

theorem Symbol.ofName_of_isBracketed {name : String} (h : isBracketed name = true) :
    Symbol.ofName name = .nonterminal name := by
  have hend : name ≠ endName := by
    rintro rfl
    revert h
    decide
  rw [ofName, if_neg hend, if_pos h]

theorem Symbol.isTerminal_ofName {name : String} :
    (Symbol.ofName name).isTerminal = false ↔ isBracketed name = true := by
  constructor
  · intro h
    rw [ofName] at h
    split at h
    next => cases h
    next =>
      split at h
      next hbrackets => exact hbrackets
      next => cases h
  · intro h
    rw [ofName_of_isBracketed h]
    rfl

theorem Line.parse_eq_ok_iff_brackets {line : String} {P : Line Symbol} :
    parse line = .ok P ↔ ∃ L, split line = .ok L ∧
      ['<'] <+: L.left.toList ∧ ['>'] <:+ L.left.toList ∧ 2 < L.left.utf8ByteSize ∧
      P = ⟨.nonterminal L.left, L.alternatives.map fun names => names.map Symbol.ofName⟩ := by
  rw [parse_eq_ok_iff]
  refine exists_congr fun L => and_congr_right fun _ => ?_
  rw [Symbol.isTerminal_ofName, isBracketed_iff, and_assoc, and_assoc]
  refine and_congr_right fun hopen => and_congr_right fun hclose => and_congr_right fun hlong => ?_
  rw [map, Symbol.ofName_of_isBracketed (isBracketed_iff.mpr ⟨hopen, hclose, hlong⟩)]

/-- Which lines are accepted. A line spells exactly what it is split into. It is accepted if and
only if it contains `::=` and exactly one word stands before the first one. Its names can then be
written on a line again: none is empty or holds a blank, the left one does not hold `::=` and no
other one holds a bar, and there is an alternative for each piece between the bars, but none that is
an end marker alone. To be read by the form of the names the line has to have brackets around its
left side with something between them. Every other line is reported as it stands. -/
theorem Line.accepts_iff_spells (line : String) :
    (∀ L, split line = .ok L ↔ Spells line L) ∧
    ((∃ L, split line = .ok L) ↔ defines <:+: line.toList ∧
      ∀ before behind, Text.CutAtFirst defines line.toList before behind →
        ∃ left, Text.Runs before [left]) ∧
    (∀ L, split line = .ok L → L.Writable ∧
      ∀ before behind, Text.CutAtFirst defines line.toList before behind →
        L.alternatives.length = behind.count '|' + 1) ∧
    ((¬ ∃ L, split line = .ok L) → split line = .error (.malformedLine line)) ∧
    (∀ P, parse line = .ok P ↔ ∃ L, split line = .ok L ∧
      ['<'] <+: L.left.toList ∧ ['>'] <:+ L.left.toList ∧ 2 < L.left.utf8ByteSize ∧
      P = ⟨.nonterminal L.left, L.alternatives.map fun names => names.map Symbol.ofName⟩) ∧
    ((¬ ∃ P, parse line = .ok P) → parse line = .error (.malformedLine line)) := by
  refine ⟨fun L => split_eq_ok_iff_spells, exists_split_iff, ?_,
    (split_eq_ok_or_error line).resolve_left, fun P => parse_eq_ok_iff_brackets,
    (parse_eq_ok_or_error line).resolve_left⟩
  intro L hL
  exact ⟨writable_of_split hL, fun before behind hcut => length_alternatives hL hcut⟩

/-- Colons inside the left side, a second `::=`, blanks beyond ASCII, empty pieces at both ends, and
end markers alone and in company. -/
def crampedLine : String := "\u3000<a:>\u0085::=|$ | $ <b>\u2003c::= $$|"

/-- `crampedLine` is accepted in both ways, a line with two words for a left side in neither, and
one whose left side has no brackets is only split. -/
theorem Line.accepts_iff_spells_crampedLine :
    let L : Line String := ⟨"<a:>", [[], [], ["$", "<b>", "c::=", "$$"], []]⟩
    Spells crampedLine L ∧ L.Writable ∧ (∃ P, parse crampedLine = .ok P) ∧
    (¬ ∃ L, split "<a> b ::= c" = .ok L) ∧
    split "<a> b ::= c" = .error (.malformedLine "<a> b ::= c") ∧
    (∃ L, split "a ::= c" = .ok L) ∧ (¬ ∃ P, parse "a ::= c" = .ok P) ∧
    parse "a ::= c" = .error (.malformedLine "a ::= c") := by
  intro L
  have hsplit : split crampedLine = .ok L := by decide +kernel
  have htwo : ¬ ∃ L, split "<a> b ::= c" = .ok L := by
    have hnone : (split "<a> b ::= c").toOption = none := by decide +kernel
    rintro ⟨L, hL⟩
    rw [hL] at hnone
    cases hnone
  have hbare : ¬ ∃ P, parse "a ::= c" = .ok P := by
    have hnone : (parse "a ::= c").toOption = none := by decide +kernel
    rintro ⟨P, hP⟩
    rw [hP] at hnone
    cases hnone
  obtain ⟨hspells, _, hplain, _, hread, _⟩ := accepts_iff_spells crampedLine
  refine ⟨(hspells L).mp hsplit, (hplain L hsplit).1, ?_, htwo,
    (accepts_iff_spells "<a> b ::= c").2.2.2.1 htwo, ⟨⟨"a", [["c"]]⟩, by decide +kernel⟩, hbare,
    (accepts_iff_spells "a ::= c").2.2.2.2.2 hbare⟩
  exact ⟨_, (hread _).mpr ⟨L, hsplit, by decide, by decide, by decide, rfl⟩⟩

end FormalLanguage
