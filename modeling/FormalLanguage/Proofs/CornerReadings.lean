import FormalLanguage.Grammar.Lookahead
import FormalLanguage.Order.KeyedSet
import FormalLanguage.Proofs.FirstEquations

/-!
Left corners can be read in several ways, and all of them give the same answers. A search by halving
finds a symbol exactly at its own number, because the list of symbols is ascending and has no
symbol twice; what is read at these numbers is then the relation itself, entry by entry, row by row
and in the table of terminals. The relation is a preorder on the symbols in the list, since the
matrix was closed, and relates no others.
-/

namespace FormalLanguage

/-- The comparison of symbols is the order by name and then by kind. -/
theorem Symbol.compare_eq_lt_iff {s t : Symbol} : compare s t = .lt ↔ s.Before t := by
  have hnames (m n : String) : compare m n = .lt ↔ m < n := compareOfLessAndEq_eq_lt
  change (compare s.name t.name).then (compare s.isTerminal t.isTerminal) = .lt ↔ _
  rw [Ordering.then_eq_lt, hnames, Std.LawfulEqCmp.compare_eq_iff_eq]
  constructor
  · rintro (hname | ⟨hname, hkind⟩)
    · exact .byName hname
    · cases s with
      | terminal n => cases t <;> cases hkind
      | nonterminal n =>
          cases t with
          | nonterminal => cases hkind
          | terminal =>
              cases hname
              exact .byKind n
  · rintro (hname | n)
    · exact Or.inl hname
    · exact Or.inr ⟨rfl, rfl⟩

theorem SortedSet.pairwise_before (symbols : SortedSet Symbol) :
    symbols.toList.Pairwise Symbol.Before :=
  symbols.ascending.imp Symbol.compare_eq_lt_iff.mp

namespace SymbolRelation

variable {R : SymbolRelation} {s t : Symbol}

/-- Halving finds every symbol where it stands, and no others. -/
theorem place?_eq_index? (R : SymbolRelation) (s : Symbol) : R.place? s = R.index? s := by
  apply Option.ext
  intro i
  rw [place?, SortedSet.search_eq_some_iff, index?_eq_some_iff]

theorem entry_eq_holds (R : SymbolRelation) (s t : Symbol) : R.entry s t = R.holds s t := by
  rw [entry, place?_eq_index?, place?_eq_index?]
  rfl

@[simp] theorem mem_entries : t ∈ R.entries s ↔ R.holds s t = true := by
  rw [holds_iff, entries, place?_eq_index?]
  simp only [← index?_eq_some_iff]
  cases hs : R.index? s with
  | none => simp
  | some i =>
      simp only [List.mem_map, List.mem_filter, List.mem_finRange, true_and, index?_eq_some_iff,
        Option.some.injEq]
      constructor
      · rintro ⟨k, hentry, hk⟩
        exact ⟨i, k, rfl, hk, hentry⟩
      · rintro ⟨_, k, rfl, hk, hentry⟩
        exact ⟨k, hentry, hk⟩

theorem ascending_entries (R : SymbolRelation) (s : Symbol) :
    (R.entries s).Pairwise fun t u => compare t u = .lt := by
  unfold entries
  split
  next => exact .nil
  next i _ =>
    rw [List.pairwise_map]
    refine ((List.pairwise_lt_finRange _).filter _).imp ?_
    intro k l hkl
    exact List.pairwise_iff_getElem.mp R.symbols.ascending k l k.isLt l.isLt hkl

/-- Reading along a row of the matrix gives the related symbols in order. -/
theorem entries_eq_row (R : SymbolRelation) (s : Symbol) : R.entries s = (R.row s).toList :=
  SortedSet.eq_of_ascending (R.ascending_entries s) (R.row s).ascending
    fun _ => mem_entries.trans mem_row.symm

/-- Symbols that are not in the list are related to nothing, and nothing is related to them. -/
theorem holds_eq_false (hs : s ∉ R.symbols) (t : Symbol) :
    R.holds s t = false ∧ R.holds t s = false :=
  ⟨Bool.eq_false_iff.mpr fun h => hs (mem_symbols_of_holds h).1,
    Bool.eq_false_iff.mpr fun h => hs (mem_symbols_of_holds h).2⟩

theorem map_fst_terminalTable (R : SymbolRelation) :
    R.terminalTable.map Prod.fst = R.symbols.toList := by
  rw [terminalTable, List.map_map]
  exact List.map_id _

end SymbolRelation

namespace Lookahead

variable (L : Lookahead) (s : Symbol)

theorem closure_eq_row : L.closure s = L.leftCorner.row s :=
  SortedSet.ofList_eq fun _ => SymbolRelation.mem_entries.trans SymbolRelation.mem_row.symm

/-- The table holds what is worked out for each symbol anew. -/
theorem terminalTable_eq_firstSets : L.leftCorner.terminalTable = L.firstSets := by
  refine List.map_congr_left fun s _ => ?_
  rw [Prod.mk.injEq, and_iff_right rfl, SymbolRelation.entries_eq_row]
  exact SortedSet.ofList_eq fun _ => Iff.rfl

variable {s}

theorem mem_terminalTable {F : SortedSet Symbol} (h : (s, F) ∈ L.leftCorner.terminalTable) :
    F = L.firstTerminals s := by
  rw [terminalTable_eq_firstSets] at h
  obtain ⟨_, _, hpair⟩ := List.mem_map.mp h
  cases hpair
  rfl

theorem lookup_terminalTable (hs : s ∈ L.leftCorner.symbols) :
    L.leftCorner.terminalTable.lookup s = some (L.firstTerminals s) := by
  rw [terminalTable_eq_firstSets]
  exact List.lookup_graph L.firstTerminals hs

theorem lookup_terminalTable_eq_none (hs : s ∉ L.leftCorner.symbols) :
    L.leftCorner.terminalTable.lookup s = none := by
  apply lookup_of_absent
  rwa [SymbolRelation.map_fst_terminalTable]

variable (s)

/-- What is not in the table has an empty row. -/
theorem tabulatedFirst_eq_first : L.tabulatedFirst s = L.first s := by
  rw [tabulatedFirst, first, FirstSet.mk.injEq, and_iff_left rfl]
  by_cases hs : s ∈ L.leftCorner.symbols
  · rw [L.lookup_terminalTable hs, Option.getD_some]
  · rw [L.lookup_terminalTable_eq_none hs, L.firstTerminals_eq_empty hs, Option.getD_none]

/-- A row is read in order, and what else is read about the symbol agrees with it. -/
theorem row_readings (X : Symbol) :
    (L.leftCorner.entries X).Pairwise Symbol.Before ∧ (L.leftCorner.entries X).Nodup ∧
    (∀ Y, Y ∈ L.leftCorner.entries X ↔ L.leftCorner.entry X Y = true) ∧
    (∀ Y, Y ∈ L.closure X ↔ Y ∈ L.leftCorner.entries X) ∧
    ∀ Y, Y ∈ (L.tabulatedFirst X).terminals ↔
      Y.isTerminal = true ∧ Y ∈ L.leftCorner.entries X := by
  rw [tabulatedFirst_eq_first, closure_eq_row, SymbolRelation.entries_eq_row]
  refine ⟨(L.leftCorner.row X).pairwise_before, (L.leftCorner.row X).nodup_toList, ?_,
    fun _ => Iff.rfl, ?_⟩
  · intro Y
    rw [SymbolRelation.entry_eq_holds]
    exact SymbolRelation.mem_row
  · intro Y
    rw [SortedSet.mem_toList, SymbolRelation.mem_row]
    exact L.mem_firstTerminals X Y

theorem nothing_read {X : Symbol} (hX : X ∉ L.leftCorner.symbols) :
    L.leftCorner.entries X = [] ∧ L.closure X = ∅ ∧ (L.tabulatedFirst X).terminals = ∅ ∧
    L.leftCorner.terminalTable.lookup X = none ∧
    ∀ Y, L.leftCorner.entry X Y = false ∧ L.leftCorner.entry Y X = false := by
  have hrow : L.leftCorner.row X = ∅ := SymbolRelation.row_eq_empty hX
  refine ⟨?_, ?_, ?_, L.lookup_terminalTable_eq_none hX, ?_⟩
  · rw [SymbolRelation.entries_eq_row, hrow]
    rfl
  · rw [closure_eq_row, hrow]
  · rw [tabulatedFirst_eq_first]
    exact L.firstTerminals_eq_empty hX
  · intro Y
    rw [SymbolRelation.entry_eq_holds, SymbolRelation.entry_eq_holds]
    exact SymbolRelation.holds_eq_false hX Y

end Lookahead

namespace Grammar

variable {G : Grammar}

theorem not_mem_symbols_leftCorner {s : Symbol}
    (hs : G.declares s = false ∨ s.name = Symbol.endName) :
    s ∉ G.lookahead.leftCorner.symbols := by
  intro hmem
  obtain ⟨hdeclared, hname⟩ := mem_symbols_leftCorner.mp hmem
  rcases hs with hundeclared | hend
  · exact Bool.false_ne_true (hundeclared.symm.trans hdeclared)
  · exact hname hend

theorem holds_trans {s t u : Symbol} (hst : G.lookahead.leftCorner.holds s t = true)
    (htu : G.lookahead.leftCorner.holds t u = true) :
    G.lookahead.leftCorner.holds s u = true :=
  holds_leftCorner_iff.mpr ((holds_leftCorner_iff.mp hst).trans (holds_leftCorner_iff.mp htu))

/-- All readings of the left corners agree, and they are a preorder. The list of symbols is strictly
ascending and holds the declared symbols other than end markers. On these the relation is reflexive,
and it is transitive. Every row, of whatever symbol, is read in order, and the entries, the set of
left corners and the FIRST set of the symbol agree with it; the table has these FIRST sets for the
symbols in the list. All readings are those of the relation itself. For undeclared symbols and end
markers there is nothing to read. -/
theorem leftCorner_readings_agree (G : Grammar) :
    let L := G.lookahead
    let R := L.leftCorner
    R.symbols.toList.Pairwise Symbol.Before ∧
    (∀ X, X ∈ R.symbols.toList ↔ G.declares X = true ∧ X.name ≠ Symbol.endName) ∧
    (∀ X ∈ R.symbols.toList, R.entry X X = true) ∧
    (∀ X Y Z, R.entry X Y = true → R.entry Y Z = true → R.entry X Z = true) ∧
    (∀ X, (R.entries X).Pairwise Symbol.Before ∧ (R.entries X).Nodup ∧
      (∀ Y, Y ∈ R.entries X ↔ R.entry X Y = true) ∧
      (∀ Y, Y ∈ L.closure X ↔ Y ∈ R.entries X) ∧
      ∀ Y, Y ∈ (L.tabulatedFirst X).terminals ↔ Y.isTerminal = true ∧ Y ∈ R.entries X) ∧
    R.terminalTable.map Prod.fst = R.symbols.toList ∧
    (∀ X F, (X, F) ∈ R.terminalTable → F = (L.tabulatedFirst X).terminals) ∧
    -- The readings are those of the relation that the analysis works out.
    (∀ X Y, R.entry X Y = R.holds X Y) ∧
    (∀ X, R.entries X = (R.row X).toList ∧ L.closure X = R.row X ∧
      L.tabulatedFirst X = L.first X) ∧
    R.terminalTable = L.firstSets ∧
    ∀ X, G.declares X = false ∨ X.name = Symbol.endName →
      R.entries X = [] ∧ L.closure X = ∅ ∧ (L.tabulatedFirst X).terminals = ∅ ∧
      R.terminalTable.lookup X = none ∧ ∀ Y, R.entry X Y = false ∧ R.entry Y X = false := by
  intro L R
  have hentry (X Y : Symbol) : R.entry X Y = R.holds X Y := R.entry_eq_holds X Y
  refine ⟨R.symbols.pairwise_before, fun X => mem_symbols_leftCorner, ?_, ?_, L.row_readings,
    R.map_fst_terminalTable, ?_, hentry, ?_, L.terminalTable_eq_firstSets, ?_⟩
  · intro X hX
    rw [hentry]
    exact holds_self hX
  · intro X Y Z hXY hYZ
    rw [hentry] at hXY hYZ ⊢
    exact holds_trans hXY hYZ
  · intro X F hF
    rw [L.tabulatedFirst_eq_first]
    exact L.mem_terminalTable hF
  · exact fun X => ⟨R.entries_eq_row X, L.closure_eq_row X, L.tabulatedFirst_eq_first X⟩
  · exact fun X hX => L.nothing_read (not_mem_symbols_leftCorner hX)

/-- A nonterminal that begins with another one, which begins with a terminal, and an end marker that
is declared. -/
def chainedCorners : Grammar :=
  (Grammar.build [.nonterminal "S", .nonterminal "A"] [.terminal "b", .terminal "$"]
    [⟨.nonterminal "S", [.terminal "$", .nonterminal "A", .nonterminal "S"], 0⟩,
      ⟨.nonterminal "A", [.terminal "b"], 1⟩]
    (.nonterminal "S")).toOption.get (by decide +kernel)

/-- In `chainedCorners` the first nonterminal begins with the terminal, and the table says so. The
end marker has no entry although it is declared, and a nonterminal named like the terminal has none
either. -/
theorem leftCorner_readings_agree_chainedCorners :
    let L := chainedCorners.lookahead
    let R := L.leftCorner
    Symbol.nonterminal "S" ∈ R.symbols.toList ∧
    R.entry (.nonterminal "S") (.nonterminal "S") = true ∧
    R.entry (.nonterminal "S") (.nonterminal "A") = true ∧
    R.entry (.nonterminal "A") (.terminal "b") = true ∧
    R.entry (.nonterminal "S") (.terminal "b") = true ∧
    (.nonterminal "S", SortedSet.ofList [.terminal "b"]) ∈ R.terminalTable ∧
    (L.tabulatedFirst (.nonterminal "S")).terminals = SortedSet.ofList [.terminal "b"] ∧
    chainedCorners.declares .endMarker = true ∧ R.entries .endMarker = [] ∧
    chainedCorners.declares (.nonterminal "b") = false ∧ R.entries (.nonterminal "b") = [] := by
  intro L R
  obtain ⟨_, _, hself, htrans, _, _, htable, hentry, _, _, hnothing⟩ :=
    leftCorner_readings_agree chainedCorners
  have hlisted : Symbol.nonterminal "S" ∈ R.symbols.toList := by decide +kernel
  have hfront : R.entry (.nonterminal "S") (.nonterminal "A") = true :=
    (hentry _ _).trans (by decide +kernel)
  have hbehind : R.entry (.nonterminal "A") (.terminal "b") = true :=
    (hentry _ _).trans (by decide +kernel)
  have htabulated : (.nonterminal "S", SortedSet.ofList [.terminal "b"]) ∈ R.terminalTable := by
    decide +kernel
  have hundeclared : chainedCorners.declares (.nonterminal "b") = false := by decide +kernel
  exact ⟨hlisted, hself _ hlisted, hfront, hbehind, htrans _ _ _ hfront hbehind, htabulated,
    (htable _ _ htabulated).symm, by decide +kernel, (hnothing _ (Or.inr rfl)).1, hundeclared,
    (hnothing _ (Or.inl hundeclared)).1⟩

end Grammar

end FormalLanguage
