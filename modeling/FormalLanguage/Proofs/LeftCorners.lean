import FormalLanguage.Proofs.NullableDerivations
import FormalLanguage.Proofs.TransitiveClosure

/-!
Left corners and FIRST sets are what derivations begin with. A direct left corner is the first
symbol of a derivation that expands a rule and lets the symbols in front of the corner vanish, and
the matrix closes these under composition. Conversely the walk over a sequence sees every symbol
that the sequence can begin with, and it sees no less in the source of a derivation step than in
its result.
-/

namespace FormalLanguage

namespace SymbolRelation

theorem index?_eq_some_iff {R : SymbolRelation} {s : Symbol}
    {i : Fin R.symbols.toList.length} :
    R.index? s = some i ↔ R.symbols.toList[i] = s := by
  rw [index?, List.finIdxOf?_eq_some_iff, and_iff_left_iff_imp]
  intro hi j hlt hj
  have hsame : j.val = i.val :=
    (List.Nodup.getElem_inj_iff R.symbols.nodup_toList).mp (hj.trans hi.symm)
  have hlt : j.val < i.val := hlt
  omega

theorem holds_iff {R : SymbolRelation} {s t : Symbol} :
    R.holds s t = true ↔ ∃ i k, R.symbols.toList[i] = s ∧ R.symbols.toList[k] = t ∧
      R.matrix.holds i k = true := by
  simp only [← index?_eq_some_iff]
  unfold holds
  cases hs : R.index? s with
  | none => simp
  | some i =>
      cases ht : R.index? t with
      | none => simp
      | some k => simp

theorem mem_symbols_of_holds {R : SymbolRelation} {s t : Symbol} (h : R.holds s t = true) :
    s ∈ R.symbols ∧ t ∈ R.symbols := by
  obtain ⟨i, k, rfl, rfl, _⟩ := holds_iff.mp h
  exact ⟨List.getElem_mem i.isLt, List.getElem_mem k.isLt⟩

@[simp] theorem mem_row {R : SymbolRelation} {s t : Symbol} : t ∈ R.row s ↔ R.holds s t = true := by
  rw [row, SortedSet.mem_filter, and_iff_right_iff_imp]
  exact fun h => (mem_symbols_of_holds h).2

theorem row_eq_empty {R : SymbolRelation} {s : Symbol} (hs : s ∉ R.symbols) : R.row s = ∅ :=
  SortedSet.eq_empty_of_forall_not_mem fun _ ht => hs (mem_symbols_of_holds (mem_row.mp ht)).1

/-- A closed relation joins two symbols exactly when a path of related symbols does. -/
theorem holds_close_ofPredicate (symbols : SortedSet Symbol) (related : Symbol → Symbol → Bool)
    (s t : Symbol) :
    (ofPredicate symbols related).close.holds s t = true ↔
      Relation.TransGen (fun a b => a ∈ symbols ∧ b ∈ symbols ∧ related a b = true) s t := by
  have hentry (i k : Fin symbols.toList.length) :
      (ofPredicate symbols related).matrix.holds i k =
        related symbols.toList[i] symbols.toList[k] := by
    change (Vector.ofFn fun i : Fin symbols.toList.length =>
      Vector.ofFn fun k : Fin symbols.toList.length =>
        related symbols.toList[i] symbols.toList[k])[i.val][k.val] = _
    rw [Vector.getElem_ofFn, Vector.getElem_ofFn]
  have hplace (a : Symbol) (ha : a ∈ symbols) :
      ∃ i : Fin symbols.toList.length, symbols.toList[i] = a := by
    obtain ⟨i, hi, hget⟩ := List.getElem_of_mem ha
    exact ⟨⟨i, hi⟩, hget⟩
  rw [holds_iff]
  constructor
  · rintro ⟨i, k, rfl, rfl, hclosed⟩
    have hpath := (BoolMatrix.holds_close_iff _ i k).mp hclosed
    refine hpath.lift (fun i => symbols.toList[i]) ?_
    intro a b hab
    exact ⟨List.getElem_mem a.isLt, List.getElem_mem b.isLt, (hentry a b).symm.trans hab⟩
  · intro hpath
    suffices hfin : ∃ i k : Fin symbols.toList.length, symbols.toList[i] = s ∧
        symbols.toList[k] = t ∧ Relation.TransGen
          (fun a b => (ofPredicate symbols related).matrix.holds a b = true) i k by
      obtain ⟨i, k, hi, hk, hjoined⟩ := hfin
      exact ⟨i, k, hi, hk, (BoolMatrix.holds_close_iff _ i k).mpr hjoined⟩
    induction hpath with
    | single hstep =>
        obtain ⟨hs, ht, hrelated⟩ := hstep
        obtain ⟨i, hi⟩ := hplace _ hs
        obtain ⟨k, hk⟩ := hplace _ ht
        refine ⟨i, k, hi, hk, .single ?_⟩
        rw [hentry, hi, hk]
        exact hrelated
    | tail _ hstep ih =>
        obtain ⟨i, j, hi, hj, hjoined⟩ := ih
        obtain ⟨_, ht, hrelated⟩ := hstep
        obtain ⟨k, hk⟩ := hplace _ ht
        refine ⟨i, k, hi, hk, hjoined.tail ?_⟩
        rw [hentry, hj, hk]
        exact hrelated

end SymbolRelation

@[simp] theorem Vocabulary.mem_symbols {V : Vocabulary} {s : Symbol} :
    s ∈ V.symbols ↔ V.declares s = true := by
  rw [symbols, SortedSet.mem_ofList, List.mem_append, List.mem_map, List.mem_map]
  cases s with
  | nonterminal n => simp
  | terminal n => simp

namespace Grammar

@[simp] theorem mem_properSymbols {G : Grammar} {s : Symbol} :
    s ∈ G.properSymbols ↔ G.declares s = true ∧ s.isEndMarker = false := by
  simp [properSymbols]

theorem mem_symbols_leftCorner {G : Grammar} {s : Symbol} :
    s ∈ G.lookahead.leftCorner.symbols ↔ G.declares s = true ∧ s.name ≠ Symbol.endName := by
  change s ∈ G.properSymbols ↔ _
  rw [mem_properSymbols, Symbol.isEndMarker_eq_false_iff]

/-- The second proper symbol is the first one, or one that it starts with directly. -/
def Corner (G : Grammar) (s t : Symbol) : Prop :=
  s ∈ G.properSymbols ∧ t ∈ G.properSymbols ∧
    (s = t ∨ t ∈ G.directCorners G.nullableSet s)

theorem holds_leftCorner_iff {G : Grammar} {s t : Symbol} :
    G.lookahead.leftCorner.holds s t = true ↔ Relation.TransGen G.Corner s t := by
  have hcorner : G.Corner = fun s t => s ∈ G.properSymbols ∧ t ∈ G.properSymbols ∧
      (s == t || decide (t ∈ G.directCorners G.nullableSet s)) = true := by
    funext s t
    simp only [Corner, Bool.or_eq_true, beq_iff_eq, decide_eq_true_eq]
  rw [hcorner]
  exact SymbolRelation.holds_close_ofPredicate _ _ s t

theorem proper_of_holds {G : Grammar} {s t : Symbol}
    (h : G.lookahead.leftCorner.holds s t = true) :
    s ∈ G.properSymbols ∧ t ∈ G.properSymbols :=
  SymbolRelation.mem_symbols_of_holds h

theorem holds_self {G : Grammar} {s : Symbol} (hs : s ∈ G.properSymbols) :
    G.lookahead.leftCorner.holds s s = true :=
  holds_leftCorner_iff.mpr (.single ⟨hs, hs, Or.inl rfl⟩)

/-- A leading symbol of a sequence comes first once the symbols before it have vanished. -/
theorem derives_of_mem_leading {G : Grammar} {u : List Symbol} {t : Symbol}
    (h : t ∈ leading G.nullableSet u) : ∃ rest, G.Derives u (t :: rest) := by
  induction u with
  | nil => cases h
  | cons s u ih =>
      rw [leading] at h
      split at h
      next hend =>
        obtain ⟨rest, hrest⟩ := ih h
        exact ⟨rest, (derives_nil_of_isEndMarker hend).cons_of_nil hrest⟩
      next =>
        split at h
        next hmem =>
          rcases List.mem_cons.mp h with rfl | h
          · exact ⟨u, .refl⟩
          · obtain ⟨rest, hrest⟩ := ih h
            exact ⟨rest, (G.allDeriveNil_nullableSet s hmem).cons_of_nil hrest⟩
        next =>
          obtain rfl := List.mem_singleton.mp h
          exact ⟨u, .refl⟩

theorem Corner.derives {G : Grammar} {s t : Symbol} (h : G.Corner s t) :
    ∃ rest, G.Derives [s] (t :: rest) := by
  obtain ⟨hs, _, rfl | hdirect⟩ := h
  · exact ⟨[], .refl⟩
  · obtain ⟨r, hr, hlead⟩ := List.mem_flatMap.mp hdirect
    obtain ⟨hrule, rfl⟩ := mem_alternatives.mp hr
    obtain ⟨rest, hright⟩ := derives_of_mem_leading hlead
    exact ⟨rest, (derives_right hrule (mem_properSymbols.mp hs).2).trans hright⟩

/-- Left corners are derived: what one derivation puts in front, the next one goes on from. -/
theorem derives_of_holds {G : Grammar} {s t : Symbol}
    (h : G.lookahead.leftCorner.holds s t = true) : ∃ rest, G.Derives [s] (t :: rest) := by
  have hpath := holds_leftCorner_iff.mp h
  clear h
  induction hpath with
  | single hstep => exact hstep.derives
  | tail _ hstep ih =>
      obtain ⟨front, hfront⟩ := ih
      obtain ⟨rest, hrest⟩ := hstep.derives
      exact ⟨rest ++ front, hfront.trans (hrest.append_behind front)⟩

end Grammar

namespace Lookahead

/-- A symbol is a left corner of a sequence: of its first symbol, or of the others if the first
can be empty. -/
def Begins (L : Lookahead) : List Symbol → Symbol → Prop
  | [], _ => False
  | s :: rest, t =>
      L.leftCorner.holds s t = true ∨ (L.isNullable s = true ∧ Begins L rest t)

theorem begins_append (L : Lookahead) (u v : List Symbol) (t : Symbol) :
    L.Begins (u ++ v) t ↔ L.Begins u t ∨ (L.allNullable u = true ∧ L.Begins v t) := by
  induction u with
  | nil => simp [Begins, allNullable]
  | cons s u ih =>
      have hall : L.allNullable (s :: u) = true ↔
          L.isNullable s = true ∧ L.allNullable u = true := by
        rw [allNullable, List.all_cons, Bool.and_eq_true]
        rfl
      rw [List.cons_append, Begins, Begins, ih, hall]
      tauto

@[simp] theorem mem_firstTerminals (L : Lookahead) (s t : Symbol) :
    t ∈ L.firstTerminals s ↔ t.isTerminal = true ∧ L.leftCorner.holds s t = true := by
  simp [firstTerminals, and_comm]

theorem firstTerminals_eq_empty (L : Lookahead) {s : Symbol} (hs : s ∉ L.leftCorner.symbols) :
    L.firstTerminals s = ∅ := by
  rw [firstTerminals, SymbolRelation.row_eq_empty hs]
  rfl

/-- The walk over a sequence collects the terminals among its left corners. -/
theorem mem_terminals_firstOf (L : Lookahead) (u : List Symbol) (t : Symbol) :
    t ∈ (L.firstOf u).terminals ↔ t.isTerminal = true ∧ L.Begins u t := by
  induction u with
  | nil => simp [firstOf, firstOfMeanings, Begins]
  | cons s u ih =>
      have hlater : t ∈ (L.firstOfMeanings (u.map some)).terminals ↔
          t.isTerminal = true ∧ L.Begins u t := ih
      change t ∈ (L.firstOfMeanings (some s :: u.map some)).terminals ↔ _
      rw [firstOfMeanings, Begins]
      split
      next hnull => simp [hlater, hnull, and_or_left]
      next hnull =>
        rw [mem_firstTerminals]
        tauto

end Lookahead

namespace Grammar

theorem derives_of_begins {G : Grammar} {u : List Symbol} {t : Symbol}
    (h : G.lookahead.Begins u t) : ∃ rest, G.Derives u (t :: rest) := by
  induction u with
  | nil => cases h
  | cons s u ih =>
      rcases h with hcorner | ⟨hnull, hlater⟩
      · obtain ⟨rest, hrest⟩ := derives_of_holds hcorner
        exact ⟨rest ++ u, hrest.append_behind u⟩
      · obtain ⟨rest, hrest⟩ := ih hlater
        have hnil := (G.isNullable_iff_derives_nil s).mp hnull
        exact ⟨rest, hnil.cons_of_nil hrest⟩

theorem proper_of_begins {G : Grammar} {u : List Symbol} {t : Symbol}
    (h : G.lookahead.Begins u t) : t ∈ G.properSymbols := by
  induction u with
  | nil => cases h
  | cons s u ih =>
      rcases h with hcorner | ⟨_, hlater⟩
      · exact (proper_of_holds hcorner).2
      · exact ih hlater

/-- What begins a sequence is a left corner of one of its leading symbols. -/
theorem exists_leading_of_begins {G : Grammar} {u : List Symbol} {t : Symbol}
    (h : G.lookahead.Begins u t) :
    ∃ s ∈ leading G.nullableSet u, G.lookahead.leftCorner.holds s t = true := by
  induction u with
  | nil => cases h
  | cons s u ih =>
      rw [leading]
      rcases h with hcorner | ⟨hnull, hlater⟩
      · have hend := (mem_properSymbols.mp (proper_of_holds hcorner).1).2
        rw [hend, if_neg Bool.false_ne_true]
        refine ⟨s, ?_, hcorner⟩
        split <;> simp
      · obtain ⟨s', hs', hcorner⟩ := ih hlater
        refine ⟨s', ?_, hcorner⟩
        rcases vanishes_iff.mp hnull with hend | hmem
        · rw [if_pos hend]
          exact hs'
        · change s ∈ G.nullableSet at hmem
          rw [if_pos hmem]
          split
          · exact hs'
          · exact List.mem_cons_of_mem s hs'

/-- What begins a right side begins the left side, too. -/
theorem holds_left_of_begins {G : Grammar} {r : Rule} (hr : r ∈ G.rules)
    (hleft : r.left.isEndMarker = false) {t : Symbol} (h : G.lookahead.Begins r.right t) :
    G.lookahead.leftCorner.holds r.left t = true := by
  have hdeclared := G.left_allowed r hr
  rw [Vocabulary.allowsLeft, Bool.and_eq_true] at hdeclared
  have hproper : r.left ∈ G.properSymbols := mem_properSymbols.mpr ⟨hdeclared.2, hleft⟩
  obtain ⟨s, hs, hcorner⟩ := exists_leading_of_begins h
  have hdirect : s ∈ G.directCorners G.nullableSet r.left :=
    List.mem_flatMap.mpr ⟨r, mem_alternatives.mpr ⟨hr, rfl⟩, hs⟩
  have hstep : G.Corner r.left s := ⟨hproper, (proper_of_holds hcorner).1, Or.inr hdirect⟩
  exact holds_leftCorner_iff.mpr (.head hstep (holds_leftCorner_iff.mp hcorner))

/-- A step leads to a sequence that begins with a symbol only from one that does. -/
theorem Step.begins_back {G : Grammar} {u v : List Symbol} (h : G.Step u v) {t : Symbol}
    (hv : G.lookahead.Begins v t) : G.lookahead.Begins u t := by
  cases h with
  | @expand before behind r hr hleft =>
      rw [List.append_assoc, Lookahead.begins_append, Lookahead.begins_append] at hv
      rw [Lookahead.begins_append]
      rcases hv with hbefore | ⟨hnull, hright | ⟨hvanish, hbehind⟩⟩
      · exact Or.inl hbefore
      · exact Or.inr ⟨hnull, Or.inl (holds_left_of_begins hr hleft hright)⟩
      · have hleftnull : G.lookahead.isNullable r.left = true :=
          vanishes_left hr (List.all_eq_true.mp hvanish)
        exact Or.inr ⟨hnull, Or.inr ⟨hleftnull, hbehind⟩⟩
  | @erase before behind s hs =>
      rw [Lookahead.begins_append] at hv ⊢
      rcases hv with hbefore | ⟨hnull, hbehind⟩
      · exact Or.inl hbefore
      · have hend : G.lookahead.isNullable s = true := vanishes_iff.mpr (Or.inl hs)
        exact Or.inr ⟨hnull, Or.inr ⟨hend, hbehind⟩⟩

/-- For a proper symbol, to begin a sequence is to come first in something derived from it. -/
theorem begins_iff_derives {G : Grammar} {t : Symbol} (ht : t ∈ G.properSymbols)
    (u : List Symbol) : G.lookahead.Begins u t ↔ ∃ rest, G.Derives u (t :: rest) := by
  constructor
  · exact derives_of_begins
  · rintro ⟨rest, hderives⟩
    exact hderives.carry_back (P := fun v => G.lookahead.Begins v t)
      (fun _ _ hstep hv => hstep.begins_back hv) (Or.inl (holds_self ht))

/-- Left corners and FIRST are derivability at the left end. The first of two symbols has the
second as a left corner exactly when both are declared, neither is an end marker, and the first
derives something that begins with the second. The FIRST set of a symbol, and likewise that of a
sequence of any symbols, holds exactly the declared terminals other than end markers that begin
something derived from it; undeclared symbols and end markers begin with nothing. -/
theorem first_iff_derives (G : Grammar) :
    (∀ X Y : Symbol, G.lookahead.leftCorner.holds X Y = true ↔
      G.declares X = true ∧ X.isEndMarker = false ∧ G.declares Y = true ∧
        Y.isEndMarker = false ∧ ∃ rest, G.Derives [X] (Y :: rest)) ∧
    (∀ X t : Symbol, t ∈ (G.lookahead.first X).terminals ↔
      t.isTerminal = true ∧ G.declares t = true ∧ t.isEndMarker = false ∧
        ∃ rest, G.Derives [X] (t :: rest)) ∧
    (∀ X : Symbol, G.declares X = false ∨ X.isEndMarker = true →
      (G.lookahead.first X).terminals = ∅) ∧
    (∀ (u : List Symbol) (t : Symbol), t ∈ (G.lookahead.firstOf u).terminals ↔
      t.isTerminal = true ∧ G.declares t = true ∧ t.isEndMarker = false ∧
        ∃ rest, G.Derives u (t :: rest)) := by
  have hsequence (u : List Symbol) (t : Symbol) : G.lookahead.Begins u t ↔
      G.declares t = true ∧ t.isEndMarker = false ∧ ∃ rest, G.Derives u (t :: rest) := by
    rw [← and_assoc, ← mem_properSymbols]
    constructor
    · exact fun h => ⟨proper_of_begins h, derives_of_begins h⟩
    · exact fun h => (begins_iff_derives h.1 u).mpr h.2
  have hsymbol (X t : Symbol) : G.lookahead.leftCorner.holds X t = true ↔
      G.lookahead.Begins [X] t := by
    simp [Lookahead.Begins]
  have hfirst (X t : Symbol) : t ∈ (G.lookahead.first X).terminals ↔
      t.isTerminal = true ∧ G.lookahead.leftCorner.holds X t = true :=
    G.lookahead.mem_firstTerminals X t
  refine ⟨?_, ?_, ?_, ?_⟩
  · intro X Y
    constructor
    · intro h
      have hX := mem_properSymbols.mp (proper_of_holds h).1
      exact ⟨hX.1, hX.2, (hsequence [X] Y).mp ((hsymbol X Y).mp h)⟩
    · intro h
      exact (hsymbol X Y).mpr ((hsequence [X] Y).mpr h.2.2)
  · intro X t
    rw [hfirst, hsymbol, hsequence]
  · intro X hX
    apply SortedSet.eq_empty_of_forall_not_mem
    intro t ht
    have hproper := mem_properSymbols.mp (proper_of_holds ((hfirst X t).mp ht).2).1
    rcases hX with hundeclared | hend
    · exact Bool.false_ne_true (hundeclared.symm.trans hproper.1)
    · exact Bool.false_ne_true (hproper.2.symm.trans hend)
  · intro u t
    rw [Lookahead.mem_terminals_firstOf, hsequence]

/-- In `nullablePrefix` the expression begins with `y` behind a prefix that vanishes, and an
undeclared symbol begins with nothing. -/
theorem first_iff_derives_nullablePrefix :
    (∃ rest, nullablePrefix.Derives [.nonterminal "E"] (.terminal "y" :: rest)) ∧
    nullablePrefix.declares (.nonterminal "F") = false ∧
    (nullablePrefix.lookahead.first (.nonterminal "F")).terminals = ∅ := by
  obtain ⟨_, hfirst, hnothing, _⟩ := first_iff_derives nullablePrefix
  have hy : Symbol.terminal "y" ∈
      (nullablePrefix.lookahead.first (.nonterminal "E")).terminals := by decide +kernel
  have hundeclared : nullablePrefix.declares (.nonterminal "F") = false := by decide +kernel
  exact ⟨((hfirst _ _).mp hy).2.2.2, hundeclared, hnothing _ (Or.inl hundeclared)⟩

end Grammar

end FormalLanguage
