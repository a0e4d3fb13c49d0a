import FormalLanguage.Grammar.Basic
import FormalLanguage.Iteration.Passes
import FormalLanguage.Iteration.Relaxation

/-!
Which symbols can vanish. A nonterminal is nullable when one of its right sides consists of
nullable symbols and end markers only. The nullable nonterminals are found by passes over all
nonterminals in order, each pass using what it found itself, until a pass finds nothing new.
-/

namespace FormalLanguage

namespace Grammar

/-- Whether a symbol vanishes, given the symbols known to be nullable. End markers always do. -/
def vanishes (known : SortedSet Symbol) (s : Symbol) : Bool :=
  s.isEndMarker || decide (s ∈ known)

/-- Whether some right side of a nonterminal vanishes as a whole. -/
def hasVanishingSide (G : Grammar) (known : SortedSet Symbol) (left : Symbol) : Bool :=
  (G.alternatives left).any fun r => r.right.all (vanishes known)

/-- Adds a nonterminal to the known ones if it is seen to be nullable. -/
def noteNullable (G : Grammar) (known : SortedSet Symbol) (n : String) : SortedSet Symbol :=
  if G.hasVanishingSide known (.nonterminal n) then known.insert (.nonterminal n) else known

/-- One pass over all nonterminals. -/
def nullablePass (G : Grammar) (known : SortedSet Symbol) : SortedSet Symbol :=
  G.nonterminals.toList.foldl G.noteNullable known

theorem mem_noteNullable {G : Grammar} {known : SortedSet Symbol} {n : String} {s : Symbol}
    (h : s ∈ known) : s ∈ G.noteNullable known n := by
  unfold noteNullable
  split
  · simp [h]
  · exact h

/-- A pass keeps what is known, and what it adds are nonterminals. -/
theorem nullablePass_bounds (G : Grammar) (known : SortedSet Symbol) :
    known ⊆ G.nullablePass known ∧
      ∀ s ∈ G.nullablePass known, s ∈ known ∨ ∃ n ∈ G.nonterminals, s = .nonterminal n := by
  have general : ∀ (ns : List String) (start : SortedSet Symbol),
      start ⊆ ns.foldl G.noteNullable start ∧
        ∀ s ∈ ns.foldl G.noteNullable start, s ∈ start ∨ ∃ n ∈ ns, s = .nonterminal n := by
    intro ns
    induction ns with
    | nil => exact fun start => ⟨fun _ h => h, fun _ h => Or.inl h⟩
    | cons n ns ih =>
        intro start
        obtain ⟨keeps, adds⟩ := ih (G.noteNullable start n)
        refine ⟨fun s hs => keeps s (mem_noteNullable hs), fun s hs => ?_⟩
        rcases adds s hs with h | ⟨m, hm, rfl⟩
        · unfold noteNullable at h
          split at h
          · rcases SortedSet.mem_insert.mp h with rfl | h
            · exact Or.inr ⟨n, List.mem_cons_self .., rfl⟩
            · exact Or.inl h
          · exact Or.inl h
        · exact Or.inr ⟨m, List.mem_cons_of_mem _ hm, rfl⟩
  exact general G.nonterminals.toList known

/-- How many nonterminals are not known to be nullable. -/
def undecided (G : Grammar) (known : SortedSet Symbol) : Nat :=
  G.nonterminals.toList.countP fun n => decide (.nonterminal n ∉ known)

theorem undecided_nullablePass_lt {G : Grammar} {known : SortedSet Symbol}
    (h : G.nullablePass known ≠ known) :
    G.undecided (G.nullablePass known) < G.undecided known := by
  obtain ⟨keeps, adds⟩ := G.nullablePass_bounds known
  have new : ∃ s ∈ G.nullablePass known, s ∉ known := by
    refine Classical.byContradiction fun none => h (SortedSet.ext fun s => ⟨fun hs => ?_, keeps s⟩)
    exact Classical.byContradiction fun hk => none ⟨s, hs, hk⟩
  obtain ⟨s, hs, hk⟩ := new
  rcases adds s hs with h | ⟨n, hn, rfl⟩
  · exact absurd h hk
  · refine countP_lt_countP (fun m _ hm => ?_) hn (by simpa using hk) (by simpa using hs)
    rw [decide_eq_true_eq] at hm ⊢
    exact fun h => hm (keeps _ h)

/-- A pass as a step towards the set of all nullable nonterminals. -/
def nullability (G : Grammar) : Improvement (SortedSet Symbol) where
  step := G.nullablePass
  room := G.undecided
  room_lt _ := undecided_nullablePass_lt

/-- What is known after each pass, starting from nothing. -/
def nullablePasses (G : Grammar) : List (SortedSet Symbol) := G.nullability.passes ∅

/-- The nullable nonterminals and the end marker. -/
def nullableSet (G : Grammar) : SortedSet Symbol := (G.nullability.settle ∅).insert .endMarker

end Grammar

/-!
The left corners of a symbol are the symbols it can start with. Directly, a left side starts with
the symbols of a right side up to the first one that cannot vanish; the whole relation is the
reflexive and transitive closure of this one on the declared symbols other than end markers.
-/

/-- A relation between symbols, as a matrix whose rows and columns are numbered by the symbols in
order. -/
structure SymbolRelation where
  symbols : SortedSet Symbol
  matrix : BoolMatrix symbols.toList.length

namespace SymbolRelation

def index? (R : SymbolRelation) (s : Symbol) : Option (Fin R.symbols.toList.length) :=
  R.symbols.toList.finIdxOf? s

/-- Whether the first symbol is related to the second. Symbols without a number are related to
nothing. -/
def holds (R : SymbolRelation) (s t : Symbol) : Bool :=
  match R.index? s, R.index? t with
  | some i, some k => R.matrix.holds i k
  | _, _ => false

/-- The symbols that a symbol is related to. -/
def row (R : SymbolRelation) (s : Symbol) : SortedSet Symbol := R.symbols.filter (R.holds s)

/-- The relation on some symbols that a predicate describes. -/
def ofPredicate (symbols : SortedSet Symbol) (related : Symbol → Symbol → Bool) :
    SymbolRelation where
  symbols := symbols
  matrix := .ofPredicate fun i k => related symbols.toList[i] symbols.toList[k]

/-- The closure under composition. -/
def close (R : SymbolRelation) : SymbolRelation := { R with matrix := R.matrix.close }

end SymbolRelation

namespace Grammar

/-- The symbols a sequence can begin with: those up to and including the first that cannot
vanish, end markers left out. -/
def leading (nullable : SortedSet Symbol) : List Symbol → List Symbol
  | [] => []
  | s :: rest =>
      if s.isEndMarker then leading nullable rest
      else if s ∈ nullable then s :: leading nullable rest
      else [s]

/-- The symbols that a left side starts with directly. -/
def directCorners (G : Grammar) (nullable : SortedSet Symbol) (left : Symbol) : List Symbol :=
  (G.alternatives left).flatMap fun r => leading nullable r.right

/-- The declared symbols other than end markers. -/
def properSymbols (G : Grammar) : SortedSet Symbol := G.symbols.filter fun s => !s.isEndMarker

/-- Every proper symbol related to itself and to what it starts with directly. -/
def directLeftCorner (G : Grammar) (nullable : SortedSet Symbol) : SymbolRelation :=
  .ofPredicate G.properSymbols fun s t => s == t || decide (t ∈ G.directCorners nullable s)

/-- The symbols that each proper symbol starts with, itself included. -/
def leftCorner (G : Grammar) (nullable : SortedSet Symbol) : SymbolRelation :=
  (G.directLeftCorner nullable).close

end Grammar

end FormalLanguage
