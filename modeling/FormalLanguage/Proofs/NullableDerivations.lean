import FormalLanguage.Grammar.Derivation
import FormalLanguage.Grammar.Lookahead
import Mathlib.Tactic

/-!
Nullable symbols are those that derive the empty sequence. No nonterminal is ever noted without a
right side whose symbols were noted before it or are end markers, so what the passes find can be
derived, and a rule such as `L ::= L` alone justifies nothing. When a pass notes nothing new, no
rule is left whose right side vanishes while its left side is missing, and then the last
derivation step of any derivation of the empty sequence, and each step before it, starts from a
sequence whose symbols all vanish.
-/

namespace FormalLanguage.Grammar

theorem vanishes_iff {known : SortedSet Symbol} {s : Symbol} :
    vanishes known s = true ↔ s.isEndMarker = true ∨ s ∈ known := by
  rw [vanishes, Bool.or_eq_true, decide_eq_true_eq]

@[simp] theorem mem_alternatives {G : Grammar} {left : Symbol} {r : Rule} :
    r ∈ G.alternatives left ↔ r ∈ G.rules ∧ r.left = left := by
  rw [alternatives, List.mem_filter, beq_iff_eq]

theorem hasVanishingSide_iff {G : Grammar} {known : SortedSet Symbol} {left : Symbol} :
    G.hasVanishingSide known left = true ↔
      ∃ r ∈ G.rules, r.left = left ∧ ∀ s ∈ r.right, vanishes known s = true := by
  simp only [hasVanishingSide, List.any_eq_true, List.all_eq_true, mem_alternatives, and_assoc]

theorem hasVanishingSide_mono {G : Grammar} {known later : SortedSet Symbol} {left : Symbol}
    (hsub : known ⊆ later) (h : G.hasVanishingSide known left = true) :
    G.hasVanishingSide later left = true := by
  obtain ⟨r, hr, hleft, hright⟩ := hasVanishingSide_iff.mp h
  refine hasVanishingSide_iff.mpr ⟨r, hr, hleft, ?_⟩
  intro s hs
  rcases vanishes_iff.mp (hright s hs) with hend | hknown
  · exact vanishes_iff.mpr (Or.inl hend)
  · exact vanishes_iff.mpr (Or.inr (hsub s hknown))

/-- A pass notes every declared nonterminal that what is known at its start shows to vanish. -/
theorem mem_nullablePass {G : Grammar} {known : SortedSet Symbol} {n : String}
    (hn : n ∈ G.nonterminals) (h : G.hasVanishingSide known (.nonterminal n) = true) :
    .nonterminal n ∈ G.nullablePass known := by
  have htakes := (foldl_takes_steps (fun K L : SortedSet Symbol => K ⊆ L) (fun _ _ h => h)
    (fun hxy hyz s hs => hyz s (hxy s hs)) G.noteNullable
    (fun _ _ _ hs => mem_noteNullable hs) G.nonterminals.toList known).2
  obtain ⟨before, hbefore, hafter⟩ := htakes n hn
  apply hafter
  rw [noteNullable, if_pos (hasVanishingSide_mono hbefore h)]
  simp

/-- Everything in a set of symbols derives the empty sequence. -/
def AllDeriveNil (G : Grammar) (known : SortedSet Symbol) : Prop :=
  ∀ s ∈ known, G.Derives [s] []

theorem AllDeriveNil.derives_nil {G : Grammar} {known : SortedSet Symbol}
    (h : G.AllDeriveNil known) {u : List Symbol} (hu : ∀ s ∈ u, vanishes known s = true) :
    G.Derives u [] := by
  apply derives_nil_of_forall
  intro s hs
  rcases vanishes_iff.mp (hu s hs) with hend | hknown
  · exact derives_nil_of_isEndMarker hend
  · exact h s hknown

/-- A nonterminal with a right side that vanishes derives the empty sequence, by way of that right
side or, if its name makes it an end marker, by being erased. -/
theorem AllDeriveNil.noteNullable {G : Grammar} {known : SortedSet Symbol}
    (h : G.AllDeriveNil known) (n : String) : G.AllDeriveNil (G.noteNullable known n) := by
  unfold Grammar.noteNullable
  split
  next hside =>
    intro s hs
    rcases SortedSet.mem_insert.mp hs with rfl | hknown
    · obtain ⟨r, hr, hleft, hright⟩ := hasVanishingSide_iff.mp hside
      rw [← hleft]
      cases hend : r.left.isEndMarker with
      | true => exact derives_nil_of_isEndMarker hend
      | false => exact (derives_right hr hend).trans (h.derives_nil hright)
    · exact h s hknown
  next => exact h

theorem AllDeriveNil.nullablePass {G : Grammar} {known : SortedSet Symbol}
    (h : G.AllDeriveNil known) : G.AllDeriveNil (G.nullablePass known) :=
  List.foldlRecOn (motive := G.AllDeriveNil) G.nonterminals.toList _ h
    fun _ hlater n _ => hlater.noteNullable n

@[simp] theorem mem_nullableSet {G : Grammar} {s : Symbol} :
    s ∈ G.nullableSet ↔ s = .endMarker ∨ s ∈ G.nullability.settle ∅ :=
  SortedSet.mem_insert

theorem allDeriveNil_nullableSet (G : Grammar) : G.AllDeriveNil G.nullableSet := by
  have hsettled : G.AllDeriveNil (G.nullability.settle ∅) :=
    G.nullability.settle_induction (fun _ h => h.nullablePass) ∅ (by simp [AllDeriveNil])
  intro s hs
  rcases mem_nullableSet.mp hs with rfl | hs
  · exact derives_nil_of_isEndMarker rfl
  · exact hsettled s hs

/-- Only declared nonterminals are noted. -/
theorem exists_of_mem_settle {G : Grammar} {s : Symbol} (hs : s ∈ G.nullability.settle ∅) :
    ∃ n ∈ G.nonterminals, s = .nonterminal n := by
  have hsettled : ∀ t ∈ G.nullability.settle ∅, ∃ n ∈ G.nonterminals, t = .nonterminal n := by
    refine G.nullability.settle_induction (P := fun known =>
      ∀ t ∈ known, ∃ n ∈ G.nonterminals, t = .nonterminal n) ?_ ∅ ?_
    · intro known hknown t ht
      rcases (G.nullablePass_bounds known).2 t ht with hold | hnew
      · exact hknown t hold
      · exact hnew
    · simp
  exact hsettled s hs

theorem declared_of_mem_nullableSet {G : Grammar} {s : Symbol} (hs : s ∈ G.nullableSet)
    (hproper : s.isEndMarker = false) : s.isTerminal = false ∧ G.declares s = true := by
  rcases mem_nullableSet.mp hs with rfl | hs
  · cases hproper
  · obtain ⟨n, hn, rfl⟩ := exists_of_mem_settle hs
    exact ⟨rfl, decide_eq_true hn⟩

/-- The left side of a rule vanishes if its right side does. -/
theorem vanishes_left {G : Grammar} {r : Rule} (hr : r ∈ G.rules)
    (hright : ∀ s ∈ r.right, vanishes G.nullableSet s = true) :
    vanishes G.nullableSet r.left = true := by
  obtain ⟨n, hn, hleft⟩ := left_declared hr
  have hside : G.hasVanishingSide (G.nullability.settle ∅) (.nonterminal n) = true := by
    refine hasVanishingSide_iff.mpr ⟨r, hr, hleft, ?_⟩
    intro s hs
    rcases vanishes_iff.mp (hright s hs) with hend | hmem
    · exact vanishes_iff.mpr (Or.inl hend)
    · rcases mem_nullableSet.mp hmem with rfl | hsettled
      · exact vanishes_iff.mpr (Or.inl rfl)
      · exact vanishes_iff.mpr (Or.inr hsettled)
  -- The settled set is one that a pass leaves as it is.
  have hnoted := mem_nullablePass hn hside
  have hfixed : G.nullablePass (G.nullability.settle ∅) = G.nullability.settle ∅ :=
    G.nullability.step_settle ∅
  rw [hfixed] at hnoted
  rw [hleft]
  exact vanishes_iff.mpr (Or.inr (mem_nullableSet.mpr (Or.inr hnoted)))

/-- A step leads to a sequence that vanishes only from one that does. -/
theorem Step.vanishes_back {G : Grammar} {u v : List Symbol} (h : G.Step u v)
    (hv : ∀ s ∈ v, vanishes G.nullableSet s = true) :
    ∀ s ∈ u, vanishes G.nullableSet s = true := by
  cases h with
  | expand hr hleft =>
      simp only [List.forall_mem_append, List.forall_mem_cons] at hv ⊢
      obtain ⟨⟨hbefore, hright⟩, hbehind⟩ := hv
      exact ⟨hbefore, vanishes_left hr hright, hbehind⟩
  | erase hend =>
      simp only [List.forall_mem_append, List.forall_mem_cons] at hv ⊢
      obtain ⟨hbefore, hbehind⟩ := hv
      exact ⟨hbefore, vanishes_iff.mpr (Or.inl hend), hbehind⟩

/-- A sequence derives the empty one exactly when all its symbols vanish. -/
theorem allNullable_iff_derives_nil (G : Grammar) (u : List Symbol) :
    G.lookahead.allNullable u = true ↔ G.Derives u [] := by
  rw [Lookahead.allNullable, List.all_eq_true]
  constructor
  · exact fun h => G.allDeriveNil_nullableSet.derives_nil h
  · intro h
    exact h.carry_back (P := fun v => ∀ s ∈ v, vanishes G.nullableSet s = true)
      (fun _ _ hstep hv => hstep.vanishes_back hv) (fun s hs => nomatch hs)

theorem isNullable_iff_derives_nil (G : Grammar) (s : Symbol) :
    G.lookahead.isNullable s = true ↔ G.Derives [s] [] := by
  rw [← allNullable_iff_derives_nil, Lookahead.allNullable, List.all_cons, List.all_nil,
    Bool.and_true]

/-- Nullability is derivability of the empty sequence. A symbol that is not an end marker is
nullable, and likewise listed among the nullable symbols, exactly when it is a declared
nonterminal from which the empty sequence can be derived; the end marker is always listed; and a
sequence of any symbols is nullable exactly when the empty one can be derived from it. -/
theorem nullable_iff_derives_nil (G : Grammar) :
    (∀ A : Symbol, A.isEndMarker = false →
      (G.lookahead.isNullable A = true ↔
        A.isTerminal = false ∧ G.declares A = true ∧ G.Derives [A] [])) ∧
    (∀ A : Symbol, A.isEndMarker = false →
      (A ∈ G.lookahead.nullable ↔
        A.isTerminal = false ∧ G.declares A = true ∧ G.Derives [A] [])) ∧
    Symbol.endMarker ∈ G.lookahead.nullable ∧
    (∀ u : List Symbol, G.lookahead.allNullable u = true ↔ G.Derives u []) := by
  have hlisted (A : Symbol) (hproper : A.isEndMarker = false) :
      G.lookahead.isNullable A = true ↔ A ∈ G.lookahead.nullable := by
    rw [Lookahead.isNullable, vanishes_iff, hproper]
    simp
  have hexact (A : Symbol) (hproper : A.isEndMarker = false) :
      G.lookahead.isNullable A = true ↔
        A.isTerminal = false ∧ G.declares A = true ∧ G.Derives [A] [] := by
    constructor
    · intro h
      have hdeclared := declared_of_mem_nullableSet ((hlisted A hproper).mp h) hproper
      exact ⟨hdeclared.1, hdeclared.2, (G.isNullable_iff_derives_nil A).mp h⟩
    · exact fun h => (G.isNullable_iff_derives_nil A).mpr h.2.2
  refine ⟨hexact, ?_, mem_nullableSet.mpr (Or.inl rfl), G.allNullable_iff_derives_nil⟩
  exact fun A hproper => (hlisted A hproper).symm.trans (hexact A hproper)

/-- Expressions that recur on the left behind a prefix which can vanish, with a rule that repeats
its left side and a nonterminal that derives no terminals at all. -/
def nullablePrefix : Grammar :=
  (Grammar.build [.nonterminal "E", .nonterminal "A", .nonterminal "U"]
    [.terminal "x", .terminal "y"]
    [⟨.nonterminal "E", [.nonterminal "A", .endMarker, .nonterminal "E", .terminal "x"], 0⟩,
      ⟨.nonterminal "E", [.terminal "y"], 1⟩,
      ⟨.nonterminal "A", [.nonterminal "A"], 2⟩,
      ⟨.nonterminal "A", [.endMarker, .endMarker], 3⟩,
      ⟨.nonterminal "U", [.nonterminal "U"], 4⟩]
    (.nonterminal "E")).toOption.get (by decide +kernel)

/-- The prefix of `nullablePrefix` vanishes by its second rule, and `U` by none. -/
theorem nullable_iff_derives_nil_nullablePrefix :
    (Symbol.nonterminal "A").isEndMarker = false ∧
    nullablePrefix.Derives [.nonterminal "A"] [] ∧
    ¬ nullablePrefix.Derives [.nonterminal "U"] [] := by
  obtain ⟨hsymbol, _, _, hsequence⟩ := nullable_iff_derives_nil nullablePrefix
  have hproper : (Symbol.nonterminal "A").isEndMarker = false := by decide +kernel
  have hnull : nullablePrefix.lookahead.isNullable (.nonterminal "A") = true := by
    decide +kernel
  have hnot : ¬ nullablePrefix.lookahead.allNullable [.nonterminal "U"] = true := by
    decide +kernel
  refine ⟨hproper, ((hsymbol _ hproper).mp hnull).2.2, ?_⟩
  exact fun hderives => hnot ((hsequence _).mpr hderives)

end FormalLanguage.Grammar
