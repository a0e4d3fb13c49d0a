import FormalLanguage.Proofs.LeftCorners

/-!
The analyses of a grammar solve their own equations. A nonterminal vanishes exactly when one of
its right sides does, and has exactly the left corners that begin one of its right sides, itself
apart. The FIRST set of a nonterminal, which is read off the closed relation, is therefore the union
of the FIRST sets of its right sides, each of which is collected by a walk from left to right.
-/

namespace FormalLanguage

namespace FirstSet

variable {α : Type} {F : FirstSet} {g : α → FirstSet} {xs : List α}

theorem mem_terminals_foldl_union {t : Symbol} :
    t ∈ (xs.foldl (fun F x => F.union (g x)) F).terminals ↔
      t ∈ F.terminals ∨ ∃ x ∈ xs, t ∈ (g x).terminals := by
  induction xs generalizing F with
  | nil => simp
  | cons x xs ih =>
      rw [List.foldl_cons, ih, union]
      simp [or_assoc]

theorem nullable_foldl_union :
    (xs.foldl (fun F x => F.union (g x)) F).nullable =
      (F.nullable || xs.any fun x => (g x).nullable) := by
  induction xs generalizing F with
  | nil => simp
  | cons x xs ih => rw [List.foldl_cons, ih, union, List.any_cons, Bool.or_assoc]

theorem ext {F G : FirstSet} (hterminals : ∀ t, t ∈ F.terminals ↔ t ∈ G.terminals)
    (hnullable : F.nullable = G.nullable) : F = G := by
  cases F
  cases G
  rw [mk.injEq]
  exact ⟨SortedSet.ext hterminals, hnullable⟩

end FirstSet

theorem Lookahead.nullable_firstOfMeanings (L : Lookahead) (ms : List (Option Symbol)) :
    (L.firstOfMeanings ms).nullable = ms.all fun m => m.any L.isNullable := by
  induction ms with
  | nil => rfl
  | cons m ms ih =>
      rw [List.all_cons]
      cases m with
      | none => rfl
      | some s =>
          rw [firstOfMeanings, Option.any_some]
          split
          next hnull => rw [hnull, Bool.true_and, ih]
          next hnull => rw [Bool.eq_false_of_not_eq_true hnull, Bool.false_and]

theorem Lookahead.nullable_firstOf (L : Lookahead) (u : List Symbol) :
    (L.firstOf u).nullable = L.allNullable u := by
  rw [firstOf, nullable_firstOfMeanings, List.all_map]
  rfl

namespace Grammar

variable {G : Grammar}

/-- Every noted nonterminal has a right side that vanishes by what is noted. -/
def Justified (G : Grammar) (known : SortedSet Symbol) : Prop :=
  ∀ s ∈ known, G.hasVanishingSide known s = true

theorem Justified.noteNullable {known : SortedSet Symbol} (h : G.Justified known) (n : String) :
    G.Justified (G.noteNullable known n) := by
  have hkeeps : known ⊆ G.noteNullable known n := fun _ hs => mem_noteNullable hs
  intro s hs
  apply hasVanishingSide_mono hkeeps
  unfold Grammar.noteNullable at hs
  split at hs
  next hside =>
    rcases SortedSet.mem_insert.mp hs with rfl | hknown
    · exact hside
    · exact h s hknown
  next => exact h s hs

theorem Justified.nullablePass {known : SortedSet Symbol} (h : G.Justified known) :
    G.Justified (G.nullablePass known) :=
  List.foldlRecOn (motive := G.Justified) G.nonterminals.toList _ h
    fun _ hlater n _ => hlater.noteNullable n

theorem hasVanishingSide_of_mem_nullableSet {s : Symbol} (hs : s ∈ G.nullableSet)
    (hproper : s.isEndMarker = false) : G.hasVanishingSide G.nullableSet s = true := by
  have hjustified : G.Justified (G.nullability.settle ∅) :=
    G.nullability.settle_induction (fun _ h => h.nullablePass) ∅ (by simp [Justified])
  have hsub : G.nullability.settle ∅ ⊆ G.nullableSet := fun _ h => mem_nullableSet.mpr (Or.inr h)
  rcases mem_nullableSet.mp hs with rfl | hsettled
  · cases hproper
  · exact hasVanishingSide_mono hsub (hjustified s hsettled)

theorem isNullable_iff_alternative {s : Symbol} (hproper : s.isEndMarker = false) :
    G.lookahead.isNullable s = true ↔
      ∃ r ∈ G.alternatives s, G.lookahead.allNullable r.right = true := by
  constructor
  · intro hnull
    rcases vanishes_iff.mp hnull with hend | hmem
    · exact absurd (hproper.symm.trans hend) Bool.false_ne_true
    · obtain ⟨r, hr, hleft, hright⟩ :=
        hasVanishingSide_iff.mp (hasVanishingSide_of_mem_nullableSet hmem hproper)
      exact ⟨r, mem_alternatives.mpr ⟨hr, hleft⟩, List.all_eq_true.mpr hright⟩
  · rintro ⟨r, hr, hright⟩
    obtain ⟨hrule, rfl⟩ := mem_alternatives.mp hr
    exact vanishes_left hrule (List.all_eq_true.mp hright)

/-- A leading symbol passes what it begins with on to the sequence. -/
theorem begins_of_mem_leading {u : List Symbol} {s t : Symbol} (hs : s ∈ leading G.nullableSet u)
    (hcorner : G.lookahead.leftCorner.holds s t = true) : G.lookahead.Begins u t := by
  induction u with
  | nil => cases hs
  | cons first u ih =>
      rw [leading] at hs
      split at hs
      next hend => exact Or.inr ⟨vanishes_iff.mpr (Or.inl hend), ih hs⟩
      next =>
        split at hs
        next hmem =>
          rcases List.mem_cons.mp hs with rfl | hs
          · exact Or.inl hcorner
          · exact Or.inr ⟨vanishes_iff.mpr (Or.inr hmem), ih hs⟩
        next =>
          obtain rfl := List.mem_singleton.mp hs
          exact Or.inl hcorner

theorem begins_alternative_of_directCorner {s u t : Symbol}
    (hdirect : u ∈ G.directCorners G.nullableSet s)
    (hcorner : G.lookahead.leftCorner.holds u t = true) :
    ∃ r ∈ G.alternatives s, G.lookahead.Begins r.right t := by
  obtain ⟨r, hr, hlead⟩ := List.mem_flatMap.mp hdirect
  exact ⟨r, hr, begins_of_mem_leading hlead hcorner⟩

/-- The equation for left corners. On a path to another symbol the first step that leaves the
symbol goes into one of its right sides, and the rest of the path goes on from there. -/
theorem holds_leftCorner_iff_alternative {s t : Symbol} (hproper : s.isEndMarker = false) :
    G.lookahead.leftCorner.holds s t = true ↔
      (s ∈ G.properSymbols ∧ s = t) ∨
        ∃ r ∈ G.alternatives s, G.lookahead.Begins r.right t := by
  constructor
  · intro h
    have hpath := holds_leftCorner_iff.mp h
    clear h hproper
    -- Steps from the symbol to itself are passed over until one leaves it.
    induction hpath using Relation.TransGen.head_induction_on with
    | single hstep =>
        obtain ⟨hs, ht, rfl | hdirect⟩ := hstep
        · exact Or.inl ⟨hs, rfl⟩
        · exact Or.inr (begins_alternative_of_directCorner hdirect (holds_self ht))
    | head hstep hrest ih =>
        obtain ⟨_, _, rfl | hdirect⟩ := hstep
        · exact ih
        · exact Or.inr (begins_alternative_of_directCorner hdirect
            (holds_leftCorner_iff.mpr hrest))
  · rintro (⟨hs, rfl⟩ | ⟨r, hr, hbegins⟩)
    · exact holds_self hs
    · obtain ⟨hrule, rfl⟩ := mem_alternatives.mp hr
      exact holds_left_of_begins hrule hproper hbegins

/-- The two ways to FIRST agree. What the closed relation and the nullable symbols tell about a
nonterminal that is not an end marker is the union of what the walks over its right sides collect,
in terminals and in nullability. A nonterminal without rules begins with nothing and cannot be
empty. -/
theorem first_eq_union_alternatives (G : Grammar) (n : String)
    (hproper : (Symbol.nonterminal n).isEndMarker = false) :
    G.lookahead.first (.nonterminal n) =
      (G.alternatives (.nonterminal n)).foldl
        (fun F r => F.union (G.lookahead.firstOf r.right)) ∅ := by
  apply FirstSet.ext
  · intro t
    have hother : t.isTerminal = true → Symbol.nonterminal n ≠ t := by
      rintro hterminal rfl
      cases hterminal
    change t ∈ G.lookahead.firstTerminals (.nonterminal n) ↔ _
    rw [Lookahead.mem_firstTerminals, FirstSet.mem_terminals_foldl_union,
      holds_leftCorner_iff_alternative hproper]
    simp only [Lookahead.mem_terminals_firstOf]
    constructor
    · rintro ⟨hterminal, ⟨_, hsame⟩ | ⟨r, hr, hbegins⟩⟩
      · exact absurd hsame (hother hterminal)
      · exact Or.inr ⟨r, hr, hterminal, hbegins⟩
    · rintro (hempty | ⟨r, hr, hterminal, hbegins⟩)
      · exact absurd hempty (SortedSet.not_mem_empty t)
      · exact ⟨hterminal, Or.inr ⟨r, hr, hbegins⟩⟩
  · have hstart : (∅ : FirstSet).nullable = false := rfl
    rw [FirstSet.nullable_foldl_union, hstart, Bool.false_or, Bool.eq_iff_iff, List.any_eq_true]
    simp only [Lookahead.nullable_firstOf]
    exact isNullable_iff_alternative hproper

/-- In `nullablePrefix` the expression begins with `y`, which both ways find behind its vanishing
prefix. -/
theorem first_eq_union_alternatives_nullablePrefix :
    nullablePrefix.lookahead.first (.nonterminal "E") =
        (nullablePrefix.alternatives (.nonterminal "E")).foldl
          (fun F r => F.union (nullablePrefix.lookahead.firstOf r.right)) ∅ ∧
      nullablePrefix.lookahead.first (.nonterminal "E") =
        ⟨SortedSet.ofList [.terminal "y"], false⟩ :=
  ⟨first_eq_union_alternatives nullablePrefix "E" (by decide), by decide +kernel⟩

end Grammar

/-!
FIRST sets of sequences that are put together. What follows a FIRST set counts only if the set says
that nothing may stand in its place. FIRST sets are a monoid under this composition, and the walk
along a sequence composes what its members begin with. So it may be broken off anywhere and
taken up again, also behind a name without meaning or an end marker. The union of FIRST sets, which
is nullable when either set is, has no part in this.
-/

namespace FirstSet

/-- What something begins with when something else follows it. -/
def followedBy (F G : FirstSet) : FirstSet :=
  if F.nullable then ⟨F.terminals ∪ G.terminals, G.nullable⟩ else F

variable {F G H : FirstSet} {t : Symbol}

@[simp] theorem mem_terminals_followedBy : t ∈ (F.followedBy G).terminals ↔
    t ∈ F.terminals ∨ F.nullable = true ∧ t ∈ G.terminals := by
  rw [followedBy]
  split
  next hnull => simp [hnull]
  next hnull => simp [hnull]

theorem nullable_followedBy : (F.followedBy G).nullable = (F.nullable && G.nullable) := by
  rw [followedBy]
  split
  next hnull => rw [hnull, Bool.true_and]
  next hnull => rw [Bool.eq_false_of_not_eq_true hnull, Bool.false_and]

theorem followedBy_assoc : (F.followedBy G).followedBy H = F.followedBy (G.followedBy H) := by
  apply ext
  · intro t
    simp only [mem_terminals_followedBy, nullable_followedBy, Bool.and_eq_true]
    rw [or_assoc, and_or_left, and_assoc]
  · simp only [nullable_followedBy, Bool.and_assoc]

theorem nothing_followedBy : (⟨∅, true⟩ : FirstSet).followedBy F = F := by
  apply ext
  · intro t
    simp
  · rw [nullable_followedBy, Bool.true_and]

theorem followedBy_nothing : F.followedBy ⟨∅, true⟩ = F := by
  apply ext
  · intro t
    simp
  · rw [nullable_followedBy, Bool.and_true]

end FirstSet

namespace Lookahead

variable (L : Lookahead)

/-- What a name with some meaning, or with none, begins with. -/
def firstOfMeaning : Option Symbol → FirstSet
  | none => ∅
  | some s => L.first s

theorem firstOfMeanings_eq_foldr (ms : List (Option Symbol)) :
    L.firstOfMeanings ms = (ms.map L.firstOfMeaning).foldr .followedBy ⟨∅, true⟩ := by
  induction ms with
  | nil => rfl
  | cons m ms ih =>
      rw [List.map_cons, List.foldr_cons, ← ih]
      cases m with
      | none => rfl
      | some s =>
          have hflag : (L.first s).nullable = L.isNullable s := rfl
          change _ = (L.first s).followedBy (L.firstOfMeanings ms)
          rw [firstOfMeanings, FirstSet.followedBy, hflag]
          split
          next => rfl
          next hnull => rw [first, Bool.eq_false_of_not_eq_true hnull]

theorem firstOfMeanings_append (ms ns : List (Option Symbol)) :
    L.firstOfMeanings (ms ++ ns) = (L.firstOfMeanings ms).followedBy (L.firstOfMeanings ns) := by
  simp only [firstOfMeanings_eq_foldr, List.map_append]
  induction ms.map L.firstOfMeaning with
  | nil => rw [List.nil_append, List.foldr_nil, FirstSet.nothing_followedBy]
  | cons F Fs ih => rw [List.cons_append, List.foldr_cons, List.foldr_cons, ih,
      FirstSet.followedBy_assoc]

theorem firstOf_append (u v : List Symbol) :
    L.firstOf (u ++ v) = (L.firstOf u).followedBy (L.firstOf v) := by
  rw [firstOf, List.map_append, firstOfMeanings_append]
  rfl

theorem firstOf_singleton (s : Symbol) : L.firstOf [s] = L.first s := by
  rw [firstOf, firstOfMeanings_eq_foldr]
  exact FirstSet.followedBy_nothing

end Lookahead

/-- FIRST sets of sequences respect concatenation, for sequences of any symbols: declared or
undeclared, flagged rightly or wrongly, end markers or not. The empty sequence begins with nothing
and can be empty, and a single symbol has its own FIRST set. A sequence that cannot be empty hides
all that follows it; one that can be empty adds its terminals to those behind it, and these decide
whether the whole can be empty. A FIRST set says that the sequence can be empty exactly when every
symbol of it can. -/
theorem Grammar.firstOf_concatenation (G : Grammar) :
    G.lookahead.firstOf [] = ⟨∅, true⟩ ∧
    (∀ X : Symbol, G.lookahead.firstOf [X] = G.lookahead.first X) ∧
    (∀ u v : List Symbol, G.lookahead.firstOf (u ++ v) =
      if G.lookahead.allNullable u then
        ⟨(G.lookahead.firstOf u).terminals ∪ (G.lookahead.firstOf v).terminals,
          (G.lookahead.firstOf v).nullable⟩
      else G.lookahead.firstOf u) ∧
    ∀ u : List Symbol, (G.lookahead.firstOf u).nullable = G.lookahead.allNullable u := by
  refine ⟨rfl, G.lookahead.firstOf_singleton, ?_, G.lookahead.nullable_firstOf⟩
  intro u v
  rw [Lookahead.firstOf_append, FirstSet.followedBy, Lookahead.nullable_firstOf]

end FormalLanguage
