import FormalLanguage.Grammar.Records
import FormalLanguage.Proofs.FlaggedPasses
import FormalLanguage.Proofs.GrammarFaults
import FormalLanguage.Proofs.LeftCorners
import Mathlib.Data.Set.Card

/-!
What building a grammar records, against what it works out. The records count passes, symbols and
entries on the way; the counts are those of the sets and of the relation in the end. A pass in
search of nullable nonterminals that changes anything finds a symbol more, so there is at most one
pass more than there are symbols to find.
-/

namespace FormalLanguage

theorem ncard_setOf_mem {α : Type} [DecidableEq α] {xs : List α} (h : xs.Nodup) :
    {x | x ∈ xs}.ncard = xs.length := by
  rw [show {x | x ∈ xs} = ↑xs.toFinset by ext; simp, Set.ncard_coe_finset,
    List.toFinset_card_of_nodup h]

namespace SortedSet

variable {α : Type} [Ord α] [Std.LawfulEqOrd α] [Std.TransOrd α]

theorem size_lt_size_of_subset {s t : SortedSet α} (hsub : s ⊆ t) (hne : t ≠ s) :
    s.size < t.size := by
  have hsubperm : s.toList.Subperm t.toList := List.subperm_of_subset s.nodup_toList hsub
  refine lt_of_not_ge fun hle => hne (ext fun x => ?_)
  exact (hsubperm.perm_of_length_le hle).mem_iff.symm

theorem size_insert {s : SortedSet α} {x : α} (hx : x ∉ s) : (s.insert x).size = s.size + 1 := by
  have hperm : (s.insert x).toList.Perm (x :: s.toList) := by
    refine (List.perm_ext_iff_of_nodup (nodup_toList _) ?_).mpr fun y => ?_
    · exact List.nodup_cons.mpr ⟨hx, s.nodup_toList⟩
    · rw [List.mem_cons]
      exact mem_insert
  exact hperm.length_eq

end SortedSet

theorem BoolMatrix.nodup_cells (n : Nat) : (cells n).Nodup :=
  (List.nodup_finRange n).product (List.nodup_finRange n)

/-- The entries of its matrix are the pairs that are related. -/
theorem SymbolRelation.size_matrix (R : SymbolRelation) :
    R.matrix.size = {pair : Symbol × Symbol | R.holds pair.1 pair.2 = true}.ncard := by
  let pairAt (cell : Fin R.symbols.toList.length × Fin R.symbols.toList.length) :=
    (R.symbols.toList[cell.1], R.symbols.toList[cell.2])
  let entries := (BoolMatrix.cells _).filter fun cell => R.matrix.holds cell.1 cell.2
  have hinjective : Function.Injective pairAt := by
    intro a b hab
    obtain ⟨hfirst, hsecond⟩ := Prod.mk.inj hab
    exact Prod.ext (Fin.ext (R.symbols.nodup_toList.getElem_inj_iff.mp hfirst))
      (Fin.ext (R.symbols.nodup_toList.getElem_inj_iff.mp hsecond))
  have hdistinct : (entries.map pairAt).Nodup :=
    ((BoolMatrix.nodup_cells _).filter _).map hinjective
  have hpairs : {pair : Symbol × Symbol | R.holds pair.1 pair.2 = true} =
      {pair | pair ∈ entries.map pairAt} := by
    ext ⟨s, t⟩
    simp only [Set.mem_ofPred_eq, holds_iff, List.mem_map, entries, List.mem_filter, Prod.exists,
      BoolMatrix.mem_cells, true_and, pairAt, Prod.mk.injEq]
    constructor
    · rintro ⟨i, k, hs, ht, hentry⟩
      exact ⟨i, k, hentry, hs, ht⟩
    · rintro ⟨i, k, hentry, hs, ht⟩
      exact ⟨i, k, hs, ht, hentry⟩
  rw [hpairs, ncard_setOf_mem hdistinct, List.length_map, BoolMatrix.size,
    List.countP_eq_length_filter]

namespace Grammar

/-- How many symbols are known to be nullable after so many passes. -/
def foundAfter (G : Grammar) (passes : Nat) : Nat := (G.nullablePass^[passes] ∅).size

theorem size_nullablePass_lt {G : Grammar} {known : SortedSet Symbol}
    (h : G.nullablePass known ≠ known) : known.size < (G.nullablePass known).size :=
  SortedSet.size_lt_size_of_subset (G.nullablePass_bounds known).1 h

/-- The reports of a search for nullable nonterminals, from how many are known after each pass. -/
def searchReports (c : Nat → Nat) (passes : Nat) : List Event :=
  (List.range' 1 passes).map fun i => .nullablePass i (c i)

/-- The reports of passes over the matrix of left corners, of which only the last finds nothing to
change. -/
def closingReports (passes : Nat) : List Event :=
  (List.range' 1 passes).map fun i => .relaxationPass i (decide (i < passes))

theorem closingReports_eq (passes : Nat) : closingReports passes =
    (List.range passes).map fun i => .relaxationPass (i + 1) (i + 1 != passes) := by
  refine List.ext_getElem (by simp [closingReports]) fun i hi _ => ?_
  have hlt : i < passes := by simpa [closingReports] using hi
  have hlast : (i + 1 != passes) = decide (i + 1 < passes) := by
    rw [Bool.eq_iff_iff, bne_iff_ne, decide_eq_true_iff]
    omega
  simp [closingReports, hlast, Nat.add_comm 1 i]

section Steps

open Recorded

theorem run_searchRecorded (G : Grammar) (earlier : List Event) :
    G.searchRecorded.run.run earlier = (.ok G.nullableSet, earlier ++ G.nullableRecords) := by
  have hloop := run_liftM (G.nullability.run_reporting
    (fun pass known _ => Event.nullablePass pass known.size) 0 ∅ earlier)
  have hreports : ((G.nullability.passes ∅).zipIdx 1).map (fun pass =>
      Event.nullablePass pass.2 pass.1.size) = G.nullablePasses.zipIdx.map fun pass =>
        Event.nullablePass (pass.2 + 1) pass.1.size :=
    List.ext_getElem (by simp [nullablePasses]) fun i _ _ => by
      simp [nullablePasses, Nat.add_comm 1 i]
  rw [Nat.zero_add, Nat.zero_add] at hloop
  refine (run_bind hloop).trans ((run_bind (run_record _)).trans ?_)
  rw [List.append_assoc]
  exact congrArg (fun reports => (_, earlier ++ (reports ++ _))) hreports

theorem run_closeRecorded (G : Grammar) (earlier : List Event) :
    (G.closeRecorded G.nullableSet).run.run earlier =
      (.ok G.lookahead.leftCorner, earlier ++ G.leftCornerRecords) := by
  let matrix := (G.directLeftCorner G.nullableSet).matrix
  have hloop := run_liftM ((BoolMatrix.relaxation _).run_reporting
    (fun pass _ changed => Event.relaxationPass pass changed) 0 matrix earlier)
  have hreports : closingReports matrix.passCount =
      (((BoolMatrix.relaxation _).passes matrix).zipIdx 1).map fun pass =>
        .relaxationPass pass.2 (decide (pass.2 < matrix.passCount)) := by
    rw [closingReports, BoolMatrix.passCount, ← List.zipIdx_map_snd, List.map_map]
    rfl
  rw [Nat.zero_add, Nat.zero_add] at hloop
  refine (run_bind hloop).trans ((run_bind (run_record _)).trans ?_)
  rw [leftCornerRecords, ← closingReports_eq, List.append_assoc]
  exact congrArg (fun reports => (_, earlier ++ (reports ++ _))) hreports.symm

/-- Behind whatever was recorded before, an attempt that is refused records nothing, and one that
succeeds records how the relations were worked out. -/
theorem run_buildRecorded (nonterminals terminals : List Symbol) (rules : List Rule)
    (start : Symbol) (earlier : List Event) :
    let outcome := build nonterminals terminals rules start
    (buildRecorded nonterminals terminals rules start).run.run earlier =
      (outcome.map lookahead, earlier ++ attemptRecords outcome) := by
  unfold buildRecorded
  cases build nonterminals terminals rules start with
  | error e =>
      dsimp only
      rw [attemptRecords, List.append_nil]
      rfl
  | ok G =>
      refine (run_bind rfl).trans ((run_bind (G.run_searchRecorded _)).trans ?_)
      rw [run_bind (G.run_closeRecorded _), run_bind (run_record _)]
      simp only [attemptRecords, records, List.append_assoc]
      rfl

end Steps

theorem filter_nullableSet (G : Grammar) :
    (G.nullableSet.filter fun s => !s.isTerminal) = G.nullability.settle ∅ := by
  refine SortedSet.ext fun s => ?_
  rw [SortedSet.mem_filter, mem_nullableSet, Bool.not_eq_true']
  constructor
  · rintro ⟨rfl | hs, hproper⟩
    · exact absurd hproper (by decide)
    · exact hs
  · intro hs
    obtain ⟨n, _, rfl⟩ := exists_of_mem_settle hs
    exact ⟨Or.inr hs, rfl⟩

/-- Only nonterminals are found, so the end marker is one symbol more. -/
theorem size_nullableSet (G : Grammar) :
    G.nullableSet.size = (G.nullability.settle ∅).size + 1 := by
  refine SortedSet.size_insert fun hend => ?_
  obtain ⟨n, _, hsame⟩ := exists_of_mem_settle hend
  cases hsame

section Search

variable {G : Grammar} {n : Nat} (hn : G.nullability.SettlesAfter ∅ n)

include hn

theorem size_settle_eq : (G.nullability.settle ∅).size = G.foundAfter n :=
  congrArg SortedSet.size hn.settle_eq

/-- Every pass but the last finds something. -/
theorem foundAfter_lt {i : Nat} (hi : i < n) : G.foundAfter i < G.foundAfter (i + 1) := by
  have hchange := hn.changing i hi
  rw [Function.iterate_succ_apply'] at hchange
  rw [foundAfter, foundAfter, Function.iterate_succ_apply']
  exact size_nullablePass_lt hchange

theorem foundAfter_last : G.foundAfter (n + 1) = G.foundAfter n :=
  congrArg SortedSet.size hn.settled

theorem le_foundAfter : n ≤ G.foundAfter n :=
  hn.le_size (fun _ => size_nullablePass_lt) (Nat.le_refl n)

theorem nullableRecords_eq : G.nullableRecords = searchReports G.foundAfter (n + 1) ++
    [Event.nullableDone (G.foundAfter n) G.nonterminals.size (n + 1)] := by
  have hlength : G.nullablePasses.length = n + 1 := hn.length_passes
  have hpasses : G.nullablePasses = _ := hn.passes_eq
  unfold nullableRecords
  dsimp only
  rw [hlength, filter_nullableSet, size_settle_eq hn, hpasses]
  refine congrArg₂ (· ++ ·) (List.ext_getElem (by simp [searchReports]) fun i hi _ => ?_) rfl
  simp [searchReports, foundAfter, nullability, Nat.add_comm 1 i]

theorem nullableLoop_iff {reports : List Event} {known : SortedSet Symbol} :
    G.NullableLoop reports known ↔
      reports = searchReports G.foundAfter (n + 1) ∧ known = G.nullability.settle ∅ := by
  rw [hn.settle_eq]
  exact ReportingLoop.iff_of_settlesAfter G.searchNullable_eq hn

end Search

section Closing

variable {G : Grammar} {m : Nat}
  (hm : (BoolMatrix.relaxation _).SettlesAfter (G.directLeftCorner G.nullableSet).matrix m)

include hm

theorem leftCornerRecords_eq : G.leftCornerRecords = closingReports (m + 1) ++
    [Event.relaxationDone {X : Symbol | G.declares X = true ∧ X.name ≠ Symbol.endName}.ncard
      {XY : Symbol × Symbol | G.lookahead.leftCorner.holds XY.1 XY.2 = true}.ncard (m + 1)] := by
  have hpasses : (G.directLeftCorner G.nullableSet).matrix.passCount = m + 1 := hm.length_passes
  have hsymbols : {X : Symbol | G.declares X = true ∧ X.name ≠ Symbol.endName} =
      {X | X ∈ G.properSymbols.toList} := by
    ext X
    rw [Set.mem_ofPred_eq, Set.mem_ofPred_eq, ← mem_symbols_leftCorner]
    rfl
  unfold leftCornerRecords
  dsimp only
  rw [hpasses, ← closingReports_eq, hsymbols, ncard_setOf_mem G.properSymbols.nodup_toList,
    ← SymbolRelation.size_matrix]
  rfl

theorem leftCornerLoop_iff {reports : List Event}
    {M : BoolMatrix G.properSymbols.toList.length} : G.LeftCornerLoop reports M ↔
      reports = closingReports (m + 1) ∧ M = G.lookahead.leftCorner.matrix := by
  rw [show G.lookahead.leftCorner.matrix = _ from hm.settle_eq]
  exact ReportingLoop.iff_of_settlesAfter BoolMatrix.relaxEntries_eq hm

end Closing

/-- What an attempt to build a grammar records is a faithful account of how the relations of the
grammar were worked out. The steps of the attempt put it behind whatever was recorded before, and
end with the published relations or with the first fault. A refused attempt records nothing.
Otherwise there are `p` passes in search of nullable nonterminals, which know `c i` of them after
pass `i` and `k` in the end, and `q` passes over the matrix of left corners. Each of them is
reported in detail, in the words that follow, with a summary behind the last one, and the grammar
itself comes last. The search knows more after every pass but the last, so it takes at most one pass
more than it finds symbols, and only the last pass over the matrix changes nothing. The summaries
give the sizes of the published relations: `k` is how many symbols are nullable besides the end
marker, and the symbols and entries of the matrix are the declared symbols not named like the end
marker and the pairs of symbols in the relation. Both loops come to an end, with these reports and
with the published relations as the only outcome. -/
theorem build_records (nonterminals terminals : List Symbol) (rules : List Rule) (start : Symbol) :
    let outcome := build nonterminals terminals rules start
    (∀ earlier, (buildRecorded nonterminals terminals rules start).run.run earlier =
      (outcome.map lookahead, earlier ++ attemptRecords outcome)) ∧
    (∀ fault, outcome = .error fault → attemptRecords outcome = []) ∧
    ∀ G : Grammar, outcome = .ok G → ∃ (c : Nat → Nat) (k p q : Nat) (known : SortedSet Symbol),
      let symbols := {X : Symbol | G.declares X = true ∧ X.name ≠ Symbol.endName}
      let related := {XY : Symbol × Symbol | G.lookahead.leftCorner.holds XY.1 XY.2 = true}
      attemptRecords outcome =
        searchReports c p ++ [Event.nullableDone k G.nonterminals.size p] ++
        (closingReports q ++ [Event.relaxationDone symbols.ncard related.ncard q]) ++
        [Event.grammarMade G.nonterminals.size G.terminals.size rules.length start.name] ∧
      (attemptRecords outcome).map Event.level = List.replicate p Level.trace ++ [Level.debug] ++
        (List.replicate q Level.trace ++ [Level.debug]) ++ [Level.debug] ∧
      (searchReports c p).map Event.message = (List.range' 1 p).map (fun i =>
        "nullable pass " ++ toString i ++ ": " ++ toString (c i) ++ " symbols") ∧
      (closingReports q).map Event.message = (List.range' 1 q).map (fun i =>
        "starts-with closure pass " ++ toString i ++ ": changed = " ++ toString (decide (i < q))) ∧
      (p = 1 → c 1 = 0 ∧ k = 0) ∧
      (1 < p → 0 < c 1 ∧ (∀ i, 1 ≤ i → i + 1 < p → c i < c (i + 1)) ∧ c (p - 1) = c p ∧ c p = k) ∧
      G.lookahead.nullable.size = k + 1 ∧ 1 ≤ p ∧ p ≤ k + 1 ∧ 1 ≤ q ∧
      known.insert Symbol.endMarker = G.lookahead.nullable ∧
      (∀ (reports : List Event) (found : SortedSet Symbol), G.NullableLoop reports found ↔
        reports = searchReports c p ∧ found = known) ∧
      (∀ (reports : List Event) (M : BoolMatrix _), G.LeftCornerLoop reports M ↔
        reports = closingReports q ∧ M = G.lookahead.leftCorner.matrix) := by
  intro outcome
  refine ⟨run_buildRecorded nonterminals terminals rules start,
    fun fault h => by rw [h]; rfl, fun G h => ?_⟩
  obtain ⟨_, rfl, hstart⟩ := parts_of_build_eq_ok h
  obtain ⟨n, hn⟩ := G.nullability.exists_settlesAfter ∅
  obtain ⟨m, hm⟩ :=
    (BoolMatrix.relaxation _).exists_settlesAfter (G.directLeftCorner G.nullableSet).matrix
  have hrecords : attemptRecords outcome = G.records := congrArg attemptRecords h
  rw [records, nullableRecords_eq hn, leftCornerRecords_eq hm, hstart] at hrecords
  have hsize : G.nullableSet.size = G.foundAfter n + 1 := by
    rw [size_nullableSet, size_settle_eq hn]
  refine ⟨G.foundAfter, G.foundAfter n, n + 1, m + 1, G.nullability.settle ∅, hrecords, ?_,
    List.map_map, List.map_map, ?_, ?_, hsize, Nat.le_add_left 1 n,
    Nat.succ_le_succ (le_foundAfter hn), Nat.le_add_left 1 m, rfl,
    fun _ _ => nullableLoop_iff hn, fun _ _ => leftCornerLoop_iff hm⟩
  · rw [hrecords]
    simp [searchReports, closingReports, Event.level, Function.comp_def]
  · intro hsingle
    obtain rfl : n = 0 := Nat.succ.inj hsingle
    exact ⟨foundAfter_last hn, rfl⟩
  · intro hseveral
    have hpos : 0 < n := Nat.lt_of_succ_lt_succ hseveral
    exact ⟨foundAfter_lt hn hpos, fun i _ hi => foundAfter_lt hn (Nat.lt_of_succ_lt_succ hi),
      (foundAfter_last hn).symm, foundAfter_last hn⟩

/-- Nonterminals each of which can vanish only if the next one in order can. -/
def vanishingChain : List Rule :=
  [⟨.nonterminal "A", [.nonterminal "B"], 0⟩, ⟨.nonterminal "B", [.nonterminal "C"], 1⟩,
    ⟨.nonterminal "C", [], 2⟩]

/-- Every pass over `vanishingChain` finds one symbol more until all are found, and the matrix is
closed by its first pass. With a start symbol that is not declared nothing is recorded. -/
theorem build_records_vanishingChain :
    let nonterminals : List Symbol := [.nonterminal "A", .nonterminal "B", .nonterminal "C"]
    let outcome := build nonterminals [] vanishingChain (.nonterminal "A")
    let refused := build nonterminals [] vanishingChain (.nonterminal "S")
    attemptRecords outcome =
      [.nullablePass 1 1, .nullablePass 2 2, .nullablePass 3 3, .nullablePass 4 3,
        .nullableDone 3 3 4, .relaxationPass 1 true, .relaxationPass 2 false,
        .relaxationDone 3 6 2, .grammarMade 3 0 3 "A"] ∧
    (∃ G, outcome = .ok G ∧ (∃ reports known, G.NullableLoop reports known) ∧
      ∃ reports M, G.LeftCornerLoop reports M) ∧
    refused = .error (.undeclaredStart (.nonterminal "S")) ∧ attemptRecords refused = [] := by
  intro nonterminals outcome refused
  obtain ⟨G, hG⟩ : ∃ G, outcome = .ok G := exists_build_eq_ok_iff.mpr (by decide +kernel)
  obtain ⟨c, k, p, q, known, _, _, _, _, _, _, _, _, _, _, _, hsearch, hclosing⟩ :=
    (build_records nonterminals [] vanishingChain (.nonterminal "A")).2.2 G hG
  have hrefused : refused = .error (.undeclaredStart (.nonterminal "S")) :=
    build_of_fault (by decide +kernel)
  refine ⟨by decide +kernel, ⟨G, hG, ⟨_, _, (hsearch _ _).mpr ⟨rfl, rfl⟩⟩,
    ⟨_, _, (hclosing _ _).mpr ⟨rfl, rfl⟩⟩⟩, hrefused, ?_⟩
  exact (build_records nonterminals [] vanishingChain (.nonterminal "S")).2.1 _ hrefused

end Grammar

end FormalLanguage
