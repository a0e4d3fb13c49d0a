import FormalLanguage.Grammar.Records
import FormalLanguage.Iteration.Passes
import FormalLanguage.Proofs.TransitiveClosure
import Mathlib.Data.List.Range
import Mathlib.Logic.Function.Iterate
import Mathlib.Tactic

/-!
How often a step has to be repeated. What the passes give are the iterates of the step, up to the
first that is equal to the one before; so a loop that reports on its passes comes to an end behind
the same one, if its passes take the step and raise their flag exactly when it changes something.
A flag that is raised along a list of steps tells of the whole list, because no step can undo what
an earlier one did.
-/

namespace FormalLanguage

section

variable {α β ρ : Type}

/-- A step with a flag, which it raises exactly when it changes the value. -/
def Flags [DecidableEq α] (step : α → α) (flagged : α × Bool → α × Bool) : Prop :=
  ∀ x raised, flagged (x, raised) = (step x, raised || decide (step x ≠ x))

/-- A list of steps with a flag is a step with a flag, if the steps only go upwards. -/
theorem Flags.foldl [DecidableEq α] (below : α → α → Prop) (hrefl : ∀ x, below x x)
    (htrans : ∀ {x y z}, below x y → below y z → below x z)
    (hantisymm : ∀ {x y}, below x y → below y x → x = y) {step : α → β → α}
    {flagged : α × Bool → β → α × Bool} (hstep : ∀ x b, below x (step x b))
    (hflags : ∀ b, Flags (step · b) (flagged · b)) (bs : List β) :
    Flags (bs.foldl step ·) (bs.foldl flagged ·) := by
  induction bs with
  | nil => simp [Flags]
  | cons b bs ih =>
      intro x raised
      have hfirst : flagged (x, raised) b = (step x b, raised || decide (step x b ≠ x)) :=
        hflags b x raised
      have hrest : bs.foldl flagged (step x b, raised || decide (step x b ≠ x)) =
          (bs.foldl step (step x b), (raised || decide (step x b ≠ x)) ||
            decide (bs.foldl step (step x b) ≠ step x b)) := ih _ _
      have hlater : below (step x b) (bs.foldl step (step x b)) :=
        (foldl_takes_steps below hrefl htrans step hstep bs (step x b)).1
      have hflag : (decide (step x b ≠ x) || decide (bs.foldl step (step x b) ≠ step x b)) =
          decide (bs.foldl step (step x b) ≠ x) := by
        by_cases hsame : step x b = x
        · simp [hsame]
        · have hdiffer : bs.foldl step (step x b) ≠ x := by
            intro hback
            rw [hback] at hlater
            exact hsame (hantisymm hlater (hstep x b))
          simp [hsame, hdiffer]
      show (b :: bs).foldl flagged (x, raised) = _
      rw [List.foldl_cons, hfirst, hrest, Bool.or_assoc, hflag]
      rfl

namespace Improvement

/-- After so many steps that change something comes the first that does not. -/
structure SettlesAfter (I : Improvement α) (x : α) (n : Nat) : Prop where
  changing : ∀ i < n, I.step^[i + 1] x ≠ I.step^[i] x
  settled : I.step^[n + 1] x = I.step^[n] x

theorem SettlesAfter.zero {I : Improvement α} {x : α} (h : I.step x = x) : I.SettlesAfter x 0 where
  changing := fun _ hi => absurd hi (Nat.not_lt_zero _)
  settled := h

theorem SettlesAfter.succ {I : Improvement α} {x : α} {n : Nat} (hne : I.step x ≠ x)
    (h : I.SettlesAfter (I.step x) n) : I.SettlesAfter x (n + 1) where
  changing := by
    intro i hi
    cases i with
    | zero => exact hne
    | succ i => exact h.changing i (Nat.lt_of_succ_lt_succ hi)
  settled := h.settled

theorem SettlesAfter.step_eq_iff {I : Improvement α} {x : α} {n : Nat} (h : I.SettlesAfter x n) :
    I.step x = x ↔ n = 0 := by
  constructor
  · intro hsame
    by_contra hn
    exact h.changing 0 (Nat.pos_of_ne_zero hn) hsame
  · rintro rfl
    exact h.settled

theorem SettlesAfter.pred {I : Improvement α} {x : α} {n : Nat} (h : I.SettlesAfter x (n + 1)) :
    I.SettlesAfter (I.step x) n where
  changing i hi := h.changing (i + 1) (Nat.succ_lt_succ hi)
  settled := h.settled

/-- A size that grows with every change is at least the number of changes. -/
theorem SettlesAfter.le_size {I : Improvement α} {size : α → Nat}
    (hgrows : ∀ y, I.step y ≠ y → size y < size (I.step y)) {x : α} {n : Nat}
    (h : I.SettlesAfter x n) {i : Nat} (hi : i ≤ n) : i ≤ size (I.step^[i] x) := by
  induction i with
  | zero => exact Nat.zero_le _
  | succ i ih =>
      have hbefore : i ≤ size (I.step^[i] x) := ih (Nat.le_of_succ_le hi)
      have hchange := h.changing i hi
      rw [Function.iterate_succ_apply'] at hchange ⊢
      exact Nat.succ_le_of_lt (Nat.lt_of_le_of_lt hbefore (hgrows _ hchange))

variable [DecidableEq α]

theorem exists_settlesAfter (I : Improvement α) (x : α) : ∃ n, I.SettlesAfter x n := by
  fun_induction I.passes x with
  | case1 x y h => exact ⟨0, .zero h⟩
  | case2 x y h ih =>
      obtain ⟨n, hn⟩ := ih
      exact ⟨n + 1, hn.succ h⟩

theorem SettlesAfter.settle_eq {I : Improvement α} {x : α} {n : Nat} (h : I.SettlesAfter x n) :
    I.settle x = I.step^[n] x := by
  induction n generalizing x with
  | zero => rw [Improvement.settle_eq, if_pos (h.step_eq_iff.mpr rfl), Function.iterate_zero_apply]
  | succ n ih =>
      have hchange : I.step x ≠ x := h.step_eq_iff.not.mpr n.succ_ne_zero
      rw [Improvement.settle_eq, if_neg hchange, ih h.pred, Function.iterate_succ_apply]

/-- The passes give the iterates of the step, from the first to the one that repeats the one before
it. -/
theorem SettlesAfter.passes_eq {I : Improvement α} {x : α} {n : Nat} (h : I.SettlesAfter x n) :
    I.passes x = (List.range' 1 (n + 1)).map fun i => I.step^[i] x := by
  induction n generalizing x with
  | zero =>
      rw [passes]
      exact if_pos (h.step_eq_iff.mpr rfl)
  | succ n ih =>
      have hchange : I.step x ≠ x := h.step_eq_iff.not.mpr n.succ_ne_zero
      have hfirst : I.passes x = I.step x :: I.passes (I.step x) := by
        rw [passes]
        exact if_neg hchange
      rw [hfirst, ih h.pred, List.range'_succ (n := n + 1), List.map_cons,
        ← List.map_add_range', List.map_map]
      refine congrArg₂ _ rfl (List.map_congr_left fun i _ => ?_)
      rw [Function.comp_apply, Nat.add_comm, Function.iterate_succ_apply]

theorem SettlesAfter.length_passes {I : Improvement α} {x : α} {n : Nat}
    (h : I.SettlesAfter x n) : (I.passes x).length = n + 1 := by
  rw [h.passes_eq, List.length_map, List.length_range']

end Improvement

namespace ReportingLoop

variable {pass : α → α × Bool} {report : Nat → α → Bool → ρ}

/-- A loop does not get to choose. -/
theorem unique {count : Nat} {x y z : α} {reports other : List ρ}
    (h : ReportingLoop pass report count x reports y)
    (h' : ReportingLoop pass report count x other z) : other = reports ∧ z = y := by
  induction h generalizing other z with
  | last hpass =>
      cases h' with
      | last hpass' =>
          cases hpass.symm.trans hpass'
          exact ⟨rfl, rfl⟩
      | again hpass' _ => cases hpass.symm.trans hpass'
  | again hpass _ ih =>
      cases h' with
      | last hpass' => cases hpass.symm.trans hpass'
      | again hpass' hrest =>
          cases hpass.symm.trans hpass'
          obtain ⟨rfl, rfl⟩ := ih hrest
          exact ⟨rfl, rfl⟩

/-- A loop whose passes take a step and flag its changes ends behind the first pass that makes
none. -/
theorem of_settlesAfter [DecidableEq α] {I : Improvement α}
    (hpass : ∀ x, pass x = (I.step x, decide (I.step x ≠ x))) {x : α} {n : Nat}
    (h : I.SettlesAfter x n) (count : Nat) :
    ReportingLoop pass report count x
      ((List.range' 1 (n + 1)).map fun i => report (count + i) (I.step^[i] x) (decide (i < n + 1)))
      (I.step^[n + 1] x) := by
  induction n generalizing x count with
  | zero =>
      have hlast : pass x = (I.step x, false) := by
        rw [hpass, h.step_eq_iff.mpr rfl]
        simp
      exact .last hlast
  | succ n ih =>
      have hagain : pass x = (I.step x, true) := by
        rw [hpass, decide_eq_true (h.step_eq_iff.not.mpr n.succ_ne_zero)]
      have hrest := ih h.pred (count + 1)
      have hreports : ((List.range' 1 (n + 1 + 1)).map fun i =>
            report (count + i) (I.step^[i] x) (decide (i < n + 1 + 1))) =
          report (count + 1) (I.step x) true :: (List.range' 1 (n + 1)).map fun i =>
            report (count + 1 + i) (I.step^[i] (I.step x)) (decide (i < n + 1)) := by
        rw [List.range'_succ (n := n + 1), List.map_cons, ← List.map_add_range', List.map_map]
        refine congrArg₂ _ (by simp) (List.map_congr_left fun i _ => ?_)
        have hbound : decide (1 + i < n + 1 + 1) = decide (i < n + 1) :=
          decide_eq_decide.mpr (by omega)
        rw [Function.comp_apply, hbound, ← Nat.add_assoc, Nat.add_comm 1 i,
          Function.iterate_succ_apply]
      rw [hreports]
      exact .again hagain hrest

/-- Such a loop comes to an end, in one way, and nothing is changed by its last pass. -/
theorem iff_of_settlesAfter [DecidableEq α] {I : Improvement α}
    (hpass : ∀ x, pass x = (I.step x, decide (I.step x ≠ x))) {x y : α} {n : Nat}
    (h : I.SettlesAfter x n) {reports : List ρ} :
    ReportingLoop pass report 0 x reports y ↔
      reports = (List.range' 1 (n + 1)).map (fun i =>
        report i (I.step^[i] x) (decide (i < n + 1))) ∧ y = I.step^[n] x := by
  have hloop : ReportingLoop pass report 0 x ((List.range' 1 (n + 1)).map fun i =>
      report (0 + i) (I.step^[i] x) (decide (i < n + 1))) (I.step^[n + 1] x) :=
    of_settlesAfter hpass h 0
  simp only [Nat.zero_add] at hloop
  rw [h.settled] at hloop
  constructor
  · exact hloop.unique
  · rintro ⟨rfl, rfl⟩
    exact hloop

end ReportingLoop

end

/-!
The passes with a flag against those without. Taking the entries of a row over one at a time comes
to the same as joining the whole row, because the row that is read is not the one that is written;
and passing over what is known already comes to the same as adding it once more. In both cases a
flag is raised for every single change, so it tells in the end whether the pass changed anything.
-/

namespace BoolMatrix

variable {n : Nat}

theorem Within.antisymm {M N : BoolMatrix n} (hMN : M.Within N) (hNM : N.Within M) : M = N :=
  ext_holds fun i k => Bool.eq_iff_iff.mpr ⟨hMN i k, hNM i k⟩

theorem holds_setEntry (M : BoolMatrix n) (i k a c : Fin n) :
    (M.setEntry i k).holds a c = (M.holds a c || (decide (a = i) && decide (c = k))) := by
  unfold setEntry
  by_cases ha : a = i
  · subst ha
    by_cases hc : c = k
    · subst hc
      simp [holds]
    · have : k.val ≠ c.val := fun h => hc (Fin.ext h.symm)
      simp [holds, this, hc]
  · have : i.val ≠ a.val := fun h => ha (Fin.ext h.symm)
    simp [holds, this, ha]

theorem setEntry_of_holds {M : BoolMatrix n} {i k : Fin n} (h : M.holds i k = true) :
    M.setEntry i k = M := by
  refine ext_holds fun a c => ?_
  rw [holds_setEntry]
  by_cases hac : a = i ∧ c = k
  · rw [hac.1, hac.2, h, Bool.true_or]
  · rw [← Bool.decide_and, decide_eq_false hac, Bool.or_false]

/-- Sets the entry of row `i` at `k`, if row `j` has one there. -/
def joinEntry (i j : Fin n) (M : BoolMatrix n) (k : Fin n) : BoolMatrix n :=
  if M.holds j k then M.setEntry i k else M

theorem holds_joinEntry (M : BoolMatrix n) (i j k a c : Fin n) :
    (M.joinEntry i j k).holds a c =
      (M.holds a c || (decide (a = i) && decide (c = k) && M.holds j k)) := by
  unfold joinEntry
  split
  next h => rw [holds_setEntry, h, Bool.and_true]
  next h => rw [Bool.eq_false_iff.mpr h, Bool.and_false, Bool.or_false]

theorem within_joinEntry (i j : Fin n) (M : BoolMatrix n) (k : Fin n) :
    M.Within (joinEntry i j M k) := by
  intro a c h
  rw [holds_joinEntry, h, Bool.true_or]

theorem flags_takeEntry (i j k : Fin n) : Flags (joinEntry i j · k) (takeEntry i j · k) := by
  intro M raised
  unfold takeEntry joinEntry
  cases hjk : M.holds j k with
  | false => simp [hjk]
  | true =>
      cases hik : M.holds i k with
      | true => simp [hjk, hik, setEntry_of_holds hik]
      | false =>
          have hset : (M.setEntry i k).holds i k = true := by simp [holds_setEntry]
          have hdiffer : M.setEntry i k ≠ M := by
            intro hsame
            rw [hsame, hik] at hset
            exact Bool.false_ne_true hset
          simp [hjk, hik, hdiffer]

/-- The row that is read stays as it is, since another one is written. -/
theorem holds_foldl_joinEntry {i j : Fin n} (hij : i ≠ j) (ks : List (Fin n)) (M : BoolMatrix n)
    (a c : Fin n) : (ks.foldl (joinEntry i j) M).holds a c =
      (M.holds a c || (decide (a = i) && decide (c ∈ ks) && M.holds j c)) := by
  induction ks generalizing M with
  | nil => simp
  | cons k ks ih =>
      have hread : (M.joinEntry i j k).holds j c = M.holds j c := by
        rw [holds_joinEntry, decide_eq_false hij.symm, Bool.false_and, Bool.false_and,
          Bool.or_false]
      rw [List.foldl_cons, ih, hread, holds_joinEntry]
      by_cases ha : a = i
      · by_cases hck : c = k
        · subst hck
          cases M.holds j c <;> simp [ha]
        · simp [hck]
      · simp [ha]

theorem foldl_joinEntry_eq_relax {i j : Fin n} (hij : i ≠ j) {M : BoolMatrix n}
    (h : M.holds i j = true) : (List.finRange n).foldl (joinEntry i j) M = M.relax i j := by
  refine ext_holds fun a c => ?_
  rw [holds_foldl_joinEntry hij, holds_relax]
  simp [hij, h, List.mem_finRange]

theorem flags_takeRow (i j : Fin n) : Flags (relax · i j) (takeRow i · j) := by
  intro M raised
  by_cases hskip : i = j ∨ M.holds i j = false
  · have hsame : M.relax i j = M := if_neg fun h => hskip.elim h.1 (by simp [h.2])
    simp [takeRow, hskip, hsame]
  · obtain ⟨hij, hentry⟩ := not_or.mp hskip
    have hrelax := foldl_joinEntry_eq_relax hij (Bool.eq_true_of_not_eq_false hentry)
    have hentries : (List.finRange n).foldl (takeEntry i j) (M, raised) = _ :=
      Flags.foldl Within (fun _ _ _ h => h) Within.trans Within.antisymm (within_joinEntry i j)
        (flags_takeEntry i j) (List.finRange n) M raised
    beta_reduce at hentries
    rw [hrelax] at hentries
    exact (if_neg hskip).trans hentries

/-- A pass that goes entry by entry is a pass, and its flag tells whether it changed anything. -/
theorem relaxEntries_eq (M : BoolMatrix n) :
    M.relaxEntries = (M.relaxAll, decide (M.relaxAll ≠ M)) := by
  have hrow (i : Fin n) : Flags (relaxRow · i) ((List.finRange n).foldl (takeRow i) ·) :=
    Flags.foldl Within (fun _ _ _ h => h) Within.trans Within.antisymm
      (fun M j => within_relax M i j) (flags_takeRow i) (List.finRange n)
  exact Flags.foldl Within (fun _ _ _ h => h) Within.trans Within.antisymm within_relaxRow hrow
    (List.finRange n) M false

end BoolMatrix

namespace Grammar

theorem flags_noteFound (G : Grammar) (n : String) :
    Flags (G.noteNullable · n) (G.noteFound · n) := by
  intro known raised
  unfold noteFound noteNullable
  by_cases hknown : .nonterminal n ∈ known
  · have hinsert : known.insert (.nonterminal n) = known :=
      SortedSet.ext fun s => by simpa using fun hs : s = _ => hs ▸ hknown
    simp [hknown, hinsert]
  · by_cases hside : G.hasVanishingSide known (.nonterminal n) = true
    · have hdiffer : known.insert (.nonterminal n) ≠ known := by
        intro hsame
        rw [← hsame] at hknown
        simp at hknown
      simp [hknown, hside, hdiffer]
    · simp [hknown, hside]

/-- The search passes over what is known already, and its flag tells whether it found anything. -/
theorem searchNullable_eq (G : Grammar) (known : SortedSet Symbol) :
    G.searchNullable known = (G.nullablePass known, decide (G.nullablePass known ≠ known)) :=
  Flags.foldl (· ⊆ ·) (fun _ _ h => h) (fun hxy hyz s hs => hyz s (hxy s hs))
    (fun hxy hyx => SortedSet.ext fun s => ⟨hxy s, hyx s⟩) (fun _ _ _ h => mem_noteNullable h)
    G.flags_noteFound G.nonterminals.toList known false

end Grammar

end FormalLanguage
