import FormalLanguage.Proofs.Configurations
import Mathlib.Order.Bounds.Basic

/-!
Maximal munch. A scanner that reads on until no state is left, and remembers where it last could
have stopped, finds the longest accepted beginning of a text. What it finds behind the first letter
is one letter short of the answer for the whole word, and where it gives up no longer beginning
could have been accepted.
-/

namespace FormalLanguage

theorem Word.length_ofText (text : String) : (Word.ofText text).length = text.length := by
  rw [Word.ofText, List.length_map, String.length_toList]

/-- An answer names the greatest of some lengths, or says that there are none. -/
def NamesGreatest (lengths : Set Nat) : Option Nat → Prop
  | some n => IsGreatest lengths n
  | none => lengths = ∅

namespace NamesGreatest

variable {lengths : Set Nat} {answer : Option Nat}

theorem eq_some_iff (h : NamesGreatest lengths answer) (n : Nat) :
    answer = some n ↔ IsGreatest lengths n := by
  cases answer with
  | some m =>
      constructor
      · rintro ⟨⟩
        exact h
      · intro hn
        rw [IsGreatest.unique h hn]
  | none =>
      have hempty : lengths = ∅ := h
      simp [hempty, IsGreatest]

theorem eq_none_iff (h : NamesGreatest lengths answer) : answer = none ↔ lengths = ∅ := by
  cases answer with
  | some m =>
      have hm : m ∈ lengths := h.1
      simp [Set.nonempty_iff_ne_empty.mp ⟨m, hm⟩]
  | none => exact iff_of_true rfl h

end NamesGreatest

namespace Automaton

variable {A : Automaton} {states : Configuration} {a : Letter} {w : Word} {n : Nat}

/-- The lengths of the beginnings of a word that lead from a configuration to an accepting one. -/
def acceptedLengths (A : Automaton) (states : Configuration) (w : Word) : Set Nat :=
  {n | n ≤ w.length ∧ A.isAccepting (A.runFrom states (w.take n)) = true}

theorem zero_mem_acceptedLengths :
    0 ∈ A.acceptedLengths states w ↔ A.isAccepting states = true := by
  simp [acceptedLengths, runFrom]

theorem succ_mem_acceptedLengths_cons :
    n + 1 ∈ A.acceptedLengths states (a :: w) ↔
      n ∈ A.acceptedLengths (A.relation.successor states a) w := by
  simp [acceptedLengths, runFrom_eq_foldl]

theorem longestFrom_empty (A : Automaton) (w : Word) : A.longestFrom ∅ w = none := by
  cases w with
  | nil => rfl
  | cons a w =>
      rw [longestFrom, A.relation.successor_empty]
      rfl

/-- Giving up where no state is left changes nothing: what could be found behind the letter comes
first, and stopping at once is what remains. -/
theorem longestFrom_cons (A : Automaton) (states : Configuration) (a : Letter) (w : Word) :
    A.longestFrom states (a :: w) =
      ((A.longestFrom (A.relation.successor states a) w).map (· + 1)).or
        (if A.isAccepting states then some 0 else none) := by
  rw [longestFrom]
  split
  next hempty =>
    rw [SortedSet.isEmpty_iff.mp hempty, longestFrom_empty]
    rfl
  next => rfl

/-- Where only the empty beginning is left to accept, the configuration itself decides. -/
theorem namesGreatest_of_forall_eq_zero (hzero : ∀ m ∈ A.acceptedLengths states w, m = 0) :
    NamesGreatest (A.acceptedLengths states w)
      (if A.isAccepting states then some 0 else none) := by
  split
  next haccepting =>
    have hmem : 0 ∈ A.acceptedLengths states w := zero_mem_acceptedLengths.mpr haccepting
    exact ⟨hmem, fun m hm => (hzero m hm).le⟩
  next hrejecting =>
    apply Set.eq_empty_of_forall_notMem
    intro m hm
    obtain rfl := hzero m hm
    exact hrejecting (zero_mem_acceptedLengths.mp hm)

theorem namesGreatest_longestFrom (A : Automaton) (states : Configuration) (w : Word) :
    NamesGreatest (A.acceptedLengths states w) (A.longestFrom states w) := by
  induction w generalizing states with
  | nil =>
      apply namesGreatest_of_forall_eq_zero
      intro m hm
      exact Nat.le_zero.mp hm.1
  | cons a w ih =>
      have hrest := ih (A.relation.successor states a)
      rw [longestFrom_cons]
      cases hfound : A.longestFrom (A.relation.successor states a) w with
      | some k =>
          rw [hfound] at hrest
          refine ⟨succ_mem_acceptedLengths_cons.mpr hrest.1, ?_⟩
          intro m hm
          cases m with
          | zero => exact Nat.zero_le _
          | succ m => exact Nat.succ_le_succ (hrest.2 (succ_mem_acceptedLengths_cons.mp hm))
      | none =>
          rw [hfound] at hrest
          have hnone : A.acceptedLengths (A.relation.successor states a) w = ∅ := hrest
          apply namesGreatest_of_forall_eq_zero
          intro m hm
          cases m with
          | zero => rfl
          | succ m =>
              have hlater := succ_mem_acceptedLengths_cons.mp hm
              rw [hnone] at hlater
              exact absurd hlater (Set.notMem_empty m)

/-- The longest match of a text has the greatest number of leading characters, none and all of them
included, that the automaton accepts as one word; there is no match only if it accepts no beginning
at all. So a match covers the whole text exactly when the text is accepted. -/
theorem longestAccepted_isGreatest (A : Automaton) (text : String) :
    (∀ n, A.longestAccepted text = some n ↔
      IsGreatest {n | n ≤ text.length ∧ A.accepts ((Word.ofText text).take n) = true} n) ∧
    (A.longestAccepted text = none ↔
      ∀ n ≤ text.length, A.accepts ((Word.ofText text).take n) = false) ∧
    (A.longestAccepted text = some text.length ↔ A.acceptsText text = true) := by
  have hlengths : A.acceptedLengths A.initial (Word.ofText text) =
      {n | n ≤ text.length ∧ A.accepts ((Word.ofText text).take n) = true} := by
    rw [acceptedLengths, Word.length_ofText]
    rfl
  have hnames := A.namesGreatest_longestFrom A.initial (Word.ofText text)
  rw [hlengths] at hnames
  refine ⟨hnames.eq_some_iff, ?_, ?_⟩
  · rw [longestAccepted, hnames.eq_none_iff, Set.eq_empty_iff_forall_notMem]
    simp
  · have hall : (Word.ofText text).take text.length = Word.ofText text :=
      List.take_of_length_le (Word.length_ofText text).le
    rw [longestAccepted, hnames.eq_some_iff, acceptsText]
    constructor
    · rintro ⟨⟨_, haccepts⟩, _⟩
      rwa [hall] at haccepts
    · intro haccepts
      have hmem : A.accepts ((Word.ofText text).take text.length) = true := by rwa [hall]
      exact ⟨⟨le_rfl, hmem⟩, fun m hm => hm.1⟩

end Automaton

end FormalLanguage
