import FormalLanguage.Iteration.Passes

/-!
Closing a relation on numbered elements under composition. The relation is a square matrix of
truth values that is updated in place: wherever row `i` has an entry at `j`, it takes over all
entries of row `j`. Passes over the matrix are repeated until one changes nothing.
-/

namespace FormalLanguage

/-- A relation on the numbers below `n`, row by row. -/
abbrev BoolMatrix (n : Nat) := Vector (Vector Bool n) n

namespace BoolMatrix

variable {n : Nat}

/-- Whether the relation holds from the first number to the second. -/
def holds (M : BoolMatrix n) (i k : Fin n) : Bool := M[i][k]

/-- The matrix of a relation given as a predicate. -/
def ofPredicate (related : Fin n → Fin n → Bool) : BoolMatrix n :=
  Vector.ofFn fun i => Vector.ofFn (related i)

/-- The matrix with one more entry. -/
def setEntry (M : BoolMatrix n) (i k : Fin n) : BoolMatrix n := M.set i (M[i].set k true)

/-- The matrix with the entries of row `j` added to those of row `i`, if `i` has an entry at
`j`. -/
def relax (M : BoolMatrix n) (i j : Fin n) : BoolMatrix n :=
  if i ≠ j ∧ M.holds i j = true then M.set i (Vector.zipWith (· || ·) M[i] M[j]) else M

/-- One pass: every row in turn takes over the rows that it has entries for, also those entries
that were added during the pass. -/
def relaxAll (M : BoolMatrix n) : BoolMatrix n :=
  (List.finRange n).foldl (fun M i => (List.finRange n).foldl (fun M j => relax M i j) M) M

def cells (n : Nat) : List (Fin n × Fin n) :=
  (List.finRange n).flatMap fun i => (List.finRange n).map fun k => (i, k)

@[simp] theorem mem_cells (i k : Fin n) : (i, k) ∈ cells n := by
  simp [cells, List.mem_flatMap, List.mem_finRange]

/-- How many pairs are related. -/
def size (M : BoolMatrix n) : Nat := (cells n).countP fun cell => M.holds cell.1 cell.2

/-- How many pairs are not related. -/
def room (M : BoolMatrix n) : Nat := (cells n).countP fun cell => !M.holds cell.1 cell.2

theorem ext_holds {M N : BoolMatrix n} (h : ∀ i k, M.holds i k = N.holds i k) : M = N :=
  Vector.ext fun i hi => Vector.ext fun k hk => h ⟨i, hi⟩ ⟨k, hk⟩

theorem holds_relax (M : BoolMatrix n) (i j a k : Fin n) :
    (M.relax i j).holds a k =
      (M.holds a k || (decide (a = i) && decide (i ≠ j) && M.holds i j && M.holds j k)) := by
  unfold relax
  split
  next h =>
    by_cases ha : a = i
    · subst ha
      have hj : M[a.val][j.val] = true := h.2
      simp [holds, h.1, hj]
    · have : i.val ≠ a.val := fun h => ha (Fin.ext h.symm)
      simp [holds, this, ha]
  next h =>
    by_cases hij : i = j
    · simp [hij]
    · have : M.holds i j = false := by simpa [hij] using h
      simp [this]

/-- Every entry of the first matrix is an entry of the second. -/
def Within (M N : BoolMatrix n) : Prop := ∀ i k, M.holds i k = true → N.holds i k = true

theorem Within.trans {L M N : BoolMatrix n} (hLM : L.Within M) (hMN : M.Within N) :
    L.Within N := fun i k h => hMN i k (hLM i k h)

theorem within_relax (M : BoolMatrix n) (i j : Fin n) : M.Within (M.relax i j) := by
  intro a k h
  rw [holds_relax, h, Bool.true_or]

/-- One row of a pass. -/
def relaxRow (M : BoolMatrix n) (i : Fin n) : BoolMatrix n :=
  (List.finRange n).foldl (fun M j => relax M i j) M

theorem within_relaxRow (M : BoolMatrix n) (i : Fin n) : M.Within (M.relaxRow i) :=
  (foldl_takes_steps Within (fun _ _ _ h => h) Within.trans (fun M j => relax M i j)
    (fun M j => within_relax M i j) _ M).1

theorem within_relaxAll (M : BoolMatrix n) : M.Within M.relaxAll :=
  (foldl_takes_steps Within (fun _ _ _ h => h) Within.trans relaxRow within_relaxRow _ M).1

/-- No entry is ever cleared. -/
theorem holds_relaxAll_of_holds {M : BoolMatrix n} {a k : Fin n} (h : M.holds a k = true) :
    M.relaxAll.holds a k = true := within_relaxAll M a k h

theorem room_relaxAll_lt {M : BoolMatrix n} (h : M.relaxAll ≠ M) : M.relaxAll.room < M.room := by
  have differ : ∃ a k, M.holds a k = false ∧ M.relaxAll.holds a k = true := by
    refine Classical.byContradiction fun none => h (ext_holds fun a k => ?_)
    cases hm : M.holds a k with
    | true => exact holds_relaxAll_of_holds hm
    | false =>
        cases hr : M.relaxAll.holds a k with
        | false => rfl
        | true => exact absurd ⟨a, k, hm, hr⟩ none
  obtain ⟨a, k, hm, hr⟩ := differ
  refine countP_lt_countP (fun cell _ hc => ?_) (mem_cells a k) (by simpa using hm)
    (by simpa using hr)
  cases hcell : M.holds cell.1 cell.2 with
  | false => rfl
  | true => rw [holds_relaxAll_of_holds hcell] at hc; exact hc

/-- A pass as a step towards the closure. -/
def relaxation (n : Nat) : Improvement (BoolMatrix n) where
  step := relaxAll
  room := room
  room_lt _ := room_relaxAll_lt

/-- The closure of the relation under composition. -/
def close (M : BoolMatrix n) : BoolMatrix n := (relaxation n).settle M

/-- How many passes the closure takes, the last of which finds nothing to change. -/
def passCount (M : BoolMatrix n) : Nat := ((relaxation n).passes M).length

/-!
Closing a matrix entry by entry. Where row `i` has an entry at `j`, the entries of row `j` are gone
through one at a time, and each one that row `i` lacks is set there at once; a flag is raised
whenever an entry is set. That a pass in this way comes to the same as one that joins whole rows is
a theorem about it.
-/

/-- Takes the entry of row `j` at `k` over into row `i`, if it is missing there. -/
def takeEntry (i j : Fin n) (seen : BoolMatrix n × Bool) (k : Fin n) : BoolMatrix n × Bool :=
  if seen.1.holds j k && !seen.1.holds i k then (seen.1.setEntry i k, true) else seen

/-- Takes all entries of row `j` over into row `i`, if row `i` has an entry at `j`. -/
def takeRow (i : Fin n) (seen : BoolMatrix n × Bool) (j : Fin n) : BoolMatrix n × Bool :=
  if i = j ∨ seen.1.holds i j = false then seen else (List.finRange n).foldl (takeEntry i j) seen

/-- One pass, and whether it set any entry. -/
def relaxEntries (M : BoolMatrix n) : BoolMatrix n × Bool :=
  (List.finRange n).foldl (fun seen i => (List.finRange n).foldl (takeRow i) seen) (M, false)

end BoolMatrix

end FormalLanguage
