/-!
A counting fact behind every search in this library: a predicate that fails on one more
element of a list holds of strictly fewer elements.
-/

namespace FormalLanguage

theorem countP_lt_countP {α : Type} {p q : α → Bool} {xs : List α} {y : α}
    (weaker : ∀ x ∈ xs, p x = true → q x = true) (hy : y ∈ xs) (hq : q y = true)
    (hp : p y = false) : xs.countP p < xs.countP q := by
  induction xs with
  | nil => cases hy
  | cons x xs ih =>
      have rest : xs.countP p ≤ xs.countP q :=
        List.countP_mono_left fun z hz => weaker z (List.mem_cons_of_mem _ hz)
      have here := weaker x (List.mem_cons_self ..)
      rw [List.countP_cons, List.countP_cons]
      rcases List.mem_cons.mp hy with rfl | hy
      · simp only [hp, hq]
        simp only [Bool.false_eq_true, if_false, if_true]
        omega
      · have := ih (fun z hz => weaker z (List.mem_cons_of_mem _ hz)) hy
        by_cases hx : p x = true
        · simp only [hx, here hx, if_true]
          omega
        · rw [if_neg hx]
          omega

/-!
Repeating a step until it changes nothing. Every value on the way is kept, since both the number
of passes and their intermediate results are part of what callers report.
-/

/-- A pass over a list whose steps all go upwards takes each of its steps from a value above the
first, and ends above what that step gives. -/
theorem foldl_takes_steps {α β : Type} (below : α → α → Prop) (hrefl : ∀ x, below x x)
    (htrans : ∀ {x y z}, below x y → below y z → below x z) (step : α → β → α)
    (hstep : ∀ x b, below x (step x b)) (bs : List β) (x : α) :
    below x (bs.foldl step x) ∧
      ∀ b ∈ bs, ∃ y, below x y ∧ below (step y b) (bs.foldl step x) := by
  induction bs generalizing x with
  | nil => exact ⟨hrefl x, fun _ h => nomatch h⟩
  | cons c bs ih =>
      obtain ⟨hkeeps, htakes⟩ := ih (step x c)
      refine ⟨htrans (hstep x c) hkeeps, ?_⟩
      intro b hb
      rcases List.mem_cons.mp hb with rfl | hb
      · exact ⟨x, hrefl x, hkeeps⟩
      · obtain ⟨y, hbefore, hafter⟩ := htakes b hb
        exact ⟨y, htrans (hstep x c) hbefore, hafter⟩

/-- A step with a count of the room left for change, which every step that changes its argument
uses up. -/
structure Improvement (α : Type) where
  step : α → α
  room : α → Nat
  room_lt : ∀ x, step x ≠ x → room (step x) < room x

namespace Improvement

variable {α : Type} [DecidableEq α]

/-- The value after each pass, from the first pass up to the first that changes nothing. -/
def passes (I : Improvement α) (x : α) : List α :=
  let y := I.step x
  if y = x then [y] else y :: passes I y
termination_by I.room x
decreasing_by exact I.room_lt x ‹_›

theorem passes_ne_nil (I : Improvement α) (x : α) : I.passes x ≠ [] := by
  unfold passes
  simp only
  split <;> exact List.cons_ne_nil _ _

/-- The value that the passes settle on. -/
def settle (I : Improvement α) (x : α) : α := (I.passes x).getLast (I.passes_ne_nil x)

theorem settle_eq (I : Improvement α) (x : α) :
    I.settle x = if I.step x = x then x else I.settle (I.step x) := by
  unfold settle
  split
  next h =>
    have single : I.passes x = [x] := by
      rw [passes]
      simp [h]
    simp [single]
  next h =>
    have cons : I.passes x = I.step x :: I.passes (I.step x) := by
      rw [passes]
      simp [h]
    simp only [cons]
    exact List.getLast_cons (I.passes_ne_nil _)

theorem step_settle (I : Improvement α) (x : α) : I.step (I.settle x) = I.settle x := by
  fun_induction I.passes x with
  | case1 x y h => rw [settle_eq, if_pos h]; exact h
  | case2 x y h ih => rw [settle_eq, if_neg h]; exact ih

/-- What every step preserves holds of the settled value if it holds of the first. -/
theorem settle_induction {P : α → Prop} (I : Improvement α) (hstep : ∀ x, P x → P (I.step x))
    (x : α) (hx : P x) : P (I.settle x) := by
  fun_induction I.passes x with
  | case1 x y h => rwa [settle_eq, if_pos h]
  | case2 x y h ih =>
      rw [settle_eq, if_neg h]
      exact ih (hstep x hx)

/-- Goes on with passes until one changes nothing, when some were made before. Behind the reports
that there are already comes one on each pass, with its number, what it led to and whether that was
a change. The value that the passes settle on is returned with the number of all passes. -/
def reporting {ρ : Type} (I : Improvement α) (report : Nat → α → Bool → ρ) (count : Nat) (x : α) :
    StateM (List ρ) (α × Nat) := do
  let y := I.step x
  modify (· ++ [report (count + 1) y (decide (y ≠ x))])
  if y = x then return (y, count + 1) else I.reporting report (count + 1) y
termination_by I.room x
decreasing_by exact I.room_lt x ‹_›

/-- The reports are on the passes, of which all but the last change something. -/
theorem run_reporting {ρ : Type} (I : Improvement α) (report : Nat → α → Bool → ρ) (count : Nat)
    (x : α) (earlier : List ρ) :
    (I.reporting report count x).run earlier =
      ((I.settle x, count + (I.passes x).length),
        earlier ++ ((I.passes x).zipIdx (count + 1)).map fun (y, i) =>
          report i y (decide (i < count + (I.passes x).length))) := by
  fun_induction I.passes x generalizing count earlier with
  | case1 x y h =>
      rw [reporting, settle_eq, if_pos h]
      simp [y, h]
      rfl
  | case2 x y h ih =>
      have hmore : 0 < (I.passes y).length := List.length_pos_iff.mpr (I.passes_ne_nil y)
      have hlength : count + 1 + (I.passes y).length = count + ((I.passes y).length + 1) := by
        omega
      have hrest := ih (count + 1) (earlier ++ [report (count + 1) y true])
      rw [hlength] at hrest
      rw [reporting, settle_eq, if_neg h]
      simpa [y, h, hmore] using hrest

end Improvement

/-!
Loops that report on their passes. A pass tells whether it changed anything; the loop counts its
passes, reports on each of them, and stops behind the first one that changed nothing. It need not
come to an end: that it does is a theorem about its passes.
-/

/-- A loop from a value on, when some passes were made before: the reports that it still gives and
where it ends. A report tells the number of the pass, what it led to and whether it changed
anything. -/
inductive ReportingLoop {α ρ : Type} (pass : α → α × Bool) (report : Nat → α → Bool → ρ) :
    Nat → α → List ρ → α → Prop
  | last {count : Nat} {x y : α} :
      pass x = (y, false) → ReportingLoop pass report count x [report (count + 1) y false] y
  | again {count : Nat} {x y z : α} {reports : List ρ} :
      pass x = (y, true) → ReportingLoop pass report (count + 1) y reports z →
      ReportingLoop pass report count x (report (count + 1) y true :: reports) z

end FormalLanguage
