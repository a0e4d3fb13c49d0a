import FormalLanguage.Iteration.Relaxation
import Mathlib.Logic.Relation

/-!
Relaxing a matrix in place computes the transitive closure. Rows change while they are read, so a
pass may already use entries of its own; these entries are paths of the matrix all the same. On
the other hand no entry is lost during a pass, so each pair of adjoining entries that a pass starts
with is joined by the end of it, and a matrix that a pass leaves unchanged is transitive.
-/

namespace FormalLanguage

namespace BoolMatrix

variable {n : Nat}

theorem holds_relax_of_holds {M : BoolMatrix n} {i j k : Fin n} (hij : M.holds i j = true)
    (hjk : M.holds j k = true) : (M.relax i j).holds i k = true := by
  rw [holds_relax]
  by_cases hne : i = j
  · rw [hne, hjk, Bool.true_or]
  · simp [hne, hij, hjk]

/-- A row takes each of its cells on a matrix that holds all that was there before. -/
private theorem relaxRow_takes_cell (M : BoolMatrix n) (i j : Fin n) :
    ∃ L : BoolMatrix n, M.Within L ∧ (L.relax i j).Within (M.relaxRow i) :=
  (foldl_takes_steps Within (fun _ _ _ h => h) Within.trans (fun M j => relax M i j)
    (fun M j => within_relax M i j) _ M).2 j (List.mem_finRange j)

private theorem relaxAll_takes_row (M : BoolMatrix n) (i : Fin n) :
    ∃ N : BoolMatrix n, M.Within N ∧ (N.relaxRow i).Within M.relaxAll :=
  (foldl_takes_steps Within (fun _ _ _ h => h) Within.trans relaxRow within_relaxRow _ M).2 i
    (List.mem_finRange i)

/-- A pass joins every two entries that meet. -/
theorem holds_relaxAll_of_meet {M : BoolMatrix n} {i j k : Fin n} (hij : M.holds i j = true)
    (hjk : M.holds j k = true) : M.relaxAll.holds i k = true := by
  obtain ⟨N, hN, hrow⟩ := relaxAll_takes_row M i
  obtain ⟨L, hL, hcell⟩ := relaxRow_takes_cell N i j
  have hM : M.Within L := hN.trans hL
  have hjoined : (L.relax i j).holds i k = true :=
    holds_relax_of_holds (hM i j hij) (hM j k hjk)
  exact hrow i k (hcell i k hjoined)

/-- Every entry stands for a path of a relation. -/
def PathsOf (r : Fin n → Fin n → Prop) (M : BoolMatrix n) : Prop :=
  ∀ i k, M.holds i k = true → Relation.TransGen r i k

theorem PathsOf.relax {r : Fin n → Fin n → Prop} {M : BoolMatrix n} (h : PathsOf r M)
    (i j : Fin n) : PathsOf r (M.relax i j) := by
  intro a k hentry
  rw [holds_relax] at hentry
  simp only [Bool.or_eq_true, Bool.and_eq_true, decide_eq_true_eq] at hentry
  rcases hentry with hold | ⟨⟨⟨rfl, _⟩, hij⟩, hjk⟩
  · exact h a k hold
  · exact (h a j hij).trans (h j k hjk)

theorem PathsOf.relaxAll {r : Fin n → Fin n → Prop} {M : BoolMatrix n} (h : PathsOf r M) :
    PathsOf r M.relaxAll := by
  refine List.foldlRecOn (motive := PathsOf r) (List.finRange n) _ h ?_
  intro N hN i _
  refine List.foldlRecOn (motive := PathsOf r) (List.finRange n) _ hN ?_
  intro L hL j _
  exact hL.relax i j

/-- The closure of a matrix relates exactly the numbers that a path of entries joins. -/
theorem holds_close_iff (M : BoolMatrix n) (i k : Fin n) :
    M.close.holds i k = true ↔ Relation.TransGen (fun a b => M.holds a b = true) i k := by
  constructor
  · have hpaths : PathsOf (fun a b => M.holds a b = true) M.close :=
      (relaxation n).settle_induction (fun _ hN => hN.relaxAll) M fun _ _ h => .single h
    exact hpaths i k
  · intro hpath
    have hkeeps : M.Within M.close := (relaxation n).settle_induction
      (fun _ hN i k h => holds_relaxAll_of_holds (hN i k h)) M fun _ _ h => h
    have hfixed : M.close.relaxAll = M.close := (relaxation n).step_settle M
    induction hpath with
    | single hstep => exact hkeeps _ _ hstep
    | tail _ hstep ih =>
        have hjoined := holds_relaxAll_of_meet ih (hkeeps _ _ hstep)
        rwa [hfixed] at hjoined

end BoolMatrix

/-!
Walks along a relation, counted by their steps. A walk can be cut behind any number of its steps,
and walks that meet can be put together.
-/

variable {α : Type} {r : α → α → Prop} {x y z : α} {m n : Nat}

/-- A walk of so many steps along a relation. -/
inductive Walk (r : α → α → Prop) : Nat → α → α → Prop
  | stay (x : α) : Walk r 0 x x
  | step {x y z : α} {m : Nat} : r x y → Walk r m y z → Walk r (m + 1) x z

namespace Walk

theorem append (hxy : Walk r m x y) (hyz : Walk r n y z) : Walk r (m + n) x z := by
  induction hxy with
  | stay => rwa [Nat.zero_add]
  | step hstep _ ih =>
      rw [Nat.add_right_comm]
      exact .step hstep (ih hyz)

theorem exists_cut (h : Walk r (m + n) x z) : ∃ y, Walk r m x y ∧ Walk r n y z := by
  induction m generalizing x with
  | zero =>
      rw [Nat.zero_add] at h
      exact ⟨x, .stay x, h⟩
  | succ m ih =>
      rw [Nat.add_right_comm] at h
      cases h with
      | step hstep hrest =>
          obtain ⟨y, hfront, hback⟩ := ih hrest
          exact ⟨y, .step hstep hfront, hback⟩

end Walk

end FormalLanguage
