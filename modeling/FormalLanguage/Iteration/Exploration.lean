import FormalLanguage.Iteration.Passes

/-!
Exploring a graph from a stack of vertices: the vertex on top is visited and those of its
successors that were not met before go on top of the stack, the last of them uppermost. The
order of discovery numbers the vertices, and the order of visits tells how the search went.
-/
namespace FormalLanguage

/-- A graph given by its successor function, with a finite list that holds every successor. The
list is only ever consulted by proofs, so it is passed as a function and never computed. -/
structure FiniteGraph (α : Type) where
  next : α → List α
  vertices : Unit → List α
  next_mem : ∀ {x y : α}, y ∈ next x → y ∈ vertices ()

/-- What a search has met, in the order of discovery, and what it visited, in that order. -/
structure Exploration (α : Type) where
  found : List α
  visited : List α

variable {α : Type} [DecidableEq α]

/-- The values of a list that are not known yet, each at its first occurrence. -/
def newcomers (known : List α) : List α → List α
  | [] => []
  | y :: ys => if y ∈ known then newcomers known ys else y :: newcomers (y :: known) ys

@[simp] theorem mem_newcomers {known ys : List α} {x : α} :
    x ∈ newcomers known ys ↔ x ∈ ys ∧ x ∉ known := by
  induction ys generalizing known with
  | nil => simp [newcomers]
  | cons y ys ih =>
      unfold newcomers
      split
      next hy =>
        rw [ih, List.mem_cons]
        constructor
        · exact fun ⟨h, hk⟩ => ⟨Or.inr h, hk⟩
        · rintro ⟨rfl | h, hk⟩
          · exact absurd hy hk
          · exact ⟨h, hk⟩
      next hy =>
        rw [List.mem_cons, ih, List.mem_cons, List.mem_cons, not_or]
        by_cases hx : x = y
        · subst hx
          simp [hy]
        · simp [hx]

theorem nodup_newcomers (known ys : List α) : (newcomers known ys).Nodup := by
  induction ys generalizing known with
  | nil => exact .nil
  | cons y ys ih =>
      unfold newcomers
      split
      · exact ih known
      · refine List.nodup_cons.mpr ⟨fun h => ?_, ih _⟩
        exact (mem_newcomers.mp h).2 (List.mem_cons_self ..)

/-- Only which values are known counts, not how they are listed. -/
theorem newcomers_congr {known known' : List α} (h : ∀ x, x ∈ known ↔ x ∈ known')
    (ys : List α) : newcomers known ys = newcomers known' ys := by
  induction ys generalizing known known' with
  | nil => rfl
  | cons y ys ih =>
      have hcons : ∀ x, x ∈ y :: known ↔ x ∈ y :: known' := fun x => by
        rw [List.mem_cons, List.mem_cons, h]
      simp only [newcomers, h y, ih h, ih hcons]

theorem newcomers_append (known xs ys : List α) :
    newcomers known (xs ++ ys) =
      newcomers known xs ++ newcomers (known ++ newcomers known xs) ys := by
  induction xs generalizing known with
  | nil => simp [newcomers]
  | cons x xs ih =>
      rw [List.cons_append, newcomers, newcomers]
      split
      next => exact ih known
      next =>
        have hknown : ∀ y, y ∈ x :: known ++ newcomers (x :: known) xs ↔
            y ∈ known ++ x :: newcomers (x :: known) xs :=
          fun y => List.perm_middle.symm.mem_iff
        rw [ih, newcomers_congr hknown, List.cons_append]

namespace FiniteGraph

/-- How many vertices are still to be met. -/
def unmet (G : FiniteGraph α) (found : List α) : Nat :=
  (G.vertices ()).countP fun x => decide (x ∉ found)

/-- Meeting new vertices uses up at least as many of those still to be met. -/
theorem unmet_append {G : FiniteGraph α} {found fresh : List α} (distinct : fresh.Nodup)
    (new : ∀ x ∈ fresh, x ∈ G.vertices () ∧ x ∉ found) :
    G.unmet (found ++ fresh) + fresh.length ≤ G.unmet found := by
  induction fresh generalizing found with
  | nil => simp
  | cons y ys ih =>
      obtain ⟨hy, distinct⟩ := List.nodup_cons.mp distinct
      have later := @ih (found ++ [y]) distinct fun x hx => by
        obtain ⟨hv, hf⟩ := new x (List.mem_cons_of_mem _ hx)
        refine ⟨hv, fun h => ?_⟩
        rcases List.mem_append.mp h with h | h
        · exact hf h
        · exact hy (List.mem_singleton.mp h ▸ hx)
      have now : G.unmet (found ++ [y]) < G.unmet found := by
        obtain ⟨hv, hf⟩ := new y (List.mem_cons_self ..)
        refine countP_lt_countP (fun x _ h => ?_) hv (by simpa using hf) (by simp)
        simp only [List.mem_append, not_or, decide_eq_true_eq] at h ⊢
        exact h.1
      rw [List.append_assoc, List.singleton_append] at later
      rw [List.length_cons]
      omega

/-- Visits everything that can be reached from the pending vertices without passing through a
vertex already found. Each round either shortens the stack or meets new vertices, and there are
only finitely many of these. -/
def explore (G : FiniteGraph α) (found : List α) : (pending : List α) → Exploration α
  | [] => ⟨found, []⟩
  | x :: rest =>
      let fresh := newcomers found (G.next x)
      let later := explore G (found ++ fresh) (fresh.reverse ++ rest)
      ⟨later.found, x :: later.visited⟩
termination_by pending => G.unmet found + pending.length
decreasing_by
  have := unmet_append (G := G) (nodup_newcomers found (G.next x)) fun y hy =>
    ⟨G.next_mem (mem_newcomers.mp hy).1, (mem_newcomers.mp hy).2⟩
  simp only [List.length_append, List.length_reverse, List.length_cons]
  omega

theorem explore_nil (G : FiniteGraph α) (found : List α) : G.explore found [] = ⟨found, []⟩ := by
  rw [explore]

theorem explore_cons (G : FiniteGraph α) (found rest : List α) (x : α) :
    G.explore found (x :: rest) =
      let fresh := newcomers found (G.next x)
      let later := G.explore (found ++ fresh) (fresh.reverse ++ rest)
      ⟨later.found, x :: later.visited⟩ := by
  rw [explore]

/-- A search finds nothing but what it was given and vertices of the graph. -/
theorem found_explore_subset (G : FiniteGraph α) (found pending : List α) :
    ∀ x ∈ (G.explore found pending).found, x ∈ found ∨ x ∈ G.vertices () := by
  fun_induction G.explore found pending with
  | case1 found => exact fun x hx => Or.inl hx
  | case2 found x rest fresh later ih =>
      intro y hy
      rcases ih y hy with h | h
      · rcases List.mem_append.mp h with h | h
        · exact Or.inl h
        · exact Or.inr (G.next_mem (mem_newcomers.mp h).1)
      · exact Or.inr h

end FiniteGraph

end FormalLanguage
