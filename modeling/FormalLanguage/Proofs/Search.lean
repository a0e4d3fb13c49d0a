import FormalLanguage.Iteration.Exploration
import Mathlib.Data.List.Forall2
import Mathlib.Logic.Relation

/-!
What a search over a finite graph finds. A search that starts with some vertices on its stack and
nothing else found meets exactly the vertices that can be reached from them, each of them once,
and visits each of them once. A vertex that was not given at the start is met as a successor of
one met earlier, so the order of discovery never runs ahead of the edges.

Everything follows from what one visit does: it keeps what was found, adds the new successors of
the vertex on top, and leaves just these on the stack in its place.
-/

namespace FormalLanguage

namespace FiniteGraph

variable {α : Type}

/-- The second vertex is a successor of the first. -/
def Adjacent (G : FiniteGraph α) (x y : α) : Prop := y ∈ G.next x

variable [DecidableEq α]

/-- A search only appends to what was found, and the vertices it visits are the pending ones
together with those it appended. -/
theorem explore_appends (G : FiniteGraph α) (found pending : List α) :
    ∃ met, (G.explore found pending).found = found ++ met ∧
      (G.explore found pending).visited.Perm (pending ++ met) := by
  fun_induction G.explore found pending with
  | case1 found => exact ⟨[], by simp, .refl _⟩
  | case2 found x rest fresh later ih =>
      obtain ⟨met, hfound, hvisited⟩ := ih
      refine ⟨fresh ++ met, by rw [hfound, List.append_assoc], ?_⟩
      rw [List.cons_append]
      refine List.Perm.cons x (hvisited.trans ?_)
      have hstack : (fresh.reverse ++ rest).Perm (rest ++ fresh) :=
        ((List.reverse_perm fresh).append_right rest).trans List.perm_append_comm
      rw [← List.append_assoc rest fresh met]
      exact hstack.append_right met

theorem nodup_found_explore (G : FiniteGraph α) (found pending : List α)
    (hfound : found.Nodup) : (G.explore found pending).found.Nodup := by
  fun_induction G.explore found pending with
  | case1 found => exact hfound
  | case2 found x rest fresh later ih =>
      apply ih
      refine List.nodup_append.mpr ⟨hfound, nodup_newcomers found (G.next x), ?_⟩
      intro y hold z hnew heq
      exact (mem_newcomers.mp hnew).2 (heq ▸ hold)

/-- Every vertex of a search was found before it started or is reached from a pending one. -/
theorem reachable_of_mem_explore (G : FiniteGraph α) (found pending : List α) (y : α)
    (hy : y ∈ (G.explore found pending).found) :
    y ∈ found ∨ ∃ x ∈ pending, Relation.ReflTransGen G.Adjacent x y := by
  fun_induction G.explore found pending with
  | case1 found => exact Or.inl hy
  | case2 found x rest fresh later ih =>
      have hfresh : ∀ z ∈ fresh, G.Adjacent x z := fun z hz => (mem_newcomers.mp hz).1
      rcases ih hy with hmem | ⟨z, hz, hreach⟩
      · rcases List.mem_append.mp hmem with hold | hnew
        · exact Or.inl hold
        · exact Or.inr ⟨x, by simp, .single (hfresh y hnew)⟩
      · rcases List.mem_append.mp hz with hnew | hrest
        · have hstep := hfresh z (List.mem_reverse.mp hnew)
          exact Or.inr ⟨x, by simp, .head hstep hreach⟩
        · exact Or.inr ⟨z, List.mem_cons_of_mem x hrest, hreach⟩

/-- No successor of a visited vertex is missed: those known already stay, the others are added
when the vertex is visited. -/
theorem next_found_of_visited (G : FiniteGraph α) (found pending : List α) (x y : α)
    (hx : x ∈ (G.explore found pending).visited) (hy : G.Adjacent x y) :
    y ∈ (G.explore found pending).found := by
  fun_induction G.explore found pending with
  | case1 found => cases hx
  | case2 found z rest fresh later ih =>
      rcases List.mem_cons.mp hx with rfl | hlater
      · have hmem : y ∈ found ++ fresh := by
          by_cases hknown : y ∈ found
          · exact List.mem_append_left fresh hknown
          · exact List.mem_append_right found (mem_newcomers.mpr ⟨hy, hknown⟩)
        obtain ⟨met, hfound, _⟩ :=
          explore_appends G (found ++ fresh) (fresh.reverse ++ rest)
        change y ∈ (G.explore (found ++ fresh) (fresh.reverse ++ rest)).found
        rw [hfound]
        exact List.mem_append_left met hmem
      · exact ih hlater

/-- A vertex that the search added is a successor of one discovered earlier, provided that
everything pending was found before. -/
theorem explore_discovered (G : FiniteGraph α) (found pending : List α)
    (hpending : ∀ x ∈ pending, x ∈ found) (i : Nat) (y : α)
    (hy : (G.explore found pending).found[i]? = some y) (hi : found.length ≤ i) :
    ∃ j < i, ∃ x, (G.explore found pending).found[j]? = some x ∧ G.Adjacent x y := by
  fun_induction G.explore found pending with
  | case1 found =>
      have hbound : i < found.length := (List.getElem?_eq_some_iff.mp hy).1
      omega
  | case2 found x rest fresh later ih =>
      by_cases hlong : (found ++ fresh).length ≤ i
      · refine ih ?_ hy hlong
        intro z hz
        rcases List.mem_append.mp hz with hnew | hrest
        · exact List.mem_append_right found (List.mem_reverse.mp hnew)
        · exact List.mem_append_left fresh (hpending z (List.mem_cons_of_mem x hrest))
      -- Otherwise `y` is one of the newcomers, and `x` was found before any of them.
      obtain ⟨met, hfound, _⟩ :=
        explore_appends G (found ++ fresh) (fresh.reverse ++ rest)
      change later.found = found ++ fresh ++ met at hfound
      have hfresh : y ∈ fresh := by
        change later.found[i]? = some y at hy
        rw [hfound, List.getElem?_append_left (by omega),
          List.getElem?_append_right hi] at hy
        exact List.mem_of_getElem? hy
      obtain ⟨j, hj, hx⟩ := List.getElem_of_mem (hpending x (by simp))
      refine ⟨j, by omega, x, ?_, (mem_newcomers.mp hfresh).1⟩
      change later.found[j]? = some x
      rw [hfound, List.append_assoc, List.getElem?_append_left hj,
        List.getElem?_eq_getElem hj, hx]

/-- A search whose stack holds the vertices found so far, in whatever order, visits what it
finds. -/
theorem visited_explore_perm (G : FiniteGraph α) {found pending : List α}
    (h : pending.Perm found) :
    (G.explore found pending).visited.Perm (G.explore found pending).found := by
  obtain ⟨met, hfound, hvisited⟩ := explore_appends G found pending
  rw [hfound]
  exact hvisited.trans (h.append_right met)

/-- Such a search finds exactly what can be reached from the vertices it starts with. -/
theorem mem_found_explore_iff (G : FiniteGraph α) {found pending : List α}
    (h : pending.Perm found) (y : α) :
    y ∈ (G.explore found pending).found ↔
      ∃ x ∈ found, Relation.ReflTransGen G.Adjacent x y := by
  constructor
  · intro hy
    rcases reachable_of_mem_explore G found pending y hy with hstart | ⟨x, hx, hreach⟩
    · exact ⟨y, hstart, .refl⟩
    · exact ⟨x, h.mem_iff.mp hx, hreach⟩
  · rintro ⟨x, hx, hreach⟩
    induction hreach with
    | refl =>
        obtain ⟨met, hfound, _⟩ := explore_appends G found pending
        rw [hfound]
        exact List.mem_append_left met hx
    | tail _ hstep ih =>
        have hvisited := (visited_explore_perm G h).mem_iff.mpr ih
        exact next_found_of_visited G found pending _ _ hvisited hstep

end FiniteGraph

/-!
Two searches side by side. When a relation pairs the vertices of two graphs one to one, and paired
vertices have successors that are paired in their order, searches from paired stacks meet and visit
paired vertices in the same order, and number them alike.
-/

variable {α β : Type} {R : α → β → Prop}

theorem map_eq_of_paired {γ : Type} {f : α → γ} {g : β → γ} {xs : List α} {ys : List β}
    (hlists : List.Forall₂ R xs ys) (hsame : ∀ x y, R x y → f x = g y) :
    xs.map f = ys.map g := by
  rw [← List.forall₂_eq_eq_eq, List.forall₂_map_left_iff, List.forall₂_map_right_iff]
  exact hlists.imp hsame

theorem any_eq_of_paired {p : α → Bool} {q : β → Bool} {xs : List α} {ys : List β}
    (hlists : List.Forall₂ R xs ys) (hsame : ∀ x y, R x y → p x = q y) : xs.any p = ys.any q := by
  induction hlists with
  | nil => rfl
  | cons hheads _ ih => rw [List.any_cons, List.any_cons, hsame _ _ hheads, ih]

variable [DecidableEq α] [DecidableEq β]

theorem idxOf_eq_of_paired (hunique : Relator.BiUnique R) {xs : List α} {ys : List β}
    (hlists : List.Forall₂ R xs ys) {x : α} {y : β} (hxy : R x y) :
    xs.idxOf x = ys.idxOf y := by
  induction hlists with
  | nil => rfl
  | @cons x' y' xs ys hheads _ ih =>
      have hsame : (x' == x) = (y' == y) := by
        rw [Bool.eq_iff_iff, beq_iff_eq, beq_iff_eq]
        exact Relator.rel_eq hunique hheads hxy
      rw [List.idxOf_cons, List.idxOf_cons, hsame, ih]

theorem newcomers_paired (hunique : Relator.BiUnique R) {known ys : List α}
    {known' ys' : List β} (hknown : List.Forall₂ R known known')
    (hys : List.Forall₂ R ys ys') :
    List.Forall₂ R (newcomers known ys) (newcomers known' ys') := by
  induction hys generalizing known known' with
  | nil => exact .nil
  | @cons y y' ys ys' hheads _ ih =>
      have hmem : y ∈ known ↔ y' ∈ known' := List.rel_mem hunique hheads hknown
      unfold newcomers
      by_cases hy : y ∈ known
      · rw [if_pos hy, if_pos (hmem.mp hy)]
        exact ih hknown
      · rw [if_neg hy, if_neg (mt hmem.mpr hy)]
        exact .cons hheads (ih (.cons hheads hknown))

namespace FiniteGraph

theorem explore_paired {G : FiniteGraph α} {H : FiniteGraph β} (hunique : Relator.BiUnique R)
    (hnext : ∀ x y, R x y → List.Forall₂ R (G.next x) (H.next y)) {found pending : List α}
    {found' pending' : List β} (hfound : List.Forall₂ R found found')
    (hpending : List.Forall₂ R pending pending') :
    List.Forall₂ R (G.explore found pending).found (H.explore found' pending').found ∧
      List.Forall₂ R (G.explore found pending).visited (H.explore found' pending').visited := by
  fun_induction G.explore found pending generalizing found' pending'
  case case1 found =>
    cases hpending
    rw [explore_nil]
    exact ⟨hfound, .nil⟩
  case case2 found x rest fresh later ih =>
    cases hpending with
    | @cons _ y _ rest' hxy hrest =>
        rw [explore_cons]
        have hfresh : List.Forall₂ R fresh (newcomers found' (H.next y)) :=
          newcomers_paired hunique hfound (hnext x y hxy)
        obtain ⟨hlater, hvisited⟩ := ih (List.rel_append hfound hfresh)
          (List.rel_append (List.rel_reverse hfresh) hrest)
        exact ⟨hlater, .cons hxy hvisited⟩

end FiniteGraph

end FormalLanguage
