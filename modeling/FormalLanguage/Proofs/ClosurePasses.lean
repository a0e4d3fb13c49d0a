import FormalLanguage.Proofs.FlaggedPasses
import FormalLanguage.Proofs.TransitiveClosure
import Mathlib.Data.Fintype.Card
import Mathlib.Data.Nat.Log
import Mathlib.Tactic

/-!
How many passes it takes to close a matrix. A pass joins every two entries that meet, so the walks
whose ends are related after it may have twice as many steps as before. Among `n` numbers no end is
farther away than `n` steps, since a longer walk comes to some number twice and can do without what
lies between. So after as many passes as it takes to double one step up to `n` steps there is
nothing left to change, and one more pass finds this out.
-/

namespace FormalLanguage

namespace Walk

variable {α : Type} {r : α → α → Prop} {x y : α} {m : Nat}

theorem exists_of_transGen (h : Relation.TransGen r x y) : ∃ m, 0 < m ∧ Walk r m x y := by
  induction h with
  | single hstep => exact ⟨1, Nat.one_pos, .step hstep (.stay _)⟩
  | tail _ hstep ih =>
      obtain ⟨m, _, hwalk⟩ := ih
      exact ⟨m + 1, m.succ_pos, hwalk.append (.step hstep (.stay _))⟩

/-- A walk of more steps than there are numbers comes to one of them twice, and so there is a
shorter one. -/
theorem exists_shorter {n : Nat} {r : Fin n → Fin n → Prop} {x y : Fin n} {m : Nat}
    (h : Walk r m x y) (hlong : n < m) : ∃ l, 0 < l ∧ l < m ∧ Walk r l x y := by
  have hcut : ∀ i : Fin m, ∃ z, Walk r (i + 1) x z ∧ Walk r (m - (i + 1)) z y := by
    intro i
    apply exists_cut
    rwa [Nat.add_sub_cancel' i.isLt]
  -- The walk stops behind each of its `m` steps, at too many places for them all to differ.
  choose stop hfront hback using hcut
  obtain ⟨i, j, hne, hsame⟩ := Fintype.exists_ne_map_eq_of_card_lt stop (by simpa using hlong)
  wlog hlt : i < j generalizing i j
  · exact this j i hne.symm hsame.symm (lt_of_le_of_ne (not_lt.mp hlt) hne.symm)
  have hij : (i : Nat) < j := hlt
  have hjm : (j : Nat) < m := j.isLt
  have hskip : Walk r (i + 1 + (m - (j + 1))) x y := (hfront i).append (hsame ▸ hback j)
  exact ⟨i + 1 + (m - (j + 1)), by omega, by omega, hskip⟩

/-- What can be reached among `n` numbers can be reached in at most `n` steps. -/
theorem exists_short {n : Nat} {r : Fin n → Fin n → Prop} {x y : Fin n} {m : Nat} (hm : 0 < m)
    (h : Walk r m x y) : ∃ l, 0 < l ∧ l ≤ n ∧ Walk r l x y := by
  induction m using Nat.strong_induction_on with
  | h m ih =>
      by_cases hlong : n < m
      · obtain ⟨l, hl, hshorter, hwalk⟩ := h.exists_shorter hlong
        exact ih l hshorter hl hwalk
      · exact ⟨m, hm, not_lt.mp hlong, h⟩

end Walk

namespace BoolMatrix

variable {n : Nat} {M : BoolMatrix n}

/-- The relation that the entries of a matrix stand for. -/
def Entry (M : BoolMatrix n) (i k : Fin n) : Prop := M.holds i k = true

theorem within_iterate (M : BoolMatrix n) (p : Nat) : M.Within (relaxAll^[p] M) := by
  induction p with
  | zero => exact fun _ _ h => h
  | succ p ih =>
      rw [Function.iterate_succ_apply']
      exact ih.trans (within_relaxAll _)

theorem pathsOf_iterate (M : BoolMatrix n) (p : Nat) : PathsOf M.Entry (relaxAll^[p] M) := by
  induction p with
  | zero => exact fun _ _ h => .single h
  | succ p ih =>
      rw [Function.iterate_succ_apply']
      exact ih.relaxAll

/-- After `p` passes the ends of all walks of up to `2 ^ p` steps are related. -/
theorem holds_iterate_of_walk {p m : Nat} {i k : Fin n} (hm : 0 < m) (hbound : m ≤ 2 ^ p)
    (h : Walk M.Entry m i k) : (relaxAll^[p] M).holds i k = true := by
  induction p generalizing m i k with
  | zero =>
      obtain rfl : m = 1 := by omega
      cases h with
      | step hstep hrest =>
          cases hrest
          exact hstep
  | succ p ih =>
      rw [Function.iterate_succ_apply']
      by_cases hshort : m ≤ 2 ^ p
      · exact holds_relaxAll_of_holds (ih hm hshort h)
      · -- The halves of the walk are covered already, and the pass joins their ends.
        obtain ⟨rest, rfl⟩ := Nat.exists_eq_add_of_lt (not_le.mp hshort)
        rw [Nat.add_assoc] at h
        obtain ⟨j, hfront, hback⟩ := h.exists_cut
        have hrest : rest + 1 ≤ 2 ^ p := by
          rw [pow_succ] at hbound
          omega
        exact holds_relaxAll_of_meet (ih (Nat.two_pow_pos p) le_rfl hfront)
          (ih rest.succ_pos hrest hback)

/-- After as many passes as it takes to double one step up to the size of the matrix, all walks are
covered. -/
theorem holds_iterate_clog_iff {p : Nat} (hp : Nat.clog 2 n ≤ p) (i k : Fin n) :
    (relaxAll^[p] M).holds i k = true ↔ Relation.TransGen M.Entry i k := by
  constructor
  · exact pathsOf_iterate M p i k
  · intro hpath
    obtain ⟨m, hm, hwalk⟩ := Walk.exists_of_transGen hpath
    obtain ⟨l, hl, hshort, hwalk⟩ := hwalk.exists_short hm
    have hbound : n ≤ 2 ^ p := (Nat.clog_le_iff_le_pow Nat.one_lt_two).mp hp
    exact holds_iterate_of_walk hl (hshort.trans hbound) hwalk

theorem settlesAfter_le_clog {m : Nat} (h : (relaxation n).SettlesAfter M m) :
    m ≤ Nat.clog 2 n := by
  by_contra hlate
  refine h.changing (Nat.clog 2 n) (not_le.mp hlate) (ext_holds fun i k => ?_)
  have hnow := holds_iterate_clog_iff (M := M) le_rfl i k
  have hnext := holds_iterate_clog_iff (M := M) (Nat.le_succ _) i k
  exact Bool.eq_iff_iff.mpr (hnext.trans hnow.symm)

/-- One row taken over by another loses nothing, and what it adds are paths if all entries are. -/
theorem takeRow_keeps {r : Fin n → Fin n → Prop} (N : BoolMatrix n) (raised : Bool) (i j : Fin n) :
    N.Within (takeRow i (N, raised) j).1 ∧
      (PathsOf r N → PathsOf r (takeRow i (N, raised) j).1) := by
  rw [show takeRow i (N, raised) j = _ from flags_takeRow i j N raised]
  exact ⟨within_relax N i j, fun h => h.relax i j⟩

/-- Closing a matrix entry by entry is exact and takes few passes. The loop comes to an end, in one
way only: with its `q` passes numbered from 1 and all of them but the last changing something, and
with the closure, which relates exactly the numbers that a path of entries joins. On the way no
entry is cleared and none is set without a path, neither by taking over one row nor by any number of
passes. After `p` passes all walks of up to `2 ^ p` steps are covered, though rows change while they
are read, and so `q` is at most one more than the binary logarithm of the size, rounded up, and is 1
for the empty matrix. -/
theorem close_exact (M : BoolMatrix n) :
    let q := M.passCount
    (∀ (reports : List (Nat × Bool)) (N : BoolMatrix n),
      ReportingLoop relaxEntries (fun pass _ changed => (pass, changed)) 0 M reports N ↔
        reports = (List.range' 1 q).map (fun i => (i, decide (i < q))) ∧ N = M.close) ∧
    (∀ i k, M.close.holds i k = true ↔ Relation.TransGen M.Entry i k) ∧
    (∀ (N : BoolMatrix n) (raised : Bool) (i j : Fin n),
      N.Within (takeRow i (N, raised) j).1 ∧
      (PathsOf M.Entry N → PathsOf M.Entry (takeRow i (N, raised) j).1)) ∧
    (∀ p, M.Within (relaxAll^[p] M) ∧ PathsOf M.Entry (relaxAll^[p] M)) ∧
    (∀ p m i k, 0 < m → m ≤ 2 ^ p → Walk M.Entry m i k → (relaxAll^[p] M).holds i k = true) ∧
    1 ≤ q ∧ q ≤ Nat.clog 2 n + 1 ∧ (n = 0 → q = 1) := by
  intro q
  obtain ⟨m, hm⟩ := (relaxation n).exists_settlesAfter M
  have hq : q = m + 1 := hm.length_passes
  have hbound : m ≤ Nat.clog 2 n := settlesAfter_le_clog hm
  refine ⟨?_, holds_close_iff M, fun N raised i j => takeRow_keeps N raised i j,
    fun p => ⟨within_iterate M p, pathsOf_iterate M p⟩, fun p m i k => holds_iterate_of_walk,
    by omega, by omega, ?_⟩
  · intro reports N
    rw [hq, show M.close = _ from hm.settle_eq]
    exact ReportingLoop.iff_of_settlesAfter relaxEntries_eq hm
  · rintro rfl
    rw [Nat.clog_zero_right] at hbound
    omega

/-- A ring of three numbers that is followed downwards, against the order of the rows and of the
entries in them. -/
def fallingRing : BoolMatrix 3 :=
  .ofPredicate fun i k => (i, k) ∈ [(0, 2), (2, 1), (1, 0)]

/-- The way around `fallingRing` is found by the second pass only, and a third one finds nothing to
change, which is as long as three numbers can take. The matrix without numbers is left after one
pass. -/
theorem close_exact_fallingRing :
    Walk fallingRing.Entry 3 0 0 ∧ (relaxAll^[2] fallingRing).holds 0 0 = true ∧
    PathsOf fallingRing.Entry fallingRing ∧
    PathsOf fallingRing.Entry (takeRow 0 (fallingRing, false) 2).1 ∧
    fallingRing.passCount ≤ Nat.clog 2 3 + 1 ∧ Nat.clog 2 3 + 1 = 3 ∧
    (∃ reports N, ReportingLoop relaxEntries (fun pass _ changed => (pass, changed)) 0 fallingRing
      reports N ∧ reports = [(1, true), (2, true), (3, false)]) ∧
    passCount (#v[] : BoolMatrix 0) = 1 := by
  obtain ⟨hloop, _, hrow, hpasses, hcovers, _, hbound, _⟩ := close_exact fallingRing
  obtain ⟨_, _, _, _, _, _, _, hempty⟩ := close_exact (#v[] : BoolMatrix 0)
  have hwalk : Walk fallingRing.Entry 3 0 0 :=
    .step (show fallingRing.holds 0 2 = true by decide +kernel)
      (.step (show fallingRing.holds 2 1 = true by decide +kernel)
        (.step (show fallingRing.holds 1 0 = true by decide +kernel) (.stay 0)))
  have hpaths : PathsOf fallingRing.Entry fallingRing := (hpasses 0).2
  have hcount : fallingRing.passCount = 3 := by decide +kernel
  refine ⟨hwalk, hcovers 2 3 0 0 (by decide) (by decide) hwalk, hpaths,
    (hrow fallingRing false 0 2).2 hpaths, hbound, by decide +kernel,
    ⟨_, _, (hloop _ _).mpr ⟨rfl, rfl⟩, ?_⟩, hempty rfl⟩
  rw [hcount]
  rfl

end BoolMatrix

end FormalLanguage
