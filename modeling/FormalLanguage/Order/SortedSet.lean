/-!
Finite sets kept as strictly ascending lists. Two sets with the same members are equal, and
listing a set always gives its members in order, so the order in which members were supplied
can never be observed.
-/

namespace FormalLanguage

/-- A finite set, held as the list of its members in strictly ascending order. -/
structure SortedSet (α : Type) [Ord α] where
  toList : List α
  ascending : toList.Pairwise fun x y => compare x y = .lt

namespace SortedSet

variable {α : Type} [Ord α]

instance : Membership α (SortedSet α) := ⟨fun s x => x ∈ s.toList⟩

@[simp] theorem mem_toList {s : SortedSet α} {x : α} : x ∈ s.toList ↔ x ∈ s := Iff.rfl

instance [DecidableEq α] (s : SortedSet α) (x : α) : Decidable (x ∈ s) :=
  inferInstanceAs (Decidable (x ∈ s.toList))

instance : HasSubset (SortedSet α) := ⟨fun s t => ∀ x ∈ s, x ∈ t⟩

instance [DecidableEq α] (s t : SortedSet α) : Decidable (s ⊆ t) :=
  inferInstanceAs (Decidable (∀ x ∈ s.toList, x ∈ t.toList))

theorem eq_of_toList_eq {s t : SortedSet α} (h : s.toList = t.toList) : s = t := by
  cases s
  cases t
  cases h
  rfl

instance [DecidableEq α] : DecidableEq (SortedSet α) := fun s t =>
  decidable_of_iff (s.toList = t.toList) ⟨eq_of_toList_eq, fun h => h ▸ rfl⟩

def empty : SortedSet α := ⟨[], .nil⟩

instance : EmptyCollection (SortedSet α) := ⟨empty⟩

instance : Inhabited (SortedSet α) := ⟨∅⟩

@[simp] theorem not_mem_empty (x : α) : x ∉ (∅ : SortedSet α) := fun h => nomatch h

def size (s : SortedSet α) : Nat := s.toList.length

def isEmpty (s : SortedSet α) : Bool := s.toList.isEmpty

theorem isEmpty_iff {s : SortedSet α} : s.isEmpty = true ↔ s = ∅ := by
  constructor
  · intro h
    exact eq_of_toList_eq (List.isEmpty_iff.mp h)
  · rintro rfl
    rfl

theorem isEmpty_eq_false_iff {s : SortedSet α} : s.isEmpty = false ↔ s ≠ ∅ := by
  rw [← Bool.not_eq_true, isEmpty_iff]

/-- The members that satisfy a predicate. -/
def filter (p : α → Bool) (s : SortedSet α) : SortedSet α :=
  ⟨s.toList.filter p, s.ascending.filter p⟩

@[simp] theorem mem_filter {p : α → Bool} {s : SortedSet α} {x : α} :
    x ∈ s.filter p ↔ x ∈ s ∧ p x = true :=
  List.mem_filter

/-- The members from the first one that is not less than `bound` on. -/
def startingAt (bound : α) (s : SortedSet α) : SortedSet α :=
  ⟨s.toList.dropWhile fun x => (compare x bound).isLT,
    s.ascending.sublist (List.dropWhile_sublist _)⟩

/-- The longest run of members, from the least one on, that all satisfy a predicate. -/
def whileTrue (p : α → Bool) (s : SortedSet α) : SortedSet α :=
  ⟨s.toList.takeWhile p, s.ascending.sublist (List.takeWhile_sublist _)⟩

/-- Puts a value into an ascending list at its place, unless it is there already. -/
def place (x : α) : List α → List α
  | [] => [x]
  | y :: ys =>
      match compare x y with
      | .lt => x :: y :: ys
      | .eq => y :: ys
      | .gt => y :: place x ys

variable [Std.LawfulEqOrd α]

theorem mem_place {x y : α} {ys : List α} : y ∈ place x ys ↔ y = x ∨ y ∈ ys := by
  induction ys with
  | nil => simp [place]
  | cons z zs ih =>
      simp only [place]
      split
      · exact List.mem_cons
      next h =>
        have := Std.LawfulEqCmp.eq_of_compare h
        subst this
        simp
      · simp only [List.mem_cons, ih]
        exact or_left_comm

theorem nodup_toList (s : SortedSet α) : s.toList.Nodup := by
  refine s.ascending.imp ?_
  intro x y hlt heq
  rw [heq, Std.compare_self] at hlt
  cases hlt

variable [Std.TransOrd α]

theorem ascending_place {x : α} {ys : List α}
    (h : ys.Pairwise fun x y => compare x y = .lt) :
    (place x ys).Pairwise fun x y => compare x y = .lt := by
  induction ys with
  | nil => simp [place]
  | cons z zs ih =>
      obtain ⟨hz, hzs⟩ := List.pairwise_cons.mp h
      simp only [place]
      split
      next hlt =>
        refine List.pairwise_cons.mpr ⟨fun w hw => ?_, h⟩
        rcases List.mem_cons.mp hw with rfl | hw
        · exact hlt
        · exact Std.TransCmp.lt_trans hlt (hz w hw)
      · exact h
      next hgt =>
        refine List.pairwise_cons.mpr ⟨fun w hw => ?_, ih hzs⟩
        rcases mem_place.mp hw with rfl | hw
        · exact Std.OrientedCmp.gt_iff_lt.mp hgt
        · exact hz w hw

/-- What is less than the first value of an ascending list is not in the list. -/
theorem not_mem_of_lt_head {x y : α} {ys : List α}
    (h : (y :: ys).Pairwise fun x y => compare x y = .lt) (hlt : compare x y = .lt) :
    x ∉ y :: ys := by
  have irrefl : compare x x ≠ .lt := by simp [Std.compare_self]
  intro hx
  rcases List.mem_cons.mp hx with rfl | hx
  · exact irrefl hlt
  · exact irrefl (Std.TransCmp.lt_trans hlt ((List.pairwise_cons.mp h).1 x hx))

def insert (x : α) (s : SortedSet α) : SortedSet α :=
  ⟨place x s.toList, ascending_place s.ascending⟩

@[simp] theorem mem_insert {x y : α} {s : SortedSet α} : y ∈ s.insert x ↔ y = x ∨ y ∈ s :=
  mem_place

/-- The set of the values in a list, whatever their order and however often they occur. -/
def ofList (xs : List α) : SortedSet α := xs.foldr insert ∅

@[simp] theorem mem_ofList {xs : List α} {x : α} : x ∈ ofList xs ↔ x ∈ xs := by
  induction xs with
  | nil => exact ⟨(nomatch ·), (nomatch ·)⟩
  | cons y ys ih =>
      rw [show ofList (y :: ys) = (ofList ys).insert y from rfl, mem_insert, List.mem_cons, ih]

theorem mem_ofList_singleton {x y : α} : x ∈ ofList [y] ↔ x = y :=
  mem_ofList.trans List.mem_singleton

instance : Union (SortedSet α) := ⟨fun s t => s.toList.foldr insert t⟩

@[simp] theorem mem_union {s t : SortedSet α} {x : α} : x ∈ s ∪ t ↔ x ∈ s ∨ x ∈ t := by
  have general : ∀ xs : List α, x ∈ xs.foldr insert t ↔ x ∈ xs ∨ x ∈ t := by
    intro xs
    induction xs with
    | nil => simp
    | cons y ys ih => simp only [List.foldr_cons, mem_insert, List.mem_cons, ih, or_assoc]
  exact general s.toList

/-- Two ascending lists with the same members are one list. -/
theorem eq_of_ascending {xs ys : List α} (hxs : xs.Pairwise fun x y => compare x y = .lt)
    (hys : ys.Pairwise fun x y => compare x y = .lt) (same : ∀ x, x ∈ xs ↔ x ∈ ys) : xs = ys := by
  have irrefl : ∀ z : α, compare z z ≠ .lt := fun z hz => by
    rw [Std.compare_self] at hz
    cases hz
  induction xs generalizing ys with
  | nil =>
      symm
      exact List.eq_nil_iff_forall_not_mem.mpr fun y hy => nomatch (same y).mpr hy
  | cons x xs ih =>
      cases ys with
      | nil => exact nomatch (same x).mp (List.mem_cons_self ..)
      | cons y ys =>
          obtain ⟨hx, hxt⟩ := List.pairwise_cons.mp hxs
          obtain ⟨hy, hyt⟩ := List.pairwise_cons.mp hys
          have heads : x = y := by
            rcases List.mem_cons.mp ((same x).mp (List.mem_cons_self ..)) with h | h
            · exact h
            rcases List.mem_cons.mp ((same y).mpr (List.mem_cons_self ..)) with h' | h'
            · exact h'.symm
            exact absurd (Std.TransCmp.lt_trans (hx y h') (hy x h)) (irrefl x)
          subst heads
          congr 1
          refine ih hxt hyt fun z => ⟨fun hz => ?_, fun hz => ?_⟩
          · rcases List.mem_cons.mp ((same z).mp (List.mem_cons_of_mem _ hz)) with rfl | h
            · exact absurd (hx _ hz) (irrefl _)
            · exact h
          · rcases List.mem_cons.mp ((same z).mpr (List.mem_cons_of_mem _ hz)) with rfl | h
            · exact absurd (hy _ hz) (irrefl _)
            · exact h

/-- Sets are determined by their members. -/
theorem ext {s t : SortedSet α} (h : ∀ x, x ∈ s ↔ x ∈ t) : s = t :=
  eq_of_toList_eq (eq_of_ascending s.ascending t.ascending h)

theorem ofList_eq {xs : List α} {s : SortedSet α} (h : ∀ x, x ∈ xs ↔ x ∈ s) : ofList xs = s :=
  ext fun x => mem_ofList.trans (h x)

/-- Looking through a set for a value with some property gives the least member that has it. -/
theorem find?_eq_some_iff {p : α → Bool} {s : SortedSet α} {x : α} :
    s.toList.find? p = some x ↔
      x ∈ s ∧ p x = true ∧ ∀ y ∈ s, p y = true → (compare x y).isLE = true := by
  have least : ∀ {z}, s.toList.find? p = some z →
      z ∈ s ∧ p z = true ∧ ∀ y ∈ s, p y = true → (compare z y).isLE = true := by
    intro z hz
    obtain ⟨hp, before, behind, hlist, hbefore⟩ := List.find?_eq_some_iff_append.mp hz
    refine ⟨List.mem_of_find?_eq_some hz, hp, fun y hy hpy => ?_⟩
    have hascending := s.ascending
    rw [hlist] at hascending
    rw [← mem_toList, hlist] at hy
    rcases List.mem_append.mp hy with hy | hy
    · have hnot := hbefore y hy
      simp [hpy] at hnot
    · rcases List.mem_cons.mp hy with rfl | hy
      · simp [Std.compare_self]
      · have hlt := (List.pairwise_cons.mp (List.pairwise_append.mp hascending).2.1).1 y hy
        rw [hlt]
        rfl
  constructor
  · exact least
  · rintro ⟨hx, hpx, hleast⟩
    cases hfind : s.toList.find? p with
    | none => exact absurd hpx (List.find?_eq_none.mp hfind x hx)
    | some z =>
        obtain ⟨hz, hpz, hzleast⟩ := least hfind
        have heq := Std.OrientedCmp.isLE_antisymm (hzleast x hx hpx) (hleast z hz hpz)
        rw [Std.LawfulEqCmp.eq_of_compare heq]

theorem eq_empty_of_forall_not_mem {s : SortedSet α} (h : ∀ x, x ∉ s) : s = ∅ :=
  ext fun x => iff_of_false (h x) (not_mem_empty x)

theorem exists_mem_of_ne_empty {s : SortedSet α} (h : s ≠ ∅) : ∃ x, x ∈ s :=
  Classical.byContradiction fun hnone =>
    h (eq_empty_of_forall_not_mem fun x hx => hnone ⟨x, hx⟩)

theorem ofList_singleton_ne_empty (x : α) : ofList [x] ≠ ∅ := fun h =>
  not_mem_empty x (h ▸ mem_ofList_singleton.mpr rfl)

theorem ofList_singleton_inj {x y : α} : ofList [x] = ofList [y] ↔ x = y := by
  constructor
  · intro h
    have hx : x ∈ ofList [x] := mem_ofList_singleton.mpr rfl
    rw [h] at hx
    exact mem_ofList_singleton.mp hx
  · rintro rfl
    rfl

end SortedSet

namespace SortedSet

variable {α β : Type} [Ord α] [Ord β] [Std.LawfulEqOrd β] [Std.TransOrd β]

/-- The values of a function at the members. -/
def map (f : α → β) (s : SortedSet α) : SortedSet β := ofList (s.toList.map f)

@[simp] theorem mem_map {f : α → β} {s : SortedSet α} {y : β} : y ∈ s.map f ↔ ∃ x ∈ s, f x = y := by
  rw [map, mem_ofList, List.mem_map]
  rfl

end SortedSet

/-!
Finding the place of a value in a set by halving. A search looks at the middle of a stretch of the
ascending list and goes on in the half that the value belongs to; when one place is left, it looks
whether the value is there.
-/

/-- Where a search ends that halves the stretch of `size` places from `base` on. -/
def halve {α : Type} [Ord α] (xs : List α) (x : α) (base size : Nat)
    (hbound : base + size ≤ xs.length) : Nat :=
  if hsize : 1 < size then
    have hmiddle : base + size / 2 < xs.length := by omega
    if compare xs[base + size / 2] x = .gt then
      halve xs x base (size - size / 2) (by omega)
    else halve xs x (base + size / 2) (size - size / 2) (by omega)
  else base
termination_by size

/-- A value in a stretch of an ascending list is where the search of the stretch ends. -/
theorem halve_eq {α : Type} [Ord α] [Std.LawfulEqOrd α] [Std.TransOrd α] {xs : List α}
    (hascending : xs.Pairwise fun x y => compare x y = .lt) {k : Nat} (hk : k < xs.length)
    {base size : Nat} (hbound : base + size ≤ xs.length) (hbase : base ≤ k)
    (hstretch : k < base + size) : halve xs xs[k] base size hbound = k := by
  have hlt := List.pairwise_iff_getElem.mp hascending
  fun_induction halve xs xs[k] base size hbound with
  | case1 base size hbound hsize hmiddle hgt ih =>
      -- The middle is above the value, so the value is in front of the middle.
      have hfront : k < base + size / 2 := by
        refine Nat.lt_of_not_le fun hle => ?_
        rcases Nat.lt_or_eq_of_le hle with hbehind | hhere
        · have hbelow := hlt _ _ hmiddle hk hbehind
          rw [hgt] at hbelow
          cases hbelow
        · subst hhere
          rw [Std.compare_self] at hgt
          cases hgt
      exact ih hbase (by omega)
  | case2 base size hbound hsize hmiddle hgt ih =>
      have hbehind : base + size / 2 ≤ k := by
        refine Nat.le_of_not_lt fun hfront => hgt ?_
        exact Std.OrientedCmp.gt_iff_lt.mpr (hlt _ _ hk hmiddle hfront)
      exact ih hbehind (by omega)
  | case3 base size hbound hsize => omega

namespace SortedSet

variable {α : Type} [Ord α]

/-- The place of a value in the list of a set, if it is there. -/
def search (s : SortedSet α) (x : α) : Option (Fin s.toList.length) :=
  let i := halve s.toList x 0 s.toList.length (Nat.le_of_eq (Nat.zero_add _))
  if hi : i < s.toList.length then
    if compare s.toList[i] x = .eq then some ⟨i, hi⟩ else none
  else none

variable [Std.LawfulEqOrd α] [Std.TransOrd α]

theorem search_eq_some_iff {s : SortedSet α} {x : α} {i : Fin s.toList.length} :
    s.search x = some i ↔ s.toList[i] = x := by
  unfold search
  dsimp only
  constructor
  · intro h
    split at h
    next hlt =>
      split at h
      next heq =>
        cases h
        exact Std.LawfulEqCmp.eq_of_compare heq
      next => cases h
    next => cases h
  · rintro rfl
    have hends : halve s.toList s.toList[i.val] 0 s.toList.length
        (Nat.le_of_eq (Nat.zero_add _)) = i.val :=
      halve_eq s.ascending i.isLt _ (Nat.zero_le _) (by omega)
    simp [hends, Std.compare_self]

end SortedSet

/-!
The subsets of a finite set, listed. Searches over sets of states end because they can only meet
members of such a list.
-/

namespace SortedSet

variable {α : Type} [Ord α] [Std.LawfulEqOrd α] [Std.TransOrd α]

/-- The members whose bits are set. The lowest bit is that of the least member. -/
def selection (s : SortedSet α) (bits : BitVec s.size) : SortedSet α :=
  ofList ((s.toList.zipIdx.filter fun (_, k) => bits.getLsbD k).map Prod.fst)

theorem mem_selection {s : SortedSet α} {bits : BitVec s.size} {x : α} :
    x ∈ s.selection bits ↔ ∃ k, s.toList[k]? = some x ∧ bits.getLsbD k = true := by
  simp [selection, List.mem_zipIdx_iff_getElem?]

/-- Every subset of a set. -/
def powerset (s : SortedSet α) : List (SortedSet α) :=
  (List.finRange (Nat.pow 2 s.size)).map fun bits => s.selection (.ofFin bits)

@[simp] theorem mem_powerset [DecidableEq α] {s t : SortedSet α} : s ∈ t.powerset ↔ s ⊆ t := by
  simp only [powerset, List.mem_map, List.mem_finRange, true_and]
  constructor
  · rintro ⟨bits, rfl⟩ x hx
    obtain ⟨k, hk, _⟩ := mem_selection.mp hx
    exact List.mem_of_getElem? hk
  · intro h
    let kept : List Bool := t.toList.map fun x => decide (x ∈ s)
    have hsize : kept.length = t.size := List.length_map ..
    let bits : BitVec t.size := (BitVec.ofBoolListLE kept).cast hsize
    have hbits : ∀ k y, t.toList[k]? = some y → bits.getLsbD k = decide (y ∈ s) := by
      intro k y hk
      simp [bits, kept, hk]
    refine ⟨bits.toFin, ext fun x => mem_selection.trans ⟨?_, fun hx => ?_⟩⟩
    · rintro ⟨k, hk, hset⟩
      rw [hbits k x hk] at hset
      exact of_decide_eq_true hset
    · obtain ⟨k, hk⟩ := List.getElem?_of_mem (h x hx)
      exact ⟨k, hk, (hbits k x hk).trans (decide_eq_true hx)⟩

end SortedSet

end FormalLanguage
