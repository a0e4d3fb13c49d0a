import FormalLanguage.Proofs.Conflicts
import Mathlib.Data.List.Perm.Subperm

/-!
Edges that arrive one by one in two collections: one tells edges apart by source and label alone,
the other by all that they consist of. Looking up a key after one more arrival gives what it gave
before, or else the newcomer if it brings that key; so after a whole run it gives the earliest
arrival with the key. The first collection holds a subset of the second, and the two are of one
size exactly when no edge was turned away for the sake of a different one. That is also when a
policy without conflicts lets the edges pass, although it meets them in another order.
-/

namespace FormalLanguage

theorem SortedSet.mem_foldl_insert {α : Type} [Ord α] [Std.TransOrd α] [Std.LawfulEqOrd α]
    {xs : List α} {s : SortedSet α} {y : α} :
    y ∈ xs.foldl (fun known x => known.insert x) s ↔ y ∈ xs ∨ y ∈ s := by
  induction xs generalizing s with
  | nil => simp
  | cons x xs ih =>
      rw [List.foldl_cons, ih, mem_insert, List.mem_cons, or_assoc, or_left_comm]

namespace KeyedSet

variable {α κ : Type} {key : α → κ} [DecidableEq κ]

/-- An arrival changes the answer for its own key only, and only if there was none. -/
theorem find?_insert (s : KeyedSet key) (x : α) (k : κ) :
    (s.insert x).find? k = (s.find? k).or (if key x = k then some x else none) := by
  by_cases hheld : key x ∈ s.entries.map key
  · have hsame : (s.insert x).find? k = s.find? k := by
      rw [find?, find?, entries_insert, if_pos hheld]
    rw [hsame]
    split
    next hkey =>
      cases hfind : s.find? k with
      | none => exact absurd (hkey ▸ hheld) (find?_eq_none.mp hfind)
      | some resident => rfl
    next => rw [Option.or_none]
  · rw [find?, entries_insert, if_neg hheld, List.find?_append]
    by_cases hkey : key x = k
    · simp [find?, hkey]
    · simp [find?, hkey]

/-- A whole run of arrivals changes the answer for a key to the earliest one that brings it, if
there was none. -/
theorem find?_foldl_insert (s : KeyedSet key) (xs : List α) (k : κ) :
    (xs.foldl insert s).find? k = (s.find? k).or (xs.find? fun x => key x = k) := by
  induction xs generalizing s with
  | nil => simp
  | cons x xs ih =>
      rw [List.foldl_cons, ih, find?_insert, Option.or_assoc, List.find?_cons]
      by_cases hkey : key x = k
      · simp [hkey]
      · simp [hkey]

theorem find?_ofList (xs : List α) (k : κ) :
    (ofList key xs).find? k = xs.find? fun x => key x = k := by
  rw [ofList, find?_foldl_insert]
  rfl

/-- An entry is what is found under its own key. -/
theorem mem_entries_iff {s : KeyedSet key} {x : α} :
    x ∈ s.entries ↔ s.find? (key x) = some x := by
  constructor
  · intro hx
    cases hfind : s.find? (key x) with
    | none => exact absurd (List.mem_map_of_mem hx) (find?_eq_none.mp hfind)
    | some y =>
        obtain ⟨hy, hkey⟩ := mem_and_key_of_find?_eq_some hfind
        rw [List.inj_on_of_nodup_map s.distinct hy hx hkey]
  · exact fun h => (mem_and_key_of_find?_eq_some h).1

/-- The entries are the arrivals in front of which none had their key. -/
theorem mem_entries_ofList {xs : List α} {x : α} :
    x ∈ (ofList key xs).entries ↔
      ∃ before after, xs = before ++ x :: after ∧ ∀ y ∈ before, key y ≠ key x := by
  rw [mem_entries_iff, find?_ofList, List.find?_eq_some_iff_append]
  simp

theorem mem_keys_ofList {xs : List α} {k : κ} :
    k ∈ (ofList key xs).entries.map key ↔ k ∈ xs.map key := by
  rw [← not_iff_not, ← find?_eq_none, find?_ofList, List.find?_eq_none]
  simp

theorem length_answers (s : KeyedSet key) (xs : List α) : (s.answers xs).length = xs.length := by
  induction xs generalizing s with
  | nil => rfl
  | cons x xs ih => rw [answers, List.length_cons, List.length_cons, ih]

/-- Every arrival is answered as the collection is that the ones before it left. -/
theorem getElem?_answers (s : KeyedSet key) (before after : List α) (x : α) :
    (s.answers (before ++ x :: after))[before.length]? =
      some ((before.foldl insert s).isNew x) := by
  induction before generalizing s with
  | nil => rfl
  | cons y before ih => exact ih (s.insert y)

theorem isNew_ofList_iff {before : List α} {x : α} :
    (ofList key before).isNew x = true ↔ ∀ y ∈ before, key y ≠ key x := by
  rw [isNew, find?_ofList, Option.isNone_iff_eq_none, List.find?_eq_none]
  simp

/-- Whatever is turned away is equal to the entry that holds its key. -/
def OnlyDuplicatesRefused (key : α → κ) (xs : List α) : Prop :=
  ∀ before x after resident, xs = before ++ x :: after →
    (ofList key before).find? (key x) = some resident → resident = x

theorem onlyDuplicatesRefused_iff_injOn {xs : List α} :
    OnlyDuplicatesRefused key xs ↔ ∀ x ∈ xs, ∀ y ∈ xs, key x = key y → x = y := by
  constructor
  · intro h
    have hkept : ∀ x ∈ xs, (ofList key xs).find? (key x) = some x := by
      intro x hx
      obtain ⟨before, after, hsplit⟩ := List.append_of_mem hx
      rw [find?_ofList, hsplit, List.find?_append, ← find?_ofList]
      cases hfind : (ofList key before).find? (key x) with
      | none => simp
      | some resident => rw [h before x after resident hsplit hfind, Option.some_or]
    intro x hx y hy hkey
    exact Option.some.inj ((hkept x hx).symm.trans (hkey ▸ hkept y hy))
  · rintro hinj before x after resident rfl hfind
    rw [find?_ofList] at hfind
    refine hinj resident ?_ x (by simp) (by simpa using List.find?_some hfind)
    exact List.mem_append_left _ (List.mem_of_find?_eq_some hfind)

/-- Telling values apart by their keys keeps as many of them as telling them apart altogether does
exactly when no two different ones share a key. -/
theorem size_eq_length_entries_iff [Ord α] {xs : List α} {full : SortedSet α}
    (hfull : ∀ x, x ∈ full ↔ x ∈ xs) (hdistinct : full.toList.Nodup) :
    full.size = (ofList key xs).entries.length ↔
      ∀ x ∈ xs, ∀ y ∈ xs, key x = key y → x = y := by
  have hentries : (ofList key xs).entries.Nodup := .of_map _ (ofList key xs).distinct
  have hsubset : (ofList key xs).entries ⊆ full.toList := by
    intro x hx
    obtain ⟨before, after, rfl, _⟩ := mem_entries_ofList.mp hx
    exact (hfull x).mpr (by simp)
  constructor
  · intro hsize
    have hperm : (ofList key xs).entries.Perm full.toList :=
      (List.subperm_of_subset hentries hsubset).perm_of_length_le (Nat.le_of_eq hsize)
    have hkept : ∀ x ∈ xs, x ∈ (ofList key xs).entries := fun x hx =>
      hperm.mem_iff.mpr ((hfull x).mpr hx)
    intro x hx y hy hkey
    exact List.inj_on_of_nodup_map (ofList key xs).distinct (hkept x hx) (hkept y hy) hkey
  · intro hinj
    refine ((List.perm_ext_iff_of_nodup hdistinct hentries).mpr fun x => ?_).length_eq
    refine ⟨fun hx => ?_, fun hx => hsubset hx⟩
    have hx : x ∈ xs := (hfull x).mp hx
    have hheld : key x ∈ (ofList key xs).entries.map key :=
      mem_keys_ofList.mpr (List.mem_map_of_mem hx)
    obtain ⟨y, hy, hkey⟩ := List.mem_map.mp hheld
    have hy' : y ∈ xs := (hfull y).mp (hsubset hy)
    rwa [← hinj y hy' x hx hkey]

end KeyedSet

namespace TransitionRelation

/-- Arrivals by source and label, arrivals as a whole, and conflicts. Of edges that arrive one by
one, told apart by source and label alone, one is added exactly when no earlier one has its source
and its label; what is left are the earliest edges for each source and label that occur, one for
each. Told apart by all that they consist of, the edges are as many in the end exactly when every
edge that was turned away is equal to the one that was there for it, and exactly when the policy
that forbids conflicts and allows epsilon edges lets all of them pass. -/
theorem arrivals_match_policy (es : List Edge) :
    let answers := (∅ : KeyedSet Edge.key).answers es
    let keyed := KeyedSet.ofList Edge.key es
    let full : SortedSet Edge := es.foldl (fun known e => known.insert e) ∅
    (answers.length = es.length ∧ ∀ before e after, es = before ++ e :: after →
      (answers[before.length]? = some true ↔ ∀ d ∈ before, d.key ≠ e.key)) ∧
    (∀ e, e ∈ keyed.entries ↔
      ∃ before after, es = before ++ e :: after ∧ ∀ d ∈ before, d.key ≠ e.key) ∧
    ((keyed.entries.map Edge.key).Nodup ∧
      ∀ k, k ∈ keyed.entries.map Edge.key ↔ k ∈ es.map Edge.key) ∧
    (∀ e, e ∈ full ↔ e ∈ es) ∧
    (full.size = keyed.entries.length ↔
      ∀ before e after survivor, es = before ++ e :: after →
        (KeyedSet.ofList Edge.key before).find? e.key = some survivor → survivor = e) ∧
    (full.size = keyed.entries.length ↔ ∃ f, build ⟨false, true⟩ es = .ok f) := by
  intro answers keyed full
  have hfull (e : Edge) : e ∈ full ↔ e ∈ es := by
    refine SortedSet.mem_foldl_insert.trans (or_iff_left ?_)
    exact SortedSet.not_mem_empty e
  have hsize : full.size = keyed.entries.length ↔ ∀ d ∈ es, ∀ e ∈ es, d.key = e.key → d = e :=
    KeyedSet.size_eq_length_entries_iff hfull full.nodup_toList
  have hrefused : KeyedSet.OnlyDuplicatesRefused Edge.key es ↔
      ∀ d ∈ es, ∀ e ∈ es, d.key = e.key → d = e := KeyedSet.onlyDuplicatesRefused_iff_injOn
  refine ⟨⟨KeyedSet.length_answers _ es, ?_⟩, fun e => KeyedSet.mem_entries_ofList,
    ⟨keyed.distinct, fun k => KeyedSet.mem_keys_ofList⟩, hfull, hsize.trans hrefused.symm,
    hsize.trans ?_⟩
  · rintro before e after rfl
    have hanswer := KeyedSet.getElem?_answers (∅ : KeyedSet Edge.key) before after e
    rw [hanswer, Option.some.injEq]
    exact KeyedSet.isNew_ofList_iff
  · simp only [build_eq_ok_iff, exists_eq_left, mem_ofList, true_or, true_and, Bool.false_eq_true,
      false_or]

/-- Two edges from one state on one letter, the one with the greater target first, and an epsilon
edge that comes twice. -/
def disputedEdges : List Edge :=
  [⟨2, 5, some "a"⟩, ⟨1, 7, none⟩, ⟨2, 3, some "a"⟩, ⟨1, 7, none⟩]

/-- Of the edges of `disputedEdges` that share a letter the later one is turned away although it has
the smaller target, and this is a conflict; without it the epsilon edge that comes twice is none. -/
theorem arrivals_match_policy_disputedEdges :
    ((∅ : KeyedSet Edge.key).answers disputedEdges)[2]? ≠ some true ∧
    ⟨2, 5, some "a"⟩ ∈ (KeyedSet.ofList Edge.key disputedEdges).entries ∧
    (KeyedSet.ofList Edge.key (disputedEdges.take 2)).find? (2, some "a") =
      some ⟨2, 5, some "a"⟩ ∧
    (¬ ∃ f, build ⟨false, true⟩ disputedEdges = .ok f) ∧
    ∃ f, build ⟨false, true⟩ (disputedEdges.eraseIdx 2) = .ok f := by
  obtain ⟨⟨_, hanswers⟩, hentries, _, _, hrefused, hpolicy⟩ := arrivals_match_policy disputedEdges
  obtain ⟨_, _, _, _, _, hlenient⟩ := arrivals_match_policy (disputedEdges.eraseIdx 2)
  have hresident : (KeyedSet.ofList Edge.key (disputedEdges.take 2)).find? (2, some "a") =
      some ⟨2, 5, some "a"⟩ := by decide +kernel
  refine ⟨fun h => ?_, (hentries _).mpr ⟨[], _, rfl, by simp⟩, hresident, fun h => ?_, ?_⟩
  · exact (hanswers (disputedEdges.take 2) ⟨2, 3, some "a"⟩ [⟨1, 7, none⟩] rfl).mp h
      ⟨2, 5, some "a"⟩ (by decide) rfl
  · cases hrefused.mp (hpolicy.mpr h) (disputedEdges.take 2) ⟨2, 3, some "a"⟩ [⟨1, 7, none⟩] _ rfl
      hresident
  · exact hlenient.mp (by decide +kernel)

end TransitionRelation

end FormalLanguage
