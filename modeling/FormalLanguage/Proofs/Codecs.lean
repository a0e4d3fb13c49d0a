import FormalLanguage.Order.SortedSet
import FormalLanguage.Serial.Exchange
import Mathlib.Tactic

/-!
What follows from the laws of exchange, one after the other. Each law gives what is read by an
`iff`, and that what was written is restored if this holds of the parts: of the items of a list and
of the fields of a record, whose names have to differ. For optional items it matters that none is
written as null.
-/

namespace FormalLanguage

/-- Where no name is entered twice, the entry of a name is found. -/
theorem lookup_of_mem {κ β : Type} [BEq κ] [LawfulBEq κ] {entries : List (κ × β)} {k : κ} {b : β}
    (hdistinct : (entries.map Prod.fst).Nodup) (hentry : (k, b) ∈ entries) :
    entries.lookup k = some b := by
  obtain ⟨before, behind, rfl⟩ := List.append_of_mem hentry
  refine List.lookup_eq_some_iff.mpr ⟨before, behind, rfl, fun other hother => ?_⟩
  rw [List.map_append, List.nodup_append] at hdistinct
  have hother : other.1 ∈ before.map Prod.fst := List.mem_map_of_mem hother
  exact bne_iff_ne.mpr fun hsame => hdistinct.2.2 _ hother _ (by simp) hsame.symm

/-- What a value presents is well-formed if the value is. -/
theorem Value.Presents.wellFormed {names : List String} {v w : Value}
    {contents : List (Option Value)} (h : v.Presents names contents) (hv : v.WellFormed)
    (hw : some w ∈ contents) : w.WellFormed := by
  cases h with
  | record fields =>
      obtain ⟨name, _, hlookup⟩ := List.mem_map.mp hw
      obtain ⟨before, behind, rfl, _⟩ := List.lookup_eq_some_iff.mp hlookup
      cases hv with
      | record _ hfields => exact hfields (name, w) (by simp)
  | list _ =>
      cases hv with
      | list hitems => exact hitems w (by simpa using hw)

/-- Two relations to a list are the same if they agree on its items. -/
theorem forall₂_congr_right {α β : Type} {R S : α → β → Prop} {xs : List α} {ys : List β}
    (h : ∀ y ∈ ys, ∀ x, R x y ↔ S x y) : List.Forall₂ R xs ys ↔ List.Forall₂ S xs ys := by
  induction ys generalizing xs with
  | nil => simp
  | cons y ys ih =>
      rw [List.forall_mem_cons] at h
      simp only [List.forall₂_cons_right_iff, h.1, ih h.2]

namespace Codec

variable {α : Type} {v : Value}

/-- Whatever was written is read as what it was. -/
def Restores (c : Codec α) : Prop := ∀ x, c.read (c.write x) = some x

namespace Scalar

variable {c : Codec α} {form : α → Value} (h : c.Scalar form)

include h

theorem read_iff {x : α} : c.read v = some x ↔ v = form x := by
  constructor
  · intro hread
    by_cases hform : ∃ y, v = form y
    · obtain ⟨y, rfl⟩ := hform
      rw [h.reads] at hread
      rw [Option.some.inj hread]
    · rw [h.refuses v (not_exists.mp hform)] at hread
      cases hread
  · rintro rfl
    exact h.reads x

theorem restores : c.Restores := by
  intro x
  rw [h.writes, h.reads]

end Scalar

namespace OptionOf

variable {c : Codec (Option α)} {item : Codec α} (h : c.OptionOf item)

include h

theorem read_none_iff : c.read v = some none ↔ v = .null := by
  by_cases hnull : v = .null
  · simp [hnull, h.reads_null]
  · simp [hnull, h.reads_other v hnull]

theorem read_some_iff {x : α} : c.read v = some (some x) ↔ v ≠ .null ∧ item.read v = some x := by
  by_cases hnull : v = .null
  · simp [hnull, h.reads_null]
  · simp [hnull, h.reads_other v hnull]

/-- An item that was written as null would be lost. -/
theorem restores (hitem : item.Restores) (hnull : ∀ x, item.write x ≠ .null) : c.Restores := by
  intro x
  cases x with
  | none => rw [h.writes_none, h.reads_null]
  | some x =>
      rw [h.writes_some]
      exact h.read_some_iff.mpr ⟨hnull x, hitem x⟩

end OptionOf

/-- Reading all of a list reads it item by item. -/
theorem mapM_eq_some_iff {read : Value → Option α} {items : List Value} {xs : List α} :
    items.mapM read = some xs ↔ List.Forall₂ (fun x item => read item = some x) xs items := by
  induction items generalizing xs with
  | nil => simp [eq_comm]
  | cons item items ih =>
      simp only [List.mapM_cons, Option.bind_eq_bind, Option.bind_eq_some_iff, ih, Option.pure_def,
        Option.some.injEq, List.forall₂_cons_right_iff]
      constructor
      · rintro ⟨x, hx, rest, hrest, rfl⟩
        exact ⟨x, rest, hx, hrest, rfl⟩
      · rintro ⟨x, rest, hx, hrest, rfl⟩
        exact ⟨x, hx, rest, hrest, rfl⟩

theorem Restores.mapM {item : Codec α} (hitem : item.Restores) (xs : List α) :
    (xs.map item.write).mapM item.read = some xs :=
  mapM_eq_some_iff.mpr (List.forall₂_map_right_iff.mpr (List.forall₂_same.mpr fun x _ => hitem x))

namespace ListOf

variable {c : Codec (List α)} {item : Codec α} (h : c.ListOf item)

include h

theorem read_iff {xs : List α} : c.read v = some xs ↔
    ∃ items, v = .list items ∧ List.Forall₂ (fun x w => item.read w = some x) xs items := by
  constructor
  · intro hread
    by_cases hlist : ∃ items, v = .list items
    · obtain ⟨items, rfl⟩ := hlist
      exact ⟨items, rfl, mapM_eq_some_iff.mp ((h.reads items).symm.trans hread)⟩
    · rw [h.refuses v (not_exists.mp hlist)] at hread
      cases hread
  · rintro ⟨items, rfl, hitems⟩
    rw [h.reads]
    exact mapM_eq_some_iff.mpr hitems

theorem restores (hitem : item.Restores) : c.Restores := by
  intro xs
  rw [h.writes, h.reads, hitem.mapM]

end ListOf

namespace SetOf

variable [Ord α] [Std.TransOrd α] [Std.LawfulEqOrd α] {c : Codec (SortedSet α)} {item : Codec α}
  (h : c.SetOf item)

include h

theorem read_iff {s : SortedSet α} : c.read v = some s ↔
    ∃ items xs, v = .list items ∧ List.Forall₂ (fun x w => item.read w = some x) xs items ∧
      ∀ x, x ∈ s ↔ x ∈ xs := by
  constructor
  · intro hread
    by_cases hlist : ∃ items, v = .list items
    · obtain ⟨items, rfl⟩ := hlist
      rw [h.reads, Option.map_eq_some_iff] at hread
      obtain ⟨xs, hxs, rfl⟩ := hread
      exact ⟨items, xs, rfl, mapM_eq_some_iff.mp hxs, fun _ => SortedSet.mem_ofList⟩
    · rw [h.refuses v (not_exists.mp hlist)] at hread
      cases hread
  · rintro ⟨items, xs, rfl, hitems, hmem⟩
    rw [h.reads, mapM_eq_some_iff.mpr hitems, Option.map_some,
      SortedSet.ofList_eq fun x => (hmem x).symm]

theorem restores (hitem : item.Restores) : c.Restores := by
  intro s
  rw [h.writes, h.reads, hitem.mapM, Option.map_some,
    SortedSet.ofList_eq fun _ => SortedSet.mem_toList]

end SetOf

namespace RecordOf

variable {c : Codec α} {fields : List (Field α)} (h : c.RecordOf fields)

include h

/-- A well-formed value is read field by field from what it presents. -/
theorem read_iff (hv : v.WellFormed) {x : α} : c.read v = some x ↔
    ∃ contents, v.Presents (fields.map Field.name) contents ∧
      List.Forall₂ (fun f content => f.Reads x content) fields contents := by
  constructor
  · intro hread
    cases hv with
    | @record entries hdistinct =>
        refine ⟨_, .record entries, ?_⟩
        rw [List.map_map, List.forall₂_map_right_iff, List.forall₂_same]
        exact (h.reads_record entries x hdistinct).mp hread
    | @list items =>
        have hitems := (h.reads_list items x).mp hread
        refine ⟨_, .list (by rw [List.length_map, hitems.length_eq]), ?_⟩
        rwa [List.forall₂_map_right_iff]
    | _ =>
        rw [h.refuses _ (by simp) (by simp)] at hread
        cases hread
  · rintro ⟨_, hpresents, hcontents⟩
    cases hpresents with
    | record entries =>
        rw [List.map_map, List.forall₂_map_right_iff, List.forall₂_same] at hcontents
        cases hv with
        | record hdistinct => exact (h.reads_record entries x hdistinct).mpr hcontents
    | list _ =>
        rw [List.forall₂_map_right_iff] at hcontents
        exact (h.reads_list _ x).mpr hcontents

/-- A record comes back if its fields do and no two of them have one name. -/
theorem restores (hdistinct : (fields.map Field.name).Nodup)
    (hfields : ∀ f ∈ fields, f.codec.Restores) : c.Restores := by
  intro x
  obtain ⟨entries, hwrite, hperm⟩ := h.writes x
  have hnames : (entries.map Prod.fst).Nodup := by
    rw [(hperm.map Prod.fst).nodup_iff, List.map_map]
    exact hdistinct
  rw [hwrite]
  refine (h.reads_record entries x hnames).mpr fun f hf => ?_
  have hentry : (f.name, f.codec.write (f.content x)) ∈ entries :=
    hperm.mem_iff.mpr (List.mem_map_of_mem hf)
  rw [lookup_of_mem hnames hentry]
  exact hfields f hf (f.content x)

end RecordOf

end Codec

namespace Field

variable {α β : Type} {name : String} {content : α → β} {c : Codec β} {x : α}
  {given : Option Value}

/-- A field that cannot be missing is read from a value that is given for it. -/
theorem reads_iff : (⟨name, content, c, false⟩ : Field α).Reads x given ↔
    ∃ v, given = some v ∧ c.read v = some (content x) := by
  cases given with
  | none => simp [Reads]
  | some v => simp [Reads]

theorem reads_iff_of_scalar {form : β → Value} (h : c.Scalar form) :
    (⟨name, content, c, false⟩ : Field α).Reads x given ↔ given = some (form (content x)) := by
  simp only [reads_iff, h.read_iff, exists_eq_right]

/-- A field that can be missing is read like null where it is. -/
theorem reads_iff_getD : (⟨name, content, c, true⟩ : Field α).Reads x given ↔
    c.read (given.getD .null) = some (content x) := by
  cases given with
  | none => simp [Reads]
  | some v => simp [Reads]

end Field

/-- A record type keeps the law of records if it is read from the contents of its fields. -/
theorem Codec.RecordOf.of_fields? {α : Type} {c : Codec α} {fields : List (Field α)}
    (hwrites : ∀ x, c.write x =
      .record (fields.map fun f => (f.name, f.codec.write (f.content x))))
    (hreads : ∀ v x, c.read v = some x ↔
      ∃ contents, v.fields? (fields.map Field.name) = some contents ∧
        List.Forall₂ (fun f given => f.Reads x given) fields contents) : c.RecordOf fields where
  writes x := ⟨_, hwrites x, .refl _⟩
  reads_record entries x _ := by
    rw [hreads, Value.fields?, List.map_map]
    simp [List.forall₂_map_right_iff, List.forall₂_same]
  reads_list items x := by
    rw [hreads, Value.fields?]
    constructor
    · rintro ⟨contents, hcontents, hfields⟩
      split at hcontents
      next =>
        obtain rfl := Option.some.inj hcontents
        rwa [List.forall₂_map_right_iff] at hfields
      next => cases hcontents
    · intro hitems
      refine ⟨_, if_pos (by rw [List.length_map, hitems.length_eq]), ?_⟩
      rwa [List.forall₂_map_right_iff]
  refuses v hrecord hlist := by
    cases hread : c.read v with
    | none => rfl
    | some x =>
        obtain ⟨contents, hcontents, _⟩ := (hreads v x).mp hread
        cases v with
        | record entries => exact absurd rfl (hrecord entries)
        | list items => exact absurd rfl (hlist items)
        | _ => cases hcontents

end FormalLanguage
