/-!
Collections with at most one entry for each key. A newcomer never displaces the entry that
already holds its key, so an entry is the earliest value supplied with that key.
-/
namespace FormalLanguage

theorem lookup_of_absent {κ β : Type} [BEq κ] [LawfulBEq κ] {entries : List (κ × β)} {k : κ}
    (habsent : k ∉ entries.map Prod.fst) : entries.lookup k = none := by
  rw [List.lookup_eq_none_iff]
  intro entry hentry
  rw [bne_iff_ne]
  rintro rfl
  exact habsent (List.mem_map_of_mem hentry)

/-- Values in the order they came, no two of them with the same key. -/
structure KeyedSet {α κ : Type} (key : α → κ) where
  entries : List α
  distinct : (entries.map key).Nodup

namespace KeyedSet

variable {α κ : Type} {key : α → κ}

instance : EmptyCollection (KeyedSet key) := ⟨⟨[], .nil⟩⟩

variable [DecidableEq κ]

/-- The entry that holds a key. -/
def find? (s : KeyedSet key) (k : κ) : Option α := s.entries.find? fun x => key x = k

theorem find?_eq_none {s : KeyedSet key} {k : κ} :
    s.find? k = none ↔ k ∉ s.entries.map key := by
  simp [find?]

theorem mem_and_key_of_find?_eq_some {s : KeyedSet key} {k : κ} {x : α}
    (h : s.find? k = some x) : x ∈ s.entries ∧ key x = k := by
  have hkey := List.find?_some h
  exact ⟨List.mem_of_find?_eq_some h, of_decide_eq_true hkey⟩

/-- Adds a value unless an entry already holds its key. -/
def insert (s : KeyedSet key) (x : α) : KeyedSet key :=
  if h : key x ∈ s.entries.map key then s
  else
    ⟨s.entries ++ [x], by
      rw [List.map_append, List.nodup_append]
      refine ⟨s.distinct, by simp, fun k hk k' hk' => ?_⟩
      rw [List.map_singleton, List.mem_singleton] at hk'
      rintro rfl
      exact h (hk' ▸ hk)⟩

theorem entries_insert (s : KeyedSet key) (x : α) :
    (s.insert x).entries =
      if key x ∈ s.entries.map key then s.entries else s.entries ++ [x] := by
  unfold insert
  split <;> rfl

/-- The collection left after values arrive one by one. -/
def ofList (key : α → κ) (xs : List α) : KeyedSet key := xs.foldl insert ∅

/-- Whether a value would be added: no entry holds its key. -/
def isNew (s : KeyedSet key) (x : α) : Bool := (s.find? (key x)).isNone

/-- For each of the values that arrive one by one, whether it is added. -/
def answers (s : KeyedSet key) : List α → List Bool
  | [] => []
  | x :: xs => s.isNew x :: answers (s.insert x) xs

/-- The first value of a list whose key is already held, behind the entry that holds it, when
the values of the list arrive one by one. -/
def firstCollision (s : KeyedSet key) : List α → Option (α × α)
  | [] => none
  | x :: xs =>
      match s.find? (key x) with
      | some resident => some (resident, x)
      | none => firstCollision (s.insert x) xs

end KeyedSet

end FormalLanguage
