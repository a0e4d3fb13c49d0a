import FormalLanguage.Grammar.Basic
import Mathlib.Logic.Relation

/-!
What a grammar means, said by derivations alone and without any algorithm. A step expands one
nonterminal to one of its right sides or erases one end marker; an end marker is never expanded,
even where a rule has one on its left side. Derivations combine one after the other and inside a
longer sequence, and a property that every step carries back from its result to its source is
carried back by whole derivations; the analyses of a grammar are compared with its derivations in
this way.
-/

namespace FormalLanguage.Grammar

/-- One derivation step on sequences of symbols. -/
inductive Step (G : Grammar) : List Symbol → List Symbol → Prop
  | expand {before behind : List Symbol} {r : Rule} :
      r ∈ G.rules → r.left.isEndMarker = false →
      Step G (before ++ r.left :: behind) (before ++ r.right ++ behind)
  | erase {before behind : List Symbol} {s : Symbol} :
      s.isEndMarker = true → Step G (before ++ s :: behind) (before ++ behind)

/-- Any number of derivation steps. -/
abbrev Derives (G : Grammar) : List Symbol → List Symbol → Prop := Relation.ReflTransGen G.Step

variable {G : Grammar} {u v w : List Symbol}

theorem Step.derives (h : G.Step u v) : G.Derives u v := .single h

/-- A step may be taken inside a longer sequence. -/
theorem Step.inside (h : G.Step u v) (before behind : List Symbol) :
    G.Step (before ++ u ++ behind) (before ++ v ++ behind) := by
  cases h with
  | @expand p q r hr hleft =>
      have hstep : G.Step ((before ++ p) ++ r.left :: (q ++ behind))
          ((before ++ p) ++ r.right ++ (q ++ behind)) := .expand hr hleft
      simpa only [List.append_assoc, List.cons_append] using hstep
  | @erase p q s hs =>
      have hstep : G.Step ((before ++ p) ++ s :: (q ++ behind))
          ((before ++ p) ++ (q ++ behind)) := .erase hs
      simpa only [List.append_assoc, List.cons_append] using hstep

theorem Derives.inside (h : G.Derives u v) (before behind : List Symbol) :
    G.Derives (before ++ u ++ behind) (before ++ v ++ behind) :=
  h.lift (fun w => before ++ w ++ behind) fun _ _ hstep => hstep.inside before behind

theorem Derives.append_behind (h : G.Derives u v) (behind : List Symbol) :
    G.Derives (u ++ behind) (v ++ behind) := h.inside [] behind

theorem derives_right {r : Rule} (hr : r ∈ G.rules) (hleft : r.left.isEndMarker = false) :
    G.Derives [r.left] r.right := by
  have hstep : G.Step ([] ++ r.left :: []) ([] ++ r.right ++ []) := .expand hr hleft
  rw [List.nil_append, List.nil_append, List.append_nil] at hstep
  exact hstep.derives

theorem derives_nil_of_isEndMarker {s : Symbol} (hs : s.isEndMarker = true) :
    G.Derives [s] [] := by
  have hstep : G.Step ([] ++ s :: []) ([] ++ []) := .erase hs
  exact hstep.derives

/-- A first symbol that can vanish leaves the derivations of the rest. -/
theorem Derives.cons_of_nil {s : Symbol} (hs : G.Derives [s] []) (h : G.Derives u v) :
    G.Derives (s :: u) v := (hs.append_behind u).trans h

/-- If each symbol of a sequence derives the empty sequence, so does the whole. -/
theorem derives_nil_of_forall (h : ∀ s ∈ u, G.Derives [s] []) : G.Derives u [] := by
  induction u with
  | nil => exact .refl
  | cons s rest ih =>
      obtain ⟨hfirst, hrest⟩ := List.forall_mem_cons.mp h
      exact hfirst.cons_of_nil (ih hrest)

theorem Derives.carry_back {P : List Symbol → Prop} (hback : ∀ u v, G.Step u v → P v → P u)
    (h : G.Derives u v) (hv : P v) : P u :=
  h.head_induction_on hv fun hstep _ hw => hback _ _ hstep hw

end FormalLanguage.Grammar
