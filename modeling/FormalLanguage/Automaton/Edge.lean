import FormalLanguage.Order.SortedSet

/-!
Letters, words and alphabets. A letter is a text of any length, the empty one included; a text
is read character by character when each of its characters is one letter.
-/

namespace FormalLanguage

/-- What an automaton reads at one time: a single character or a short token. -/
abbrev Letter := String

/-- A finite sequence of letters. -/
abbrev Word := List Letter

/-- The word of a text that is read one character at a time. -/
def Word.ofText (text : String) : Word := text.toList.map String.singleton

/-- A finite set of letters. -/
abbrev Alphabet := SortedSet Letter

/-- Adds every character of a text as a letter of its own. -/
def Alphabet.addChars (alphabet : Alphabet) (text : String) : Alphabet :=
  (Word.ofText text).foldl (fun known a => SortedSet.insert a known) alphabet

/-!
Edges between states. An edge either reads one letter or, when it has no label, reads nothing;
the empty text is a letter like any other.
-/

/-- A state is only a number; all its behavior comes from the edges that mention it. -/
abbrev State := UInt32

/-- An edge from one state to another. Without a label it is an epsilon edge. -/
structure Edge where
  source : State
  target : State
  label : Option Letter
deriving DecidableEq

namespace Edge

/-- Edges are ordered by source, then by target, then by label, epsilon edges before labelled
ones. -/
def order : Edge → Edge → Ordering :=
  compareLex (compareOn source) (compareLex (compareOn target) (compareOn label))

instance : Std.TransCmp order :=
  inferInstanceAs (Std.TransCmp (compareLex (compareOn source)
    (compareLex (compareOn target) (compareOn label))))

instance : Ord Edge := ⟨order⟩

instance : Std.TransOrd Edge := inferInstanceAs (Std.TransCmp order)

instance : Std.LawfulEqOrd Edge where
  compare_self {e} := show order e e = .eq from Std.ReflCmp.compare_self
  eq_of_compare {d e} h := by
    obtain ⟨hs, h⟩ := compareLex_eq_eq.mp h
    obtain ⟨ht, hl⟩ := compareLex_eq_eq.mp h
    cases d
    cases e
    rw [Edge.mk.injEq]
    exact ⟨Std.LawfulEqCmp.eq_of_compare hs, Std.LawfulEqCmp.eq_of_compare ht,
      Std.LawfulEqCmp.eq_of_compare hl⟩

def isEpsilon (e : Edge) : Bool := e.label.isNone

@[simp] theorem isEpsilon_iff {e : Edge} : e.isEpsilon = true ↔ e.label = none :=
  Option.isNone_iff_eq_none

@[simp] theorem isEpsilon_eq_false_iff {e : Edge} : e.isEpsilon = false ↔ e.label ≠ none :=
  Bool.eq_false_iff.trans (not_congr isEpsilon_iff)

/-- What a deterministic automaton may use only once: the source together with the label. -/
def key (e : Edge) : State × Option Letter := (e.source, e.label)

/-- Whether the edge reads nothing or a letter of the alphabet. -/
def readsFrom (alphabet : Alphabet) (e : Edge) : Bool :=
  match e.label with
  | none => true
  | some a => decide (a ∈ alphabet)

def stateText (q : State) : String := "q" ++ toString q

/-- Epsilon edges have a sign of their own in messages. -/
def labelText : Option Letter → String
  | none => "ε"
  | some a => a

def text (e : Edge) : String :=
  stateText e.source ++ " --" ++ labelText e.label ++ "--> " ++ stateText e.target

end Edge

/-!
Patterns that pick out edges by source, target and label. A field that is not set matches
everything, and a field that is set twice keeps its last value.
-/

inductive LabelPattern where
  | any
  | epsilon
  | letter (a : Letter)
deriving DecidableEq

structure EdgePattern where
  source : Option State := none
  target : Option State := none
  label : LabelPattern := .any
deriving DecidableEq

/-- One demand added to a pattern. Asking for a label and asking for an epsilon edge set the same
field. -/
inductive PatternSetting where
  | source (q : State)
  | target (q : State)
  | label (a : Letter)
  | epsilon
deriving DecidableEq

/-- Whether a label satisfies the pattern. -/
def LabelPattern.admits : LabelPattern → Option Letter → Bool
  | any, _ => true
  | epsilon, label => label.isNone
  | letter a, label => label == some a

namespace EdgePattern

def set (p : EdgePattern) : PatternSetting → EdgePattern
  | .source q => { p with source := some q }
  | .target q => { p with target := some q }
  | .label a => { p with label := .letter a }
  | .epsilon => { p with label := .epsilon }

/-- The pattern left after a sequence of settings, starting from one that matches every edge. -/
def ofSettings (settings : List PatternSetting) : EdgePattern := settings.foldl set {}

/-- The pattern with the given fields. A missing label admits epsilon edges too. -/
def ofFields (source target : Option State) (label : Option Letter) : EdgePattern where
  source := source
  target := target
  label := match label with
    | none => .any
    | some a => .letter a

/-- Whether an edge satisfies every demand of the pattern. -/
def admits (p : EdgePattern) (e : Edge) : Bool :=
  p.source.all (e.source == ·) && p.target.all (e.target == ·) && p.label.admits e.label

end EdgePattern

end FormalLanguage
