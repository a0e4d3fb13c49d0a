import FormalLanguage.Event
import FormalLanguage.Grammar.Lookahead
import FormalLanguage.Iteration.Passes
import FormalLanguage.Iteration.Relaxation

/-!
The records that building a grammar leaves, in the order in which its relations are worked out.
A grammar that is refused leaves none.
-/

namespace FormalLanguage

namespace Grammar

/-- The passes in search of nullable nonterminals, each with how many are known after it. -/
def nullableRecords (G : Grammar) : List Event :=
  let passes := G.nullablePasses
  passes.zipIdx.map (fun (known, i) => .nullablePass (i + 1) known.size) ++
    [.nullableDone (G.nullableSet.filter fun s => !s.isTerminal).size G.nonterminals.size
      passes.length]

/-- The passes over the matrix of left corners. Every pass but the last changes it. -/
def leftCornerRecords (G : Grammar) : List Event :=
  let direct := G.directLeftCorner G.nullableSet
  let passes := direct.matrix.passCount
  (List.range passes).map (fun i => .relaxationPass (i + 1) (i + 1 != passes)) ++
    [.relaxationDone direct.symbols.size direct.close.matrix.size passes]

/-- Everything that building the grammar records. -/
def records (G : Grammar) : List Event :=
  G.nullableRecords ++ G.leftCornerRecords ++
    [.grammarMade G.nonterminals.size G.terminals.size G.rules.length G.start]

/-- What an attempt to build a grammar records, given how it ended. -/
def attemptRecords : Except GrammarFault Grammar → List Event
  | .ok G => G.records
  | .error _ => []

end Grammar

/-!
Building with a record of each step. The checks come first, and a fault ends the attempt there; then
the two relations are worked out, with a report on each pass and a summary behind the last one.
-/

/-- Steps that may end in a fault. What happens is recorded behind what was recorded before, and a
fault takes nothing back. -/
abbrev Recorded := ExceptT GrammarFault (StateM (List Event))

namespace Recorded

def record (e : Event) : Recorded Unit := modify (· ++ [e])

variable {α β : Type} {earlier recorded : List Event}

theorem run_record (e : Event) : (record e).run.run earlier = (.ok (), earlier ++ [e]) := rfl

/-- Steps that cannot fail. -/
theorem run_liftM {steps : StateM (List Event) α} {a : α}
    (h : steps.run earlier = (a, recorded)) :
    (liftM steps : Recorded α).run.run earlier = (.ok a, recorded) :=
  congrArg (fun result : α × List Event => (Except.ok result.1, result.2)) h

theorem run_bind {steps : Recorded α} {next : α → Recorded β} {a : α}
    (h : steps.run.run earlier = (.ok a, recorded)) :
    (steps >>= next).run.run earlier = (next a).run.run recorded := by
  have hbind : (steps >>= next).run.run earlier =
      (ExceptT.bindCont next (steps.run.run earlier).1).run (steps.run.run earlier).2 := rfl
  rw [hbind, h]
  rfl

end Recorded

namespace Grammar

open Recorded

/-- Works out which nonterminals are nullable. -/
def searchRecorded (G : Grammar) : Recorded (SortedSet Symbol) := do
  let (found, passes) ←
    G.nullability.reporting (fun pass known _ => Event.nullablePass pass known.size) 0 ∅
  let nullable := found.insert .endMarker
  record (.nullableDone (nullable.filter fun s => !s.isTerminal).size G.nonterminals.size passes)
  return nullable

/-- Closes the matrix of direct left corners, when the nullable symbols are known. -/
def closeRecorded (G : Grammar) (nullable : SortedSet Symbol) : Recorded SymbolRelation := do
  let direct := G.directLeftCorner nullable
  let (closed, passes) ← (BoolMatrix.relaxation _).reporting
    (fun pass _ changed => Event.relaxationPass pass changed) 0 direct.matrix
  record (.relaxationDone direct.symbols.size closed.size passes)
  return ⟨direct.symbols, closed⟩

/-- Builds a grammar and works out its relations. -/
def buildRecorded (nonterminals terminals : List Symbol) (rules : List Rule) (start : Symbol) :
    Recorded Lookahead := do
  let G ← MonadExcept.ofExcept (build nonterminals terminals rules start)
  let nullable ← G.searchRecorded
  let leftCorner ← G.closeRecorded nullable
  record (.grammarMade G.nonterminals.size G.terminals.size G.rules.length G.start)
  return ⟨G, nullable, leftCorner⟩

/-!
The two loops that work out the relations of a grammar, with what they record on the way. In search
of nullable nonterminals those that are known already are passed over, and a flag is raised for each
one that is found; the matrix of left corners is closed entry by entry. Both loops go on until a
pass raises no flag.
-/

/-- Looks at a nonterminal that is not known to be nullable yet, and raises the flag if it is. -/
def noteFound (G : Grammar) (seen : SortedSet Symbol × Bool) (n : String) :
    SortedSet Symbol × Bool :=
  if .nonterminal n ∈ seen.1 then seen
  else if G.hasVanishingSide seen.1 (.nonterminal n) then (seen.1.insert (.nonterminal n), true)
  else seen

/-- One pass over all nonterminals, and whether it found any. -/
def searchNullable (G : Grammar) (known : SortedSet Symbol) : SortedSet Symbol × Bool :=
  G.nonterminals.toList.foldl G.noteFound (known, false)

/-- The search for nullable nonterminals from nothing on: what it records and what is known in the
end. -/
def NullableLoop (G : Grammar) : List Event → SortedSet Symbol → Prop :=
  ReportingLoop G.searchNullable (fun pass known _ => .nullablePass pass known.size) 0 ∅

/-- The closing of the matrix of direct left corners: what it records and the matrix in the end. -/
def LeftCornerLoop (G : Grammar) :
    List Event → BoolMatrix G.properSymbols.toList.length → Prop :=
  ReportingLoop BoolMatrix.relaxEntries (fun pass _ changed => .relaxationPass pass changed) 0
    (G.directLeftCorner G.nullableSet).matrix

end Grammar

end FormalLanguage
