/-!
Records of what happened while automata and grammars were built or run. A record carries the
counts that its message shows; fixed points report each pass in detail and their outcome in
summary.
-/
namespace FormalLanguage

inductive Level where
  | debug
  | trace
deriving DecidableEq

/-- One thing worth recording. -/
inductive Event where
  /-- A transition relation was made. -/
  | relationMade (labeled epsilon : Nat)
  /-- A configuration was closed under epsilon edges. -/
  | closed (statesBefore statesAfter : Nat)
  /-- An automaton was put together. -/
  | automatonMade (inputs edges start accepting : Nat)
  /-- All configurations of an automaton were explored. -/
  | explored (states configurations edges : Nat)
  /-- One pass over the nonterminals was made in search of nullable ones. -/
  | nullablePass (pass symbols : Nat)
  /-- The nullable nonterminals are known. -/
  | nullableDone (nullable nonterminals passes : Nat)
  /-- One pass over the starts-with matrix was made. -/
  | relaxationPass (pass : Nat) (changed : Bool)
  /-- The starts-with relation is known. -/
  | relaxationDone (symbols edges passes : Nat)
  /-- A grammar was built. -/
  | grammarMade (nonterminals terminals rules : Nat) (start : String)
deriving DecidableEq

def Level.text : Level → String
  | debug => "DEBUG"
  | trace => "TRACE"

/-- Whether a record of the second level is kept when details up to the first are wanted. -/
def Level.shows : Level → Level → Bool
  | trace, _ => true
  | debug, debug => true
  | debug, trace => false

namespace Event

/-- Single passes and single closures are details. -/
def level : Event → Level
  | closed .. | nullablePass .. | relaxationPass .. => .trace
  | _ => .debug

def message : Event → String
  | relationMade labeled epsilon =>
      "transfer function: " ++ toString labeled ++ " labeled, " ++ toString epsilon ++
        " epsilon transitions"
  | closed statesBefore statesAfter =>
      "epsilon-closure: " ++ toString statesBefore ++ " states -> " ++ toString statesAfter ++
        " states"
  | automatonMade inputs edges start accepting =>
      "automaton: " ++ toString inputs ++ " inputs, " ++ toString edges ++
        " transitions, start q" ++ toString start ++ ", " ++ toString accepting ++
        " accepting states"
  | explored states configurations edges =>
      "subset construction: " ++ toString states ++ " NFA states -> " ++ toString configurations ++
        " DFA states, " ++ toString edges ++ " transitions"
  | nullablePass pass symbols =>
      "nullable pass " ++ toString pass ++ ": " ++ toString symbols ++ " symbols"
  | nullableDone nullable nonterminals passes =>
      "nullable: " ++ toString nullable ++ " of " ++ toString nonterminals ++
        " nonterminals after " ++ toString passes ++ " passes"
  | relaxationPass pass changed =>
      "starts-with closure pass " ++ toString pass ++ ": changed = " ++ toString changed
  | relaxationDone symbols edges passes =>
      "starts-with: " ++ toString symbols ++ " symbols, " ++ toString edges ++
        " edges, closed after " ++ toString passes ++ " passes"
  | grammarMade nonterminals terminals rules start =>
      "grammar: " ++ toString nonterminals ++ " nonterminals, " ++ toString terminals ++
        " terminals, " ++ toString rules ++ " productions, start " ++ start

end Event

end FormalLanguage
