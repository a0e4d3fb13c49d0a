import FormalLanguage.Grammar.Vocabulary
import FormalLanguage.Order.KeyedSet
import FormalLanguage.Text.Basic

/-!
What can be wrong with a grammar or with a line that declares rules, and how it is reported.
-/

namespace FormalLanguage

/-- Why a grammar, or a line of one, is refused. -/
inductive GrammarFault where
  /-- A name declared both as terminal and as nonterminal. -/
  | ambiguousName (name : String)
  /-- A start symbol that is not a declared nonterminal. -/
  | undeclaredStart (s : Symbol)
  /-- A rule whose left side is not a declared nonterminal. -/
  | undeclaredLeft (r : Rule)
  /-- A symbol on the right side of a rule that was never declared. -/
  | undeclaredRight (s : Symbol) (r : Rule)
  /-- A second rule with an order number already taken. -/
  | repeatedOrder (order : UInt32)
  /-- A line that does not declare rules. -/
  | malformedLine (line : String)
deriving DecidableEq

def GrammarFault.message : GrammarFault → String
  | ambiguousName name => "terminal and nonterminal have the same name: " ++ name
  | undeclaredStart s => "start symbol " ++ s.name ++ " is not a declared nonterminal"
  | undeclaredLeft r => "left side of " ++ r.citation ++ " is not a declared nonterminal"
  | undeclaredRight s r => "unrecognized symbol " ++ s.name ++ " used in " ++ r.citation
  | repeatedOrder order => "more than one production has order " ++ toString order
  | malformedLine line => "malformed production line: " ++ Text.quote line

/-!
Context-free grammars. A grammar is built from lists of symbols and rules, and refused at its
first fault; what is left has a vocabulary that every rule keeps to and rules that their order
numbers tell apart.
-/

namespace Vocabulary

/-- What is wrong with a rule, when the given order numbers are taken already. -/
def fault? (V : Vocabulary) (taken : List UInt32) (r : Rule) : Option GrammarFault :=
  if V.allowsLeft r.left then
    match r.right.find? fun s => !V.allowsRight s with
    | some s => some (.undeclaredRight s r)
    | none => if r.order ∈ taken then some (.repeatedOrder r.order) else none
  else some (.undeclaredLeft r)

/-- What is wrong with the first faulty rule of a list. -/
def firstFault? (V : Vocabulary) (taken : List UInt32) : List Rule → Option GrammarFault
  | [] => none
  | r :: rs => (V.fault? taken r).or (firstFault? V (r.order :: taken) rs)

theorem fault?_eq_none {V : Vocabulary} {taken : List UInt32} {r : Rule} :
    V.fault? taken r = none ↔
      V.allowsLeft r.left = true ∧ (∀ s ∈ r.right, V.allowsRight s = true) ∧
        r.order ∉ taken := by
  unfold fault?
  split
  next hl =>
    split
    next s hs =>
      have found := List.find?_some hs
      have mem := List.mem_of_find?_eq_some hs
      simp only [reduceCtorEq, false_iff]
      rintro ⟨_, h, _⟩
      simp [h s mem] at found
    next hs =>
      have all : ∀ s ∈ r.right, V.allowsRight s = true := by simpa using hs
      by_cases ht : r.order ∈ taken
      · simp [ht]
      · rw [if_neg ht]
        exact ⟨fun _ => ⟨hl, all, ht⟩, fun _ => rfl⟩
  next hl => simp [hl]

theorem firstFault?_eq_none {V : Vocabulary} {taken : List UInt32} {rs : List Rule} :
    V.firstFault? taken rs = none ↔
      (∀ r ∈ rs, V.allowsLeft r.left = true) ∧
      (∀ r ∈ rs, ∀ s ∈ r.right, V.allowsRight s = true) ∧
      (rs.map Rule.order).Nodup ∧ ∀ r ∈ rs, r.order ∉ taken := by
  induction rs generalizing taken with
  | nil => simp [firstFault?]
  | cons r rs ih =>
      rw [firstFault?, Option.or_eq_none_iff, fault?_eq_none, ih]
      simp only [List.mem_cons, forall_eq_or_imp, List.map_cons, List.nodup_cons, List.mem_map,
        not_or, not_exists, not_and]
      constructor
      · rintro ⟨⟨hl, hr, ht⟩, hls, hrs, hn, hts⟩
        exact ⟨⟨hl, hls⟩, ⟨hr, hrs⟩, ⟨fun q hq => (hts q hq).1, hn⟩, ht, fun q hq => (hts q hq).2⟩
      · rintro ⟨⟨hl, hls⟩, ⟨hr, hrs⟩, ⟨hp, hn⟩, ht, hts⟩
        exact ⟨⟨hl, hr, ht⟩, hls, hrs, hn, fun q hq => ⟨hp q hq, hts q hq⟩⟩

end Vocabulary

/-- A context-free grammar. Its rules stand in the order in which they were supplied. -/
structure Grammar extends Vocabulary where
  rules : List Rule
  start : String
  disjoint : ∀ n ∈ nonterminals, n ∉ terminals
  start_declared : start ∈ nonterminals
  left_allowed : ∀ r ∈ rules, toVocabulary.allowsLeft r.left = true
  right_allowed : ∀ r ∈ rules, ∀ s ∈ r.right, toVocabulary.allowsRight s = true
  orders_distinct : (rules.map Rule.order).Nodup

namespace Grammar

/-- Builds a grammar, or reports its first fault: first a name declared as both kinds, then the
start symbol, then the rules one by one, each at its left side, its right side and its order
number. -/
def build (nonterminals terminals : List Symbol) (rules : List Rule) (start : Symbol) :
    Except GrammarFault Grammar :=
  let V := Vocabulary.ofSymbols nonterminals terminals
  match hc : V.ambiguous? with
  | some n => .error (.ambiguousName n)
  | none =>
      if hs : start.name ∈ V.nonterminals then
        match hf : V.firstFault? [] rules with
        | some e => .error e
        | none =>
            have sound := Vocabulary.firstFault?_eq_none.mp hf
            .ok {
              toVocabulary := V
              rules := rules
              start := start.name
              disjoint := fun n hn => by simpa using List.find?_eq_none.mp hc n hn
              start_declared := hs
              left_allowed := sound.1
              right_allowed := sound.2.1
              orders_distinct := sound.2.2.1
            }
      else .error (.undeclaredStart (.nonterminal start.name))

def startSymbol (G : Grammar) : Symbol := .nonterminal G.start

/-- The rules with a given left side, in the order in which they were supplied. -/
def alternatives (G : Grammar) (left : Symbol) : List Rule := G.rules.filter fun r => r.left == left

/-- All rules by ascending order number. -/
def rulesByOrder (G : Grammar) : List Rule := Rule.sorted G.rules

/-- The first alternative of the start symbol. -/
def startRule? (G : Grammar) : Option Rule := (G.alternatives G.startSymbol).head?

theorem left_declared {G : Grammar} {r : Rule} (hr : r ∈ G.rules) :
    ∃ n ∈ G.nonterminals, r.left = .nonterminal n := by
  have hallowed := G.left_allowed r hr
  cases hleft : r.left with
  | nonterminal n =>
      rw [hleft] at hallowed
      have hdeclared : n ∈ G.nonterminals := by
        simpa [Vocabulary.allowsLeft] using hallowed
      exact ⟨n, hdeclared, rfl⟩
  | terminal n => simp [hleft, Vocabulary.allowsLeft] at hallowed

end Grammar

/-!
Filing rules. Rules are looked at one after the other, and each one that has no fault is put behind
those with the same left side. The left sides stand in order, whatever the order of the rules; the
rules of one left side stand as they were supplied. That nothing is lost in this way is a theorem
about it.
-/

/-- Rules filed under their left sides, with the left sides in ascending order. -/
structure RuleStore where
  groups : List (Symbol × List Rule)
  ascending : (groups.map Prod.fst).Pairwise fun s t => compare s t = .lt

namespace RuleStore

instance : EmptyCollection RuleStore := ⟨⟨[], .nil⟩⟩

/-- Puts a rule behind those with its left side, or into a group of its own where there are none. -/
def fileInto (r : Rule) : List (Symbol × List Rule) → List (Symbol × List Rule)
  | [] => [(r.left, [r])]
  | (left, rules) :: groups =>
      match compare r.left left with
      | .lt => (r.left, [r]) :: (left, rules) :: groups
      | .eq => (left, rules ++ [r]) :: groups
      | .gt => (left, rules) :: fileInto r groups

theorem map_fst_fileInto (r : Rule) (groups : List (Symbol × List Rule)) :
    (fileInto r groups).map Prod.fst = SortedSet.place r.left (groups.map Prod.fst) := by
  induction groups with
  | nil => rfl
  | cons group groups ih =>
      cases h : compare r.left group.1 with
      | lt => simp only [fileInto, SortedSet.place, List.map_cons, h]
      | eq => simp only [fileInto, SortedSet.place, List.map_cons, h]
      | gt => simp only [fileInto, SortedSet.place, List.map_cons, h, ih]

/-- The store with one more rule. -/
def file (S : RuleStore) (r : Rule) : RuleStore :=
  ⟨fileInto r S.groups, map_fst_fileInto r S.groups ▸ SortedSet.ascending_place S.ascending⟩

/-- The rules with a given left side. -/
def alternatives (S : RuleStore) (left : Symbol) : List Rule := (S.groups.lookup left).getD []

/-- All rules, group by group. -/
def rules (S : RuleStore) : List Rule := S.groups.flatMap Prod.snd

/-- All rules by ascending order number. -/
def rulesByOrder (S : RuleStore) : List Rule := Rule.sorted S.rules

end RuleStore

/-- Files rules behind those of a store, with the order numbers in use, and stops at the first rule
that has a fault. -/
def Vocabulary.fileRules (V : Vocabulary) (taken : List UInt32) (S : RuleStore) :
    List Rule → Except GrammarFault RuleStore
  | [] => .ok S
  | r :: rs =>
      match V.fault? taken r with
      | some e => .error e
      | none => V.fileRules (r.order :: taken) (S.file r) rs

/-!
Grammars that differ by end markers only. End markers of either kind may be put in and left out
anywhere on the right sides of rules; everything else stays in its place.
-/

/-- One sequence is the other with end markers put in and left out. -/
inductive EndVariant : List Symbol → List Symbol → Prop
  | nil : EndVariant [] []
  | keep {u v : List Symbol} (s : Symbol) : EndVariant u v → EndVariant (s :: u) (s :: v)
  | putIn {u v : List Symbol} {s : Symbol} :
      s.name = Symbol.endName → EndVariant u v → EndVariant u (s :: v)
  | leaveOut {u v : List Symbol} {s : Symbol} :
      s.name = Symbol.endName → EndVariant u v → EndVariant (s :: u) v

/-- Two rules whose right sides differ by end markers only, and which are the same otherwise. -/
structure Rule.Variant (r s : Rule) : Prop where
  left : r.left = s.left
  right : EndVariant r.right s.right
  order : r.order = s.order

/-- Two reports of one fault. They may cite rules that differ by end markers. -/
inductive GrammarFault.Variant : GrammarFault → GrammarFault → Prop
  | same (e : GrammarFault) : Variant e e
  | undeclaredLeft {r s : Rule} :
      r.Variant s → Variant (.undeclaredLeft r) (.undeclaredLeft s)
  | undeclaredRight {r s : Rule} (t : Symbol) :
      r.Variant s → Variant (.undeclaredRight t r) (.undeclaredRight t s)

/-- No symbol in a set is called like an end marker. -/
def EndFree (symbols : SortedSet Symbol) : Prop := ∀ s ∈ symbols, s.name ≠ Symbol.endName

end FormalLanguage
