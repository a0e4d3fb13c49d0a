import FormalLanguage.Grammar.Basic
import FormalLanguage.Proofs.GrammarFaults
import Mathlib.Order.Bounds.Basic

/-!
When a grammar is sound and what is first wrong with it, said of the sets of declared names and of
the rules in the order in which they are supplied. Declarations count by name alone; a use of a
name counts as what it is flagged as, unless the name is that of the end marker.
-/

namespace FormalLanguage

/-- The names of some symbols, whatever their kinds. -/
def Symbol.names (symbols : List Symbol) : Set String := {n | ∃ s ∈ symbols, s.name = n}

namespace Grammar

/-- A nonterminal with one of the given names. -/
def IsNonterminal (N : Set String) (s : Symbol) : Prop := ∃ n ∈ N, s = .nonterminal n

/-- What may stand on a right side, when `N` and `T` hold the names of the nonterminals and of the
terminals. -/
def IsUsable (N T : Set String) (s : Symbol) : Prop :=
  s.name = Symbol.endName ∨ IsNonterminal N s ∨ ∃ n ∈ T, s = .terminal n

/-- Rules that use what is declared and have numbers of their own. -/
structure SoundRules (N T : Set String) (rules : List Rule) : Prop where
  left : ∀ r ∈ rules, IsNonterminal N r.left
  right : ∀ r ∈ rules, ∀ s ∈ r.right, IsUsable N T s
  orders : (rules.map Rule.order).Nodup

/-- What is wrong with a rule behind some earlier ones. Its left side comes first, then the first
symbol on its right side that may not stand there, then its number. -/
inductive RuleFault (N T : Set String) (earlier : List Rule) (r : Rule) : GrammarFault → Prop
  | left : ¬ IsNonterminal N r.left → RuleFault N T earlier r (.undeclaredLeft r)
  | right {before behind : List Symbol} {s : Symbol} :
      IsNonterminal N r.left → r.right = before ++ s :: behind →
      (∀ t ∈ before, IsUsable N T t) → ¬ IsUsable N T s →
      RuleFault N T earlier r (.undeclaredRight s r)
  | order {q : Rule} :
      IsNonterminal N r.left → (∀ s ∈ r.right, IsUsable N T s) →
      q ∈ earlier → q.order = r.order → RuleFault N T earlier r (.repeatedOrder r.order)

/-- Rules none of which has a fault. -/
def Faultless (N T : Set String) (rules : List Rule) : Prop :=
  ∀ earlier r later e, rules = earlier ++ r :: later → ¬ RuleFault N T earlier r e

/-- What is first wrong with a grammar: the least name that is declared as both kinds, or else the
start symbol, or else the first rule that has a fault. -/
inductive FirstFault (N T : Set String) (rules : List Rule) (start : String) :
    GrammarFault → Prop
  | ambiguous {n : String} :
      IsLeast (N ∩ T) n → FirstFault N T rules start (.ambiguousName n)
  | start :
      N ∩ T = ∅ → start ∉ N → FirstFault N T rules start (.undeclaredStart (.nonterminal start))
  | rule {earlier later : List Rule} {r : Rule} {e : GrammarFault} :
      N ∩ T = ∅ → start ∈ N → rules = earlier ++ r :: later → Faultless N T earlier →
      RuleFault N T earlier r e → FirstFault N T rules start e

end Grammar

/-!
Which grammars are accepted, and what is reported of the others. The vocabulary finds the faults
that are defined on the sets of declared names: the first faulty rule is the one at which a walk
along the rules stops, and the numbers collected on the way are those of the rules in front of it.
-/

open Grammar (IsNonterminal IsUsable SoundRules RuleFault Faultless FirstFault)

theorem Symbol.mem_ofList_map_name {symbols : List Symbol} {n : String} :
    n ∈ SortedSet.ofList (symbols.map Symbol.name) ↔ n ∈ Symbol.names symbols := by
  simp [Symbol.names]

namespace Vocabulary

section Names

variable {V : Vocabulary} {N T : Set String} (hN : ∀ n, n ∈ V.nonterminals ↔ n ∈ N)
  (hT : ∀ n, n ∈ V.terminals ↔ n ∈ T)

include hN

theorem allowsLeft_iff {s : Symbol} : V.allowsLeft s = true ↔ IsNonterminal N s := by
  cases s with
  | nonterminal n => simp [allowsLeft, IsNonterminal, hN]
  | terminal n => simp [allowsLeft, IsNonterminal]

include hT

theorem allowsRight_iff {s : Symbol} : V.allowsRight s = true ↔ IsUsable N T s := by
  cases s with
  | nonterminal n =>
      simp [allowsRight, Symbol.isEndMarker, IsUsable, IsNonterminal, hN]
  | terminal n =>
      simp [allowsRight, Symbol.isEndMarker, IsUsable, IsNonterminal, hT]

theorem firstFault?_eq_none_iff {rules : List Rule} :
    V.firstFault? [] rules = none ↔ SoundRules N T rules := by
  rw [firstFault?_eq_none]
  simp only [allowsLeft_iff hN, allowsRight_iff hN hT]
  constructor
  · rintro ⟨hleft, hright, horders, _⟩
    exact ⟨hleft, hright, horders⟩
  · rintro ⟨hleft, hright, horders⟩
    exact ⟨hleft, hright, horders, fun _ _ => List.not_mem_nil⟩

theorem fault?_eq_some_iff {earlier : List Rule} {r : Rule} {e : GrammarFault} :
    V.fault? (earlier.map Rule.order).reverse r = some e ↔ RuleFault N T earlier r e := by
  constructor
  · intro h
    by_cases hleft : V.allowsLeft r.left = true
    · have hl := (allowsLeft_iff hN).mp hleft
      rw [fault?, if_pos hleft] at h
      split at h
      next s hs =>
        cases h
        obtain ⟨hnot, before, behind, hright, hbefore⟩ := List.find?_eq_some_iff_append.mp hs
        refine .right hl hright (fun t ht => ?_) fun hs => ?_
        · exact (allowsRight_iff hN hT).mp (by simpa using hbefore t ht)
        · simp [(allowsRight_iff hN hT).mpr hs] at hnot
      next hs =>
        have hright : ∀ s ∈ r.right, IsUsable N T s := fun s hmem =>
          (allowsRight_iff hN hT).mp (by simpa using List.find?_eq_none.mp hs s hmem)
        split at h
        next htaken =>
          cases h
          obtain ⟨q, hq, horder⟩ : ∃ q ∈ earlier, q.order = r.order := by simpa using htaken
          exact .order hl hright hq horder
        next => cases h
    · rw [fault?_undeclaredLeft (Bool.eq_false_iff.mpr hleft)] at h
      cases h
      exact .left fun hl => hleft ((allowsLeft_iff hN).mpr hl)
  · intro h
    cases h with
    | left hleft =>
        exact fault?_undeclaredLeft
          (Bool.eq_false_iff.mpr fun hl => hleft ((allowsLeft_iff hN).mp hl))
    | right hleft hright hbefore hs =>
        exact fault?_undeclaredRight ((allowsLeft_iff hN).mpr hleft) hright
          (fun t ht => (allowsRight_iff hN hT).mpr (hbefore t ht))
          (Bool.eq_false_iff.mpr fun hu => hs ((allowsRight_iff hN hT).mp hu))
    | order hleft hright hq horder =>
        have hfind : r.right.find? (fun s => !V.allowsRight s) = none :=
          List.find?_eq_none.mpr fun s hs => by simp [(allowsRight_iff hN hT).mpr (hright s hs)]
        have htaken : r.order ∈ (earlier.map Rule.order).reverse := by
          simpa using ⟨_, hq, horder⟩
        rw [fault?, if_pos ((allowsLeft_iff hN).mpr hleft), hfind, if_pos htaken]

theorem firstFault?_eq_some_iff_ruleFault {rules : List Rule} {e : GrammarFault} :
    V.firstFault? [] rules = some e ↔
      ∃ earlier r later, rules = earlier ++ r :: later ∧ V.firstFault? [] earlier = none ∧
        RuleFault N T earlier r e := by
  rw [firstFault?_eq_some_iff]
  simp only [List.append_nil, fault?_eq_some_iff hN hT]

theorem firstFault?_eq_none_iff_faultless {rules : List Rule} :
    V.firstFault? [] rules = none ↔ Faultless N T rules := by
  constructor
  · intro hnone earlier r later e hrules hr
    -- A fault among the rules in front of the faulty one would be reported as well.
    cases hearlier : V.firstFault? [] earlier with
    | none =>
        rw [(firstFault?_eq_some_iff_ruleFault hN hT).mpr
          ⟨earlier, r, later, hrules, hearlier, hr⟩] at hnone
        cases hnone
    | some d =>
        obtain ⟨before, q, behind, hbehind, hbefore, hq⟩ :=
          (firstFault?_eq_some_iff_ruleFault hN hT).mp hearlier
        have hsplit : rules = before ++ q :: (behind ++ r :: later) := by simp [hrules, hbehind]
        rw [(firstFault?_eq_some_iff_ruleFault hN hT).mpr ⟨before, q, _, hsplit, hbefore, hq⟩]
          at hnone
        cases hnone
  · intro hfaultless
    cases h : V.firstFault? [] rules with
    | none => rfl
    | some e =>
        obtain ⟨earlier, r, later, hrules, _, hr⟩ :=
          (firstFault?_eq_some_iff_ruleFault hN hT).mp h
        exact absurd hr (hfaultless earlier r later e hrules)

theorem ambiguous?_eq_none_iff_disjoint : V.ambiguous? = none ↔ N ∩ T = ∅ := by
  rw [ambiguous?_eq_none_iff, Set.eq_empty_iff_forall_notMem]
  simp only [hN, hT, Set.mem_inter_iff, not_and]

theorem isLeast_inter {n : String} (h : V.ambiguous? = some n) : IsLeast (N ∩ T) n := by
  have hleast := isLeast_of_ambiguous? h
  simp only [hN, hT] at hleast
  exact hleast

theorem verdict_eq_some_iff {rules : List Rule} {start : Symbol} {e : GrammarFault} :
    V.verdict rules start = some e ↔ FirstFault N T rules start.name e := by
  cases hambiguous : V.ambiguous? with
  | some n =>
      have hleast := isLeast_inter hN hT hambiguous
      have hne : N ∩ T ≠ ∅ := Set.nonempty_iff_ne_empty.mp ⟨n, hleast.1⟩
      rw [verdict_of_ambiguous hambiguous]
      constructor
      · rintro ⟨⟩
        exact .ambiguous hleast
      · intro hfault
        cases hfault with
        | ambiguous hother => rw [hother.unique hleast]
        | start hempty _ => exact absurd hempty hne
        | rule hempty _ _ _ _ => exact absurd hempty hne
  | none =>
      have hempty := (ambiguous?_eq_none_iff_disjoint hN hT).mp hambiguous
      by_cases hstart : start.name ∈ V.nonterminals
      · rw [verdict_of_unambiguous hambiguous hstart, firstFault?_eq_some_iff_ruleFault hN hT]
        simp only [firstFault?_eq_none_iff_faultless hN hT]
        constructor
        · rintro ⟨earlier, r, later, hrules, hearlier, hr⟩
          exact .rule hempty ((hN _).mp hstart) hrules hearlier hr
        · intro hfault
          cases hfault with
          | ambiguous hleast => exact absurd hleast.1 (hempty ▸ Set.notMem_empty _)
          | start _ hnot => exact absurd ((hN _).mp hstart) hnot
          | rule _ _ hrules hearlier hr => exact ⟨_, _, _, hrules, hearlier, hr⟩
      · have hnot : start.name ∉ N := fun hmem => hstart ((hN _).mpr hmem)
        rw [verdict_of_undeclaredStart hambiguous hstart]
        constructor
        · rintro ⟨⟩
          exact .start hempty hnot
        · intro hfault
          cases hfault with
          | ambiguous hleast => exact absurd hleast.1 (hempty ▸ Set.notMem_empty _)
          | start _ _ => rfl
          | rule _ hmem _ _ _ => exact absurd hmem hnot

theorem verdict_eq_none_iff {rules : List Rule} {start : Symbol} :
    V.verdict rules start = none ↔ N ∩ T = ∅ ∧ start.name ∈ N ∧ SoundRules N T rules := by
  rw [← ambiguous?_eq_none_iff_disjoint hN hT, ← hN, ← firstFault?_eq_none_iff hN hT, verdict,
    Option.or_eq_none_iff, Option.map_eq_none_iff]
  refine and_congr_right fun _ => ?_
  by_cases hstart : start.name ∈ V.nonterminals
  · simp [hstart]
  · simp [hstart]

end Names

theorem ofSymbols_congr {nonterminals nonterminals' terminals terminals' : List Symbol}
    (hnonterminals : Symbol.names nonterminals = Symbol.names nonterminals')
    (hterminals : Symbol.names terminals = Symbol.names terminals') :
    ofSymbols nonterminals terminals = ofSymbols nonterminals' terminals' := by
  refine congrArg₂ Vocabulary.mk (SortedSet.ext fun n => ?_) (SortedSet.ext fun n => ?_)
  · rw [Symbol.mem_ofList_map_name, hnonterminals, Symbol.mem_ofList_map_name]
  · rw [Symbol.mem_ofList_map_name, hterminals, Symbol.mem_ofList_map_name]

end Vocabulary

namespace Grammar

/-- How building a grammar ends, for the sets `N` and `T` of the names that are declared as
nonterminals and as terminals. The fault that is reported is the first one: the least name in both
sets, or else the start symbol, or else what is wrong with the first faulty rule. A grammar is
accepted exactly when there is no fault to report, that is when no name is in both sets, the start
symbol is declared and the rules are sound, and then it holds what was supplied. How the supplied
symbols are flagged makes no difference where they are declared. -/
theorem build_first_fault (nonterminals terminals : List Symbol) (rules : List Rule)
    (start : Symbol) :
    let N := Symbol.names nonterminals
    let T := Symbol.names terminals
    let outcome := build nonterminals terminals rules start
    (∀ e, outcome = .error e ↔ FirstFault N T rules start.name e) ∧
    ((∃ G, outcome = .ok G) ↔ ∀ e, ¬ FirstFault N T rules start.name e) ∧
    ((∃ G, outcome = .ok G) ↔ N ∩ T = ∅ ∧ start.name ∈ N ∧ SoundRules N T rules) ∧
    (∀ G, outcome = .ok G → (∀ n, n ∈ G.nonterminals ↔ n ∈ N) ∧
      (∀ n, n ∈ G.terminals ↔ n ∈ T) ∧ G.rules = rules ∧ G.start = start.name) ∧
    (∀ nonterminals' terminals' start', Symbol.names nonterminals' = N →
      Symbol.names terminals' = T → start'.name = start.name →
      build nonterminals' terminals' rules start' = outcome) := by
  intro N T outcome
  have hN : ∀ n, n ∈ (Vocabulary.ofSymbols nonterminals terminals).nonterminals ↔ n ∈ N :=
    fun _ => Symbol.mem_ofList_map_name
  have hT : ∀ n, n ∈ (Vocabulary.ofSymbols nonterminals terminals).terminals ↔ n ∈ T :=
    fun _ => Symbol.mem_ofList_map_name
  refine ⟨fun e => build_eq_error_iff.trans (Vocabulary.verdict_eq_some_iff hN hT), ?_,
    exists_build_eq_ok_iff.trans (Vocabulary.verdict_eq_none_iff hN hT), ?_, ?_⟩
  · rw [exists_build_eq_ok_iff, Option.eq_none_iff_forall_ne_some]
    exact forall_congr' fun e => not_congr (Vocabulary.verdict_eq_some_iff hN hT)
  · intro G hG
    obtain ⟨hvocabulary, hrules, hstart⟩ := parts_of_build_eq_ok hG
    rw [hvocabulary]
    exact ⟨hN, hT, hrules, hstart⟩
  · intro nonterminals' terminals' start' hnonterminals hterminals hstart
    exact build_congr (Vocabulary.ofSymbols_congr hnonterminals hterminals) hstart

/-- A sound rule, one with an undeclared symbol and a number that is taken, and one whose left side
is a terminal. -/
def muddledRules : List Rule :=
  [⟨.nonterminal "S", [.nonterminal "A", .nonterminal "$", .terminal "a"], 1⟩,
    ⟨.nonterminal "A", [.terminal "a", .terminal "x", .terminal "A"], 1⟩,
    ⟨.terminal "a", [], 2⟩]

/-- The fault that is reported is the undeclared symbol, with the flags of the declared symbols and
of the start symbol wrong and right. Without the faulty rules the grammar is built. -/
theorem build_first_fault_muddledRules :
    let muddled : List Symbol := [.terminal "S", .nonterminal "A"]
    let N := Symbol.names muddled
    let T := Symbol.names [.nonterminal "a"]
    let fault : GrammarFault := .undeclaredRight (.terminal "x")
      ⟨.nonterminal "A", [.terminal "a", .terminal "x", .terminal "A"], 1⟩
    build muddled [.nonterminal "a"] muddledRules (.terminal "S") = .error fault ∧
    FirstFault N T muddledRules "S" fault ∧
    Symbol.names [.nonterminal "S", .nonterminal "A"] = N ∧ Symbol.names [.terminal "a"] = T ∧
    build [.nonterminal "S", .nonterminal "A"] [.terminal "a"] muddledRules (.nonterminal "S") =
      .error fault ∧
    ∃ G, build muddled [.nonterminal "a"] (muddledRules.take 1) (.terminal "S") = .ok G ∧
      G.rules = muddledRules.take 1 ∧ G.start = "S" := by
  intro muddled N T fault
  obtain ⟨herror, _, _, _, hsame⟩ :=
    build_first_fault muddled [.nonterminal "a"] muddledRules (.terminal "S")
  obtain ⟨_, _, _, hparts, _⟩ :=
    build_first_fault muddled [.nonterminal "a"] (muddledRules.take 1) (.terminal "S")
  have hfault : build muddled [.nonterminal "a"] muddledRules (.terminal "S") = .error fault :=
    build_of_fault (by decide +kernel)
  have hnonterminals : Symbol.names [.nonterminal "S", .nonterminal "A"] = N := by
    simp [N, muddled, Symbol.names]
  have hterminals : Symbol.names [.terminal "a"] = T := by simp [T, Symbol.names]
  obtain ⟨G, hG⟩ : ∃ G, build muddled [.nonterminal "a"] (muddledRules.take 1) (.terminal "S") =
      .ok G := exists_build_eq_ok_iff.mpr (by decide +kernel)
  refine ⟨hfault, (herror fault).mp hfault, hnonterminals, hterminals, ?_, G, hG, ?_⟩
  · exact (hsame _ _ (.nonterminal "S") hnonterminals hterminals rfl).trans hfault
  · exact (hparts G hG).2.2

end Grammar

end FormalLanguage
