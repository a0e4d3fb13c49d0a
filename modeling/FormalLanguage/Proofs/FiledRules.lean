import FormalLanguage.Grammar.Basic
import FormalLanguage.Proofs.GrammarFaults
import FormalLanguage.Proofs.NullableDerivations

/-!
Filing rules loses none, doubles none and keeps alternatives in the order in which they were
supplied. One more rule goes behind the rules with its left side and leaves every other group as it
is, and so a whole list is split among the left sides without a change of order. Rules are compared
by their numbers alone, which are all different; so listing what is filed by ascending number gives
one permutation of the supplied rules, and not only rules that compare equal to them.
-/

namespace FormalLanguage

namespace Rule

theorem sorted_perm (rules : List Rule) : (sorted rules).Perm rules := List.mergeSort_perm rules _

theorem isLE_precedence_iff {r s : Rule} : (r.precedence s).isLE = true ↔ r.order ≤ s.order := by
  rw [precedence, Std.isLE_compare]

theorem sorted_ascending {rules : List Rule} (hdistinct : (rules.map Rule.order).Nodup) :
    (sorted rules).Pairwise fun r s => r.order < s.order := by
  have hle : (sorted rules).Pairwise fun r s => r.order ≤ s.order := by
    refine (List.pairwise_mergeSort ?_ ?_ rules).imp fun h => isLE_precedence_iff.mp h
    · intro r s t hrs hst
      rw [isLE_precedence_iff] at hrs hst ⊢
      exact UInt32.le_trans hrs hst
    · intro r s
      rw [Bool.or_eq_true, isLE_precedence_iff, isLE_precedence_iff]
      exact UInt32.le_total r.order s.order
  have hne : (sorted rules).Pairwise fun r s => r.order ≠ s.order := by
    have hnodup := ((sorted_perm rules).map Rule.order).nodup_iff.mpr hdistinct
    exact List.pairwise_map.mp hnodup
  refine (hle.and hne).imp fun {r s} h => ?_
  exact UInt32.lt_of_le_of_ne h.1 h.2

/-- Rules with different numbers are listed alike, however they stood before. -/
theorem sorted_eq_of_perm {rules other : List Rule} (h : rules.Perm other)
    (hdistinct : (rules.map Rule.order).Nodup) : sorted rules = sorted other := by
  have hother : (other.map Rule.order).Nodup := (h.map Rule.order).nodup_iff.mp hdistinct
  have hperm : (sorted rules).Perm (sorted other) :=
    (sorted_perm rules).trans (h.trans (sorted_perm other).symm)
  refine hperm.eq_of_pairwise ?_ (sorted_ascending hdistinct) (sorted_ascending hother)
  exact fun r s _ _ hrs hsr => absurd (UInt32.lt_trans hrs hsr) (UInt32.lt_irrefl _)

end Rule

namespace RuleStore

/-- The new rule is found behind the others with its left side, and for other left sides nothing
changes. -/
theorem lookup_fileInto {groups : List (Symbol × List Rule)}
    (hascending : (groups.map Prod.fst).Pairwise fun s t => compare s t = .lt) (r : Rule)
    (left : Symbol) :
    ((fileInto r groups).lookup left).getD [] =
      (groups.lookup left).getD [] ++ if r.left = left then [r] else [] := by
  induction groups with
  | nil =>
      by_cases hleft : r.left = left
      · simp [fileInto, hleft]
      · simp [fileInto, List.lookup_cons, hleft, beq_false_of_ne (Ne.symm hleft)]
  | cons group groups ih =>
      obtain ⟨key, rules⟩ := group
      cases horder : compare r.left key with
      | lt =>
          by_cases hleft : r.left = left
          · have habsent : left ∉ ((key, rules) :: groups).map Prod.fst :=
              hleft ▸ SortedSet.not_mem_of_lt_head hascending horder
            rw [lookup_of_absent habsent, fileInto, horder]
            simp [hleft]
          · simp [fileInto, horder, List.lookup_cons, hleft, beq_false_of_ne (Ne.symm hleft)]
      | eq =>
          obtain rfl := Std.LawfulEqCmp.eq_of_compare horder
          by_cases hleft : r.left = left
          · simp [fileInto, Std.compare_self, hleft]
          · simp [fileInto, Std.compare_self, List.lookup_cons, hleft,
              beq_false_of_ne (Ne.symm hleft)]
      | gt =>
          simp only [fileInto, horder, List.lookup_cons]
          cases hkey : left == key with
          | true =>
              obtain rfl := beq_iff_eq.mp hkey
              have hleft : r.left ≠ left := by
                rintro rfl
                simp [Std.compare_self] at horder
              simp [hleft]
          | false => exact ih hascending.of_cons

theorem alternatives_file (S : RuleStore) (r : Rule) (left : Symbol) :
    (S.file r).alternatives left = S.alternatives left ++ if r.left = left then [r] else [] :=
  lookup_fileInto S.ascending r left

theorem flatMap_fileInto_perm (r : Rule) (groups : List (Symbol × List Rule)) :
    ((fileInto r groups).flatMap Prod.snd).Perm (groups.flatMap Prod.snd ++ [r]) := by
  induction groups with
  | nil => exact .refl _
  | cons group groups ih =>
      cases horder : compare r.left group.1 with
      | lt =>
          simp only [fileInto, horder]
          exact List.perm_append_comm
      | eq =>
          simp only [fileInto, horder, List.flatMap_cons, List.append_assoc]
          exact List.perm_append_comm.append_left group.2
      | gt =>
          simp only [fileInto, horder, List.flatMap_cons, List.append_assoc]
          exact ih.append_left group.2

theorem rules_file_perm (S : RuleStore) (r : Rule) : (S.file r).rules.Perm (S.rules ++ [r]) :=
  flatMap_fileInto_perm r S.groups

/-- Filing a list of rules leaves each left side with those that have it, in their order. -/
theorem alternatives_foldl_file (S : RuleStore) (rules : List Rule) (left : Symbol) :
    (rules.foldl file S).alternatives left =
      S.alternatives left ++ rules.filter fun r => r.left == left := by
  induction rules generalizing S with
  | nil => simp
  | cons r rules ih =>
      rw [List.foldl_cons, ih, alternatives_file, List.append_assoc, List.filter_cons]
      by_cases hleft : r.left = left
      · simp [hleft]
      · simp [hleft]

theorem rules_foldl_file_perm (S : RuleStore) (rules : List Rule) :
    (rules.foldl file S).rules.Perm (S.rules ++ rules) := by
  induction rules generalizing S with
  | nil => simp
  | cons r rules ih =>
      rw [List.foldl_cons]
      refine (ih (S.file r)).trans ?_
      have hstep := (S.rules_file_perm r).append_right rules
      rwa [List.append_assoc, List.singleton_append] at hstep

end RuleStore

/-- Rules without a fault are all filed. -/
theorem Vocabulary.fileRules_of_sound {V : Vocabulary} {taken : List UInt32} {rules : List Rule}
    (h : V.firstFault? taken rules = none) (S : RuleStore) :
    V.fileRules taken S rules = .ok (rules.foldl RuleStore.file S) := by
  induction rules generalizing taken S with
  | nil => rfl
  | cons r rules ih =>
      obtain ⟨hfirst, hrest⟩ := Option.or_eq_none_iff.mp h
      rw [fileRules, hfirst]
      exact ih hrest (S.file r)

namespace Grammar

theorem firstFault?_rules (G : Grammar) : G.firstFault? [] G.rules = none :=
  Vocabulary.firstFault?_eq_none.mpr
    ⟨G.left_allowed, G.right_allowed, G.orders_distinct, fun _ _ => List.not_mem_nil⟩

/-- The alternatives of all nonterminals are the rules, each once. -/
theorem flatMap_alternatives_perm (G : Grammar) :
    (G.nonterminals.toList.flatMap fun n => G.alternatives (.nonterminal n)).Perm G.rules := by
  have hrules : G.rules.Nodup := .of_map _ G.orders_distinct
  have halternatives :
      (G.nonterminals.toList.flatMap fun n => G.alternatives (.nonterminal n)).Nodup := by
    refine List.nodup_flatMap.mpr ⟨fun n _ => hrules.filter _, ?_⟩
    refine G.nonterminals.nodup_toList.imp fun {m n} hne r hm hn => hne ?_
    have hleft := (mem_alternatives.mp hm).2.symm.trans (mem_alternatives.mp hn).2
    exact Symbol.nonterminal.inj hleft
  refine (List.perm_ext_iff_of_nodup halternatives hrules).mpr fun r => ?_
  rw [List.mem_flatMap]
  constructor
  · rintro ⟨n, _, hr⟩
    exact (mem_alternatives.mp hr).1
  · intro hr
    obtain ⟨n, hn, hleft⟩ := left_declared hr
    exact ⟨n, hn, mem_alternatives.mpr ⟨hr, hleft⟩⟩

/-- No rule is lost, doubled or moved. When a grammar is built, filing the supplied rules under
their left sides succeeds as well. Under a symbol of any kind, declared or not, stand exactly the
supplied rules that have it on the left, in the order in which they were supplied, and these are
the alternatives that the grammar gives. What is filed, listed by ascending order number, is a
permutation of the supplied rules in which every number is greater than the one before. The
alternatives of the declared nonterminals are together as many as the supplied rules. The start
rule is the first supplied one with the start symbol on the left, whatever its number, and there is
none exactly when no rule has it there. -/
theorem build_keeps_rules {nonterminals terminals : List Symbol} {rules : List Rule}
    {start : Symbol} {G : Grammar} (h : build nonterminals terminals rules start = .ok G) :
    ∃ S : RuleStore,
      (Vocabulary.ofSymbols nonterminals terminals).fileRules [] ∅ rules = .ok S ∧
      (∀ A : Symbol, S.alternatives A = rules.filter (fun r => r.left == A) ∧
        G.alternatives A = S.alternatives A) ∧
      S.rulesByOrder.Perm rules ∧ S.rulesByOrder.Pairwise (fun r s => r.order < s.order) ∧
      G.rulesByOrder = S.rulesByOrder ∧
      (G.nonterminals.toList.map fun n => (S.alternatives (.nonterminal n)).length).sum =
        rules.length ∧
      G.startRule? = (S.alternatives (.nonterminal start.name)).head? ∧
      (∀ r, G.startRule? = some r ↔ ∃ earlier later, rules = earlier ++ r :: later ∧
        r.left = .nonterminal start.name ∧ ∀ q ∈ earlier, q.left ≠ .nonterminal start.name) ∧
      (G.startRule? = none ↔ ∀ r ∈ rules, r.left ≠ .nonterminal start.name) := by
  obtain ⟨hvocabulary, rfl, hstart⟩ := parts_of_build_eq_ok h
  have hsound : (Vocabulary.ofSymbols nonterminals terminals).firstFault? [] G.rules = none :=
    hvocabulary ▸ G.firstFault?_rules
  have hfiled (A : Symbol) :
      (G.rules.foldl RuleStore.file ∅).alternatives A = G.alternatives A :=
    RuleStore.alternatives_foldl_file ∅ G.rules A
  have hperm : (G.rules.foldl RuleStore.file ∅).rules.Perm G.rules :=
    RuleStore.rules_foldl_file_perm ∅ G.rules
  have hdistinct : ((G.rules.foldl RuleStore.file ∅).rules.map Rule.order).Nodup :=
    (hperm.map Rule.order).nodup_iff.mpr G.orders_distinct
  have hfirst : G.startRule? = G.rules.find? fun r => r.left == .nonterminal start.name := by
    rw [startRule?, startSymbol, hstart, alternatives, List.head?_filter]
  refine ⟨G.rules.foldl RuleStore.file ∅, Vocabulary.fileRules_of_sound hsound ∅,
    fun A => ⟨hfiled A, (hfiled A).symm⟩, (Rule.sorted_perm _).trans hperm,
    Rule.sorted_ascending hdistinct, (Rule.sorted_eq_of_perm hperm hdistinct).symm, ?_, ?_, ?_, ?_⟩
  · simp only [hfiled]
    rw [← List.length_flatMap, G.flatMap_alternatives_perm.length_eq]
  · rw [hfiled, startRule?, startSymbol, hstart]
  · intro r
    rw [hfirst, List.find?_eq_some_iff_append]
    simp only [beq_iff_eq, Bool.not_eq_true', beq_eq_false_iff_ne]
    constructor
    · rintro ⟨hleft, earlier, later, hsplit, hearlier⟩
      exact ⟨earlier, later, hsplit, hleft, hearlier⟩
    · rintro ⟨earlier, later, hsplit, hleft, hearlier⟩
      exact ⟨hleft, earlier, later, hsplit, hearlier⟩
  · rw [hfirst, List.find?_eq_none]
    simp only [beq_iff_eq]

/-- Rules in which the left sides alternate and the numbers descend, with one that has a twin. -/
def descendingRules : List Rule :=
  [⟨.nonterminal "T", [.terminal "x"], 9⟩, ⟨.nonterminal "S", [.nonterminal "T", .endMarker], 7⟩,
    ⟨.nonterminal "T", [.terminal "x"], 4⟩, ⟨.nonterminal "S", [], 0⟩]

/-- The start rule comes before the other rule of the start symbol although its number is greater,
and the twins are both kept. -/
theorem build_keeps_rules_descendingRules :
    ∃ G, build [.nonterminal "S", .nonterminal "T", .nonterminal "U"] [.terminal "x"]
        descendingRules (.nonterminal "S") = .ok G ∧
      G.startRule? = some ⟨.nonterminal "S", [.nonterminal "T", .endMarker], 7⟩ ∧
      ∃ S : RuleStore, S.rulesByOrder.Perm descendingRules ∧
        S.alternatives (.nonterminal "T") =
          [⟨.nonterminal "T", [.terminal "x"], 9⟩, ⟨.nonterminal "T", [.terminal "x"], 4⟩] := by
  obtain ⟨G, hG⟩ : ∃ G, build [.nonterminal "S", .nonterminal "T", .nonterminal "U"]
      [.terminal "x"] descendingRules (.nonterminal "S") = .ok G :=
    exists_build_eq_ok_iff.mpr (by decide +kernel)
  obtain ⟨S, _, hfiled, hperm, _, _, _, _, hstart, _⟩ := build_keeps_rules hG
  refine ⟨G, hG, ?_, S, hperm, ?_⟩
  · exact (hstart _).mpr ⟨[⟨.nonterminal "T", [.terminal "x"], 9⟩], descendingRules.drop 2, rfl,
      rfl, by decide⟩
  · exact (hfiled _).1.trans (by decide)

end Grammar

end FormalLanguage
