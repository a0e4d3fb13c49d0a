import FormalLanguage.Proofs.Drafts

/-!
What becomes of the rules of a draft. Each is numbered by its place and reads the names that were
written down; as long as the numbers suffice, they ascend. A name that stands for something turns
into a symbol that the declared vocabulary allows, so the rules that a draft permits are the sound
ones, and the first rule that it does not permit decides the fault.
-/

namespace FormalLanguage

/-- If not all elements have a property, some element without it comes first. -/
theorem exists_first_not {α : Type} {P : α → Prop} {xs : List α} (h : ¬ ∀ x ∈ xs, P x) :
    ∃ before x behind, xs = before ++ x :: behind ∧ (∀ y ∈ before, P y) ∧ ¬ P x := by
  induction xs with
  | nil => exact absurd (fun x hx => nomatch hx) h
  | cons x xs ih =>
      by_cases hx : P x
      · have hrest : ¬ ∀ y ∈ xs, P y := fun hall => h (List.forall_mem_cons.mpr ⟨hx, hall⟩)
        obtain ⟨before, y, behind, rfl, hbefore, hy⟩ := ih hrest
        exact ⟨x :: before, y, behind, rfl, List.forall_mem_cons.mpr ⟨hx, hbefore⟩, hy⟩
      · exact ⟨[], x, xs, rfl, fun y hy => (nomatch hy), hx⟩

namespace Draft

variable {D : Draft} {written : String × List String} {name : String}

@[simp] theorem mem_vocabulary_nonterminals {n : String} :
    n ∈ D.vocabulary.nonterminals ↔ n ∈ D.nonterminals := by simp [vocabulary]

@[simp] theorem mem_vocabulary_terminals {n : String} :
    n ∈ D.vocabulary.terminals ↔ n ∈ D.terminals := by simp [vocabulary]

theorem name_symbolOf (D : Draft) (name : String) : (D.symbolOf name).name = name := by
  unfold symbolOf
  split
  · rfl
  · split
    · rfl
    · exact Symbol.name_ofName name

theorem symbolOf_of_not_resolves (h : ¬ D.Resolves name) : D.symbolOf name = .ofName name := by
  simp only [Resolves, not_or] at h
  rw [symbolOf, if_neg h.1, if_neg h.2.1]

/-- A name stands for something exactly when its symbol may be used. -/
theorem allowsRight_symbolOf :
    D.vocabulary.allowsRight (D.symbolOf name) = true ↔ D.Resolves name := by
  have hend : (D.symbolOf name).isEndMarker = true ↔ name = Symbol.endName := by
    rw [Symbol.isEndMarker, name_symbolOf, beq_iff_eq]
  rw [Vocabulary.allowsRight, Bool.or_eq_true, hend]
  unfold symbolOf Resolves
  split
  next hn => simp [hn]
  next hn =>
    split
    next ht => simp [ht]
    next ht =>
      have hundeclared : D.vocabulary.declares (.ofName name) = false := by
        have hname := Symbol.name_ofName name
        cases hs : Symbol.ofName name with
        | nonterminal m =>
            rw [hs] at hname
            obtain rfl : m = name := hname
            simpa [← Bool.not_eq_true] using hn
        | terminal m =>
            rw [hs] at hname
            obtain rfl : m = name := hname
            simpa [← Bool.not_eq_true] using ht
      simp [hundeclared, hn, ht]

/-- The rule that a draft makes of what was written down at a place. -/
def ruleAt (D : Draft) (i : Nat) (written : String × List String) : Rule :=
  .ofSides (.nonterminal written.1) (written.2.map D.symbolOf) (UInt32.ofNat i)

theorem numberedRules_eq (D : Draft) : D.numberedRules = D.rules.mapIdx D.ruleAt := by
  rw [numberedRules, List.mapIdx_eq_zipIdx_map]
  rfl

theorem map_name_symbolOf (D : Draft) (names : List String) :
    (names.map D.symbolOf).map Symbol.name = names := by
  rw [List.map_map]
  exact (List.map_congr_left fun name _ => D.name_symbolOf name).trans (List.map_id names)

theorem right_ruleAt (D : Draft) (i : Nat) (written : String × List String) :
    (D.ruleAt i written).right =
      if written.2 = [Symbol.endName] then [] else written.2.map D.symbolOf := by
  rw [ruleAt, Rule.right_ofSides, map_name_symbolOf]

theorem reads_ruleAt (D : Draft) (written : String × List String) {i : Nat} (hi : i < 2 ^ 32) :
    Reads written i (D.ruleAt i written) where
  order := UInt32.toNat_ofNat_of_lt' hi
  left := rfl
  right := by
    rw [right_ruleAt]
    split
    · rfl
    · exact D.map_name_symbolOf written.2

theorem allowsLeft_ruleAt {i : Nat} :
    D.vocabulary.allowsLeft (D.ruleAt i written).left = true ↔ written.1 ∈ D.nonterminals := by
  simp [ruleAt, Rule.ofSides, Vocabulary.allowsLeft]

theorem allowsRight_of_permits (h : D.Permits written) {i : Nat} :
    ∀ s ∈ (D.ruleAt i written).right, D.vocabulary.allowsRight s = true := by
  rw [right_ruleAt]
  split
  · exact fun s hs => nomatch hs
  · intro s hs
    obtain ⟨name, hname, rfl⟩ := List.mem_map.mp hs
    exact allowsRight_symbolOf.mpr (h.2 name hname)

theorem ascending_orders (D : Draft) {rules : List (String × List String)}
    (hcount : rules.length ≤ 2 ^ 32) :
    (rules.mapIdx D.ruleAt).Pairwise fun r s => r.order < s.order := by
  rw [List.pairwise_iff_getElem]
  intro i j hi hj hij
  rw [List.length_mapIdx] at hi hj
  have hread : ∀ {k : Nat} (hk : k < rules.length), (D.ruleAt k rules[k]).order.toNat = k :=
    fun hk => (D.reads_ruleAt _ (by omega)).order
  rw [List.getElem_mapIdx, List.getElem_mapIdx, UInt32.lt_iff_toNat_lt, hread hi, hread hj]
  exact hij

/-- Permitted rules are sound, wherever they stand and whatever they are followed by. -/
theorem firstFault?_of_permits {rules : List (String × List String)}
    (hcount : rules.length ≤ 2 ^ 32) (h : ∀ written ∈ rules, D.Permits written) :
    D.vocabulary.firstFault? [] (rules.mapIdx D.ruleAt) = none := by
  rw [Vocabulary.firstFault?_eq_none]
  have hmade : ∀ r ∈ rules.mapIdx D.ruleAt,
      ∃ i written, D.Permits written ∧ D.ruleAt i written = r := by
    intro r hr
    obtain ⟨i, hi, rfl⟩ := List.mem_mapIdx.mp hr
    exact ⟨i, rules[i], h _ (List.getElem_mem hi), rfl⟩
  refine ⟨?_, ?_, ?_, fun _ _ => List.not_mem_nil⟩
  · intro r hr
    obtain ⟨i, written, hpermits, rfl⟩ := hmade r hr
    exact allowsLeft_ruleAt.mpr hpermits.1
  · intro r hr
    obtain ⟨i, written, hpermits, rfl⟩ := hmade r hr
    exact allowsRight_of_permits hpermits
  · exact List.Pairwise.map Rule.order (fun r s hlt => UInt32.ne_of_lt hlt)
      (D.ascending_orders hcount)

/-- A rule that is not permitted has an offence, which is the fault that is found in it. -/
theorem exists_offence {i : Nat} (hi : i < 2 ^ 32) (h : ¬ D.Permits written) :
    ∃ e, D.Offence written i e ∧
      ∀ taken, D.vocabulary.fault? taken (D.ruleAt i written) = some e := by
  by_cases hleft : written.1 ∈ D.nonterminals
  · have hright : ¬ ∀ name ∈ written.2, D.Resolves name := fun hall => h ⟨hleft, hall⟩
    obtain ⟨before, name, behind, hnames, hbefore, hname⟩ := exists_first_not hright
    have hread : (D.ruleAt i written).right =
        before.map D.symbolOf ++ Symbol.ofName name :: behind.map D.symbolOf := by
      have hnotAlone : written.2 ≠ [Symbol.endName] := by
        intro halone
        have hmem : name ∈ [Symbol.endName] := by
          rw [← halone, hnames]
          simp
        exact hname (Or.inr (Or.inr (List.mem_singleton.mp hmem)))
      rw [right_ruleAt, if_neg hnotAlone, hnames, List.map_append, List.map_cons,
        symbolOf_of_not_resolves hname]
    refine ⟨_, .right hleft hnames hbefore hname (D.reads_ruleAt written hi), fun taken => ?_⟩
    apply Vocabulary.fault?_undeclaredRight (allowsLeft_ruleAt.mpr hleft) hread
    · intro s hs
      obtain ⟨earlier, hearlier, rfl⟩ := List.mem_map.mp hs
      exact allowsRight_symbolOf.mpr (hbefore earlier hearlier)
    · rw [← symbolOf_of_not_resolves hname, Bool.eq_false_iff, ne_eq, allowsRight_symbolOf]
      exact hname
  · refine ⟨_, .left hleft (D.reads_ruleAt written hi), fun taken => ?_⟩
    apply Vocabulary.fault?_undeclaredLeft
    rw [Bool.eq_false_iff, ne_eq, allowsLeft_ruleAt]
    exact hleft

theorem ambiguous?_vocabulary_eq_none_iff :
    D.vocabulary.ambiguous? = none ↔ ∀ n ∈ D.nonterminals, n ∉ D.terminals := by
  rw [Vocabulary.ambiguous?_eq_none_iff]
  simp only [mem_vocabulary_nonterminals, mem_vocabulary_terminals]

theorem build_of_ambiguous (h : ∃ n ∈ D.nonterminals, n ∈ D.terminals) :
    ∃ n, IsLeast {m | m ∈ D.nonterminals ∧ m ∈ D.terminals} n ∧
      D.build = .error (.ambiguousName n) := by
  cases hambiguous : D.vocabulary.ambiguous? with
  | none =>
      obtain ⟨n, hnonterminal, hterminal⟩ := h
      exact absurd hterminal (ambiguous?_vocabulary_eq_none_iff.mp hambiguous n hnonterminal)
  | some n =>
      have hleast := Vocabulary.isLeast_of_ambiguous? hambiguous
      simp only [mem_vocabulary_nonterminals, mem_vocabulary_terminals] at hleast
      refine ⟨n, hleast, Grammar.build_of_fault ?_⟩
      rw [ofSymbols_eq_vocabulary]
      exact Vocabulary.verdict_of_ambiguous hambiguous

section Unambiguous

variable (hstart : D.start ∈ D.nonterminals) (hdisjoint : ∀ n ∈ D.nonterminals, n ∉ D.terminals)

include hstart hdisjoint

theorem verdict_numberedRules :
    (Vocabulary.ofSymbols (D.nonterminals.map .nonterminal) (D.terminals.map .terminal)).verdict
      D.numberedRules (.nonterminal D.start) =
        D.vocabulary.firstFault? [] (D.rules.mapIdx D.ruleAt) := by
  rw [ofSymbols_eq_vocabulary, numberedRules_eq]
  exact Vocabulary.verdict_of_unambiguous (ambiguous?_vocabulary_eq_none_iff.mpr hdisjoint)
    (mem_vocabulary_nonterminals.mpr hstart)

variable (hcount : D.rules.length ≤ 2 ^ 32)

include hcount

theorem build_of_permits (h : ∀ written ∈ D.rules, D.Permits written) :
    ∃ G, D.build = .ok G ∧ G.toVocabulary = D.vocabulary ∧ G.rules = D.rules.mapIdx D.ruleAt ∧
      G.start = D.start := by
  have hverdict := verdict_numberedRules hstart hdisjoint
  rw [firstFault?_of_permits hcount h] at hverdict
  obtain ⟨G, hG, hvocabulary, hrules, hGstart⟩ := Grammar.build_of_sound hverdict
  exact ⟨G, hG, hvocabulary.trans D.ofSymbols_eq_vocabulary, hrules.trans D.numberedRules_eq,
    hGstart⟩

theorem build_of_not_permits (h : ¬ ∀ written ∈ D.rules, D.Permits written) :
    ∃ earlier written later e, D.rules = earlier ++ written :: later ∧
      (∀ other ∈ earlier, D.Permits other) ∧ D.Offence written earlier.length e ∧
      D.build = .error e := by
  obtain ⟨earlier, written, later, hrules, hearlier, hwritten⟩ := exists_first_not h
  have hbehind : earlier.length < D.rules.length := by simp [hrules]
  have hplace : earlier.length < 2 ^ 32 := by omega
  obtain ⟨e, hoffence, hfault⟩ := exists_offence hplace hwritten
  refine ⟨earlier, written, later, e, hrules, hearlier, hoffence, ?_⟩
  apply Grammar.build_of_fault
  rw [verdict_numberedRules hstart hdisjoint, hrules, List.mapIdx_append, List.mapIdx_cons,
    Nat.zero_add]
  exact Vocabulary.firstFault?_of_first (firstFault?_of_permits hplace.le hearlier) hfault

end Unambiguous

/-- The rules of a draft stand by order number already. -/
theorem rulesByOrder_eq {G : Grammar} (hrules : G.rules = D.rules.mapIdx D.ruleAt)
    (hcount : D.rules.length ≤ 2 ^ 32) : G.rulesByOrder = D.rules.mapIdx D.ruleAt := by
  rw [Grammar.rulesByOrder, hrules, Rule.sorted]
  apply List.mergeSort_of_pairwise
  refine (D.ascending_orders hcount).imp fun {r s} hlt => ?_
  have hprecedence : r.precedence s = .lt := if_pos hlt
  rw [hprecedence]
  rfl

theorem exists_reads {G : Grammar} (hrules : G.rulesByOrder = D.rules.mapIdx D.ruleAt)
    (hcount : D.rules.length ≤ 2 ^ 32) {i : Nat} (h : D.rules[i]? = some written) :
    ∃ r, G.rulesByOrder[i]? = some r ∧ Reads written i r := by
  have hi : i < D.rules.length := (List.getElem?_eq_some_iff.mp h).1
  refine ⟨D.ruleAt i written, ?_, D.reads_ruleAt written (hi.trans_le hcount)⟩
  rw [hrules, List.getElem?_mapIdx, h, Option.map_some]

/-- What a draft can build. With `D` for all that the additions declare, the start symbol among the
nonterminals, and at most as many rules as there are order numbers: a grammar is built exactly when
no name is declared as both kinds and every rule is permitted. Otherwise the least name declared as
both kinds is reported, or else the offence of the first rule that is not permitted; no other kind
of fault is ever reported. In a grammar that is built the rules have their places for order numbers
and read the names that were written down. -/
theorem build_outcome (start : String) (additions : List Addition)
    (hcount : (ofAdditions start additions).rules.length ≤ 2 ^ 32) :
    let D := ofAdditions start additions
    let outcome := ((new start).addAll additions).build
    ((∃ G, outcome = .ok G) ↔
      (∀ n ∈ D.nonterminals, n ∉ D.terminals) ∧ ∀ written ∈ D.rules, D.Permits written) ∧
    ((∃ n ∈ D.nonterminals, n ∈ D.terminals) →
      ∃ n, IsLeast {m | m ∈ D.nonterminals ∧ m ∈ D.terminals} n ∧
        outcome = .error (.ambiguousName n)) ∧
    ((∀ n ∈ D.nonterminals, n ∉ D.terminals) → (∃ written ∈ D.rules, ¬ D.Permits written) →
      ∃ earlier written later e, D.rules = earlier ++ written :: later ∧
        (∀ other ∈ earlier, D.Permits other) ∧ D.Offence written earlier.length e ∧
        outcome = .error e) ∧
    (∀ s, outcome ≠ .error (.undeclaredStart s)) ∧
    (∀ order, outcome ≠ .error (.repeatedOrder order)) ∧
    (∀ line, outcome ≠ .error (.malformedLine line)) ∧
    (∀ G, outcome = .ok G → G.rulesByOrder.length = D.rules.length ∧
      ∀ (i : Nat) written, D.rules[i]? = some written →
        ∃ r, G.rulesByOrder[i]? = some r ∧ Reads written i r) := by
  intro D outcome
  have houtcome : outcome = D.build := congrArg build (addAll_new start additions)
  have hstart : D.start ∈ D.nonterminals := List.mem_cons_self
  rw [houtcome]
  by_cases hdisjoint : ∀ n ∈ D.nonterminals, n ∉ D.terminals
  · have hnone : ¬ ∃ n ∈ D.nonterminals, n ∈ D.terminals := by simpa using hdisjoint
    by_cases hall : ∀ written ∈ D.rules, D.Permits written
    · obtain ⟨G, hbuild, _, hrules, _⟩ := build_of_permits hstart hdisjoint hcount hall
      have hpermitted : ¬ ∃ written ∈ D.rules, ¬ D.Permits written := by simpa using hall
      rw [hbuild]
      refine ⟨iff_of_true ⟨G, rfl⟩ ⟨hdisjoint, hall⟩, fun h => absurd h hnone,
        fun _ h => absurd h hpermitted, nofun, nofun, nofun, ?_⟩
      intro H hH
      cases hH
      have hsorted := rulesByOrder_eq hrules hcount
      exact ⟨by rw [hsorted, List.length_mapIdx], fun i written => exists_reads hsorted hcount⟩
    · obtain ⟨earlier, written, later, e, hrules, hearlier, hoffence, hbuild⟩ :=
        build_of_not_permits hstart hdisjoint hcount hall
      -- An offence is about the names of a rule, hence none of the three other faults.
      have hother : ∀ f, ¬ D.Offence written earlier.length f →
          (Except.error e : Except GrammarFault Grammar) ≠ .error f := by
        intro f hf h
        cases h
        exact hf hoffence
      rw [hbuild]
      exact ⟨iff_of_false nofun fun h => hall h.2, fun h => absurd h hnone,
        fun _ _ => ⟨earlier, written, later, e, hrules, hearlier, hoffence, rfl⟩,
        fun s => hother _ nofun, fun order => hother _ nofun, fun line => hother _ nofun, nofun⟩
  · have hboth : ∃ n ∈ D.nonterminals, n ∈ D.terminals := by simpa using hdisjoint
    obtain ⟨n, hleast, hbuild⟩ := build_of_ambiguous hboth
    rw [hbuild]
    exact ⟨iff_of_false nofun fun h => hdisjoint h.1, fun _ => ⟨n, hleast, rfl⟩,
      fun h => absurd h hdisjoint, nofun, nofun, nofun, nofun⟩

/-- A terminal that looks like a nonterminal, end markers alone and in company, and a name that is
declared nowhere. -/
def undeclaredName : List Addition :=
  [.rule "S" ["<x>", "$", "T"], .rule "S" ["$"], .terminals ["<x>"], .line "T ::= $ | <x> q",
    .nonterminal "T"]

/-- A rule with the undeclared name is reported, and declaring the name mends the draft. -/
theorem build_outcome_undeclaredName :
    let D := ofAdditions "S" undeclaredName
    let mended := undeclaredName ++ [.terminal "q"]
    D.rules.length ≤ 2 ^ 32 ∧
    (∃ earlier written later e, D.rules = earlier ++ written :: later ∧
      (∀ other ∈ earlier, D.Permits other) ∧ D.Offence written earlier.length e ∧
      ((new "S").addAll undeclaredName).build = .error e) ∧
    (ofAdditions "S" mended).rules.length ≤ 2 ^ 32 ∧
    ∃ G, ((new "S").addAll mended).build = .ok G := by
  intro D mended
  have hcount : D.rules.length ≤ 2 ^ 32 := by decide +kernel
  have hmended : (ofAdditions "S" mended).rules.length ≤ 2 ^ 32 := by decide +kernel
  obtain ⟨_, _, hoffence, _⟩ := build_outcome "S" undeclaredName hcount
  obtain ⟨hbuilt, _⟩ := build_outcome "S" mended hmended
  exact ⟨hcount, hoffence (by decide +kernel) (by decide +kernel), hmended,
    hbuilt.mpr (by decide +kernel)⟩

end Draft

end FormalLanguage
