import FormalLanguage.Proofs.Codecs
import FormalLanguage.Proofs.CornerReadings

/-!
Exchange by an implementation that keeps the laws. With the fields of the types put in, reading
takes exactly the values that denote something of the type, and each of them comes back from what
is written for it. The implementation of this library is one that keeps the laws.
-/

namespace FormalLanguage

namespace Exchange.Documented

variable {E : Exchange} (h : E.Documented) {v : Value}

include h

theorem letter_scalar : E.letter.Scalar .text := h.letter ▸ h.text

theorem letter_read_iff {a : Letter} : E.letter.read v = some a ↔ a.DenotedBy v := by
  rw [h.letter_scalar.read_iff]
  constructor
  · rintro rfl
    exact .text a
  · rintro ⟨⟩
    rfl

theorem label_reads_iff {e : Edge} {given : Option Value} :
    (⟨"label", Edge.label, E.label, true⟩ : Field Edge).Reads e given ↔
      match e.label with
      | none => given = some .null ∨ given = none
      | some a => given = some (.text a) := by
  rw [Field.reads_iff_getD]
  cases e.label with
  | none =>
      rw [h.label.read_none_iff]
      cases given <;> simp
  | some a =>
      rw [h.label.read_some_iff, h.letter_scalar.read_iff]
      cases given with
      | none => simp
      | some w => simpa using fun hw : w = .text a => hw ▸ Value.noConfusion

theorem edge_read_iff (hv : v.WellFormed) {e : Edge} :
    E.edge.read v = some e ↔ e.DenotedBy v := by
  rw [h.edge.read_iff hv]
  simp only [edgeFields, List.forall₂_cons_left_iff, List.forall₂_nil_left_iff,
    Field.reads_iff_of_scalar h.number, h.label_reads_iff, exists_and_left, exists_eq_left]
  constructor
  · rintro ⟨_, hv, _, ⟨_, ⟨given, hlabel, rfl⟩, rfl⟩, rfl⟩
    obtain ⟨source, target, label⟩ := e
    cases label with
    | none =>
        rcases hlabel with rfl | rfl
        · exact .epsilon hv
        · exact .missing hv
    | some a =>
        obtain rfl := hlabel
        exact .labeled hv
  · rintro (hv | hv | hv)
    · exact ⟨_, hv, _, ⟨_, ⟨_, rfl, rfl⟩, rfl⟩, rfl⟩
    · exact ⟨_, hv, _, ⟨_, ⟨_, Or.inl rfl, rfl⟩, rfl⟩, rfl⟩
    · exact ⟨_, hv, _, ⟨_, ⟨_, Or.inr rfl, rfl⟩, rfl⟩, rfl⟩

theorem symbol_read_iff (hv : v.WellFormed) {s : Symbol} :
    E.symbol.read v = some s ↔ s.DenotedBy v := by
  rw [h.symbol.read_iff hv]
  simp only [symbolFields, List.forall₂_cons_left_iff, List.forall₂_nil_left_iff,
    Field.reads_iff_of_scalar h.text, Field.reads_iff_of_scalar h.boolean, exists_and_left,
    exists_eq_left, exists_eq_right]
  constructor
  · intro hv
    cases s with
    | nonterminal name => exact .nonterminal hv
    | terminal name => exact .terminal hv
  · rintro (hv | hv)
    · exact hv
    · exact hv

theorem symbols_read_iff (hv : v.WellFormed) {symbols : List Symbol} :
    E.symbols.read v = some symbols ↔
      ∃ items, v = .list items ∧ List.Forall₂ Symbol.DenotedBy symbols items := by
  rw [h.symbols.read_iff]
  refine exists_congr fun items => and_congr_right ?_
  rintro rfl
  cases hv with
  | list hitems => exact forall₂_congr_right fun w hw _ => h.symbol_read_iff (hitems w hw)

theorem symbolSet_read_iff (hv : v.WellFormed) {S : SortedSet Symbol} :
    E.symbolSet.read v = some S ↔
      ∃ items symbols, v = .list items ∧ List.Forall₂ Symbol.DenotedBy symbols items ∧
        ∀ s, s ∈ S ↔ s ∈ symbols := by
  rw [h.symbolSet.read_iff]
  refine exists_congr fun items => exists_congr fun symbols => and_congr_right ?_
  rintro rfl
  cases hv with
  | list hitems =>
      rw [forall₂_congr_right fun w hw _ => h.symbol_read_iff (hitems w hw)]

theorem rule_read_iff (hv : v.WellFormed) {r : Rule} :
    E.rule.read v = some r ↔ r.DenotedBy v := by
  rw [h.rule.read_iff hv]
  simp only [ruleFields, List.forall₂_cons_left_iff, List.forall₂_nil_left_iff, Field.reads_iff,
    Field.reads_iff_of_scalar h.number, exists_and_left, exists_eq_left]
  constructor
  · rintro ⟨_, hgiven, _, ⟨w, rfl, hleft⟩, _, ⟨_, ⟨u, rfl, hright⟩, rfl⟩, rfl⟩
    obtain ⟨items, rfl, hsymbols⟩ :=
      (h.symbols_read_iff (hgiven.wellFormed hv (by simp))).mp hright
    exact .sides hgiven ((h.symbol_read_iff (hgiven.wellFormed hv (by simp))).mp hleft) hsymbols
  · rintro @⟨_, _, _, _, w, items, hgiven, hleft, hright⟩
    have hread := (h.symbol_read_iff (hgiven.wellFormed hv (by simp))).mpr hleft
    have hreads := (h.symbols_read_iff (hgiven.wellFormed hv (by simp))).mpr ⟨items, rfl, hright⟩
    exact ⟨_, hgiven, _, ⟨w, rfl, hread⟩, _, ⟨_, ⟨_, rfl, hreads⟩, rfl⟩, rfl⟩

theorem firstSet_read_iff (hv : v.WellFormed) {F : FirstSet} :
    E.firstSet.read v = some F ↔ F.DenotedBy v := by
  rw [h.firstSet.read_iff hv]
  simp only [firstSetFields, List.forall₂_cons_left_iff, List.forall₂_nil_left_iff,
    Field.reads_iff, Field.reads_iff_of_scalar h.boolean, exists_and_left, exists_eq_left]
  constructor
  · rintro ⟨_, hgiven, _, ⟨u, rfl, hread⟩, rfl⟩
    obtain ⟨items, symbols, rfl, hsymbols, hmem⟩ :=
      (h.symbolSet_read_iff (hgiven.wellFormed hv (by simp))).mp hread
    exact .listed hgiven hsymbols hmem
  · rintro @⟨_, _, symbols, _, items, hgiven, hsymbols, hmem⟩
    have hread := (h.symbolSet_read_iff (hgiven.wellFormed hv (by simp))).mpr
      ⟨items, symbols, rfl, hsymbols, hmem⟩
    exact ⟨_, hgiven, _, ⟨_, rfl, hread⟩, rfl⟩

theorem letter_restores : E.letter.Restores := h.letter_scalar.restores

theorem label_restores : E.label.Restores := by
  refine h.label.restores h.letter_restores fun a => ?_
  rw [h.letter_scalar.writes]
  simp

theorem edge_restores : E.edge.Restores :=
  h.edge.restores (by simp [edgeFields])
    (by simp [edgeFields, h.number.restores, h.label_restores])

theorem symbol_restores : E.symbol.Restores :=
  h.symbol.restores (by simp [symbolFields])
    (by simp [symbolFields, h.text.restores, h.boolean.restores])

theorem rule_restores : E.rule.Restores :=
  h.rule.restores (by simp [ruleFields]) (by
    simp [ruleFields, h.symbol_restores, h.symbols.restores h.symbol_restores,
      h.number.restores])

theorem firstSet_restores : E.firstSet.Restores :=
  h.firstSet.restores (by simp [firstSetFields]) (by
    simp [firstSetFields, h.symbolSet.restores h.symbol_restores, h.boolean.restores])

end Exchange.Documented

/-- Writing and reading go together: whatever was written is read as what it was; what is read of
all well-formed values are those that denote something, each as what it denotes; and to write down
what was read and to read this makes no difference. -/
structure Codec.RoundTrips {α : Type} (c : Codec α) (Denoted : α → Value → Prop) : Prop where
  restored : ∀ x, c.read (c.write x) = some x
  accepted : ∀ v x, v.WellFormed → (c.read v = some x ↔ Denoted x v)
  settled : ∀ v, (c.read v).bind (fun x => c.read (c.write x)) = c.read v

theorem Codec.Restores.roundTrips {α : Type} {c : Codec α} {Denoted : α → Value → Prop}
    (h : c.Restores) (haccepted : ∀ v x, v.WellFormed → (c.read v = some x ↔ Denoted x v)) :
    c.RoundTrips Denoted where
  restored := h
  accepted := haccepted
  settled v := by
    cases c.read v with
    | none => rfl
    | some x => exact h x

/-- Letters, edges, symbols, rules and FIRST sets survive writing and reading with all that they
consist of, whatever implementation they are exchanged by, as long as it keeps the laws. They are
read from every form that denotes them: at every level a record may also be given as the list of its
fields, and what was read from any such form survives as well. A right side that is a lone end
marker is kept, although making a rule from its sides would drop it; and the terminals of a FIRST
set are in order and without repetition, however they were listed. -/
theorem exchange_roundTrips (E : Exchange) (hdocumented : E.Documented) :
    E.letter.RoundTrips Letter.DenotedBy ∧ E.edge.RoundTrips Edge.DenotedBy ∧
    E.symbol.RoundTrips Symbol.DenotedBy ∧ E.rule.RoundTrips Rule.DenotedBy ∧
    E.firstSet.RoundTrips FirstSet.DenotedBy ∧
    (∀ (left : Symbol) (order : UInt32), let r : Rule := ⟨left, [.endMarker], order⟩
      E.rule.read (E.rule.write r) = some r ∧ Rule.ofSides r.left r.right r.order ≠ r) ∧
    ∀ F : FirstSet, F.terminals.toList.Pairwise Symbol.Before ∧ F.terminals.toList.Nodup := by
  refine ⟨hdocumented.letter_restores.roundTrips fun _ _ _ => hdocumented.letter_read_iff,
    hdocumented.edge_restores.roundTrips fun _ _ hv => hdocumented.edge_read_iff hv,
    hdocumented.symbol_restores.roundTrips fun _ _ hv => hdocumented.symbol_read_iff hv,
    hdocumented.rule_restores.roundTrips fun _ _ hv => hdocumented.rule_read_iff hv,
    hdocumented.firstSet_restores.roundTrips fun _ _ hv => hdocumented.firstSet_read_iff hv, ?_,
    fun F => ⟨F.terminals.pairwise_before, F.terminals.nodup_toList⟩⟩
  intro left order r
  refine ⟨hdocumented.rule_restores r, fun hsame => ?_⟩
  cases congrArg Rule.right hsame

namespace Exchange

/-- The implementation that this library comes with. -/
def plain : Exchange where
  text := ⟨.text, Value.asText?⟩
  boolean := ⟨.boolean, Value.asBoolean?⟩
  number := ⟨.ofUInt32, Value.asUInt32?⟩
  letter := ⟨Letter.toValue, Letter.ofValue?⟩
  label := ⟨.ofOption Letter.toValue, Value.asOption? Letter.ofValue?⟩
  edge := ⟨Edge.toValue, Edge.ofValue?⟩
  symbol := ⟨Symbol.toValue, Symbol.ofValue?⟩
  symbols := ⟨fun xs => .list (xs.map Symbol.toValue), Value.asList? Symbol.ofValue?⟩
  symbolSet := ⟨fun s => .list (s.toList.map Symbol.toValue),
    fun v => (v.asList? Symbol.ofValue?).map SortedSet.ofList⟩
  rule := ⟨Rule.toValue, Rule.ofValue?⟩
  firstSet := ⟨FirstSet.toValue, FirstSet.ofValue?⟩

theorem plain_edge : plain.edge.RecordOf plain.edgeFields := by
  refine .of_fields? (fun _ => rfl) fun v e => ⟨fun h => ?_, ?_⟩
  · simp only [plain, Edge.ofValue?] at h
    split at h
    next hfields =>
      simp only [Option.bind_eq_bind, Option.bind_eq_some_iff] at h
      obtain ⟨source, hsource, target, htarget, label, hlabel, h⟩ := h
      obtain rfl := Option.some.inj h
      exact ⟨_, hfields,
        .cons hsource (.cons htarget (.cons (Field.reads_iff_getD.mpr hlabel) .nil))⟩
    next => cases h
  · simp only [edgeFields, List.forall₂_cons_left_iff, List.forall₂_nil_left_iff, Field.reads_iff,
      Field.reads_iff_getD, exists_and_left, exists_eq_left]
    rintro ⟨_, hfields, _, ⟨_, rfl, hsource⟩, _, ⟨_, ⟨_, rfl, htarget⟩, _, ⟨_, hlabel, rfl⟩,
      rfl⟩, rfl⟩
    simp only [plain] at hsource htarget hlabel ⊢
    simp [Edge.ofValue?, show v.fields? Edge.fieldNames = _ from hfields, hsource, htarget, hlabel]

theorem plain_symbol : plain.symbol.RecordOf plain.symbolFields := by
  refine .of_fields? (fun _ => rfl) fun v s => ⟨fun h => ?_, ?_⟩
  · simp only [plain, Symbol.ofValue?] at h
    split at h
    next hfields =>
      simp only [Option.bind_eq_bind, Option.bind_eq_some_iff] at h
      obtain ⟨name, hname, kind, hkind, h⟩ := h
      obtain rfl := Option.some.inj h
      refine ⟨_, hfields, ?_⟩
      cases kind with
      | false => exact .cons hname (.cons hkind .nil)
      | true => exact .cons hname (.cons hkind .nil)
    next => cases h
  · simp only [symbolFields, List.forall₂_cons_left_iff, List.forall₂_nil_left_iff,
      Field.reads_iff, exists_and_left, exists_eq_left]
    rintro ⟨_, hfields, _, ⟨_, rfl, hname⟩, _, ⟨_, ⟨_, rfl, hkind⟩, rfl⟩, rfl⟩
    simp only [plain] at hname hkind ⊢
    cases s <;> simp [Symbol.ofValue?, show v.fields? Symbol.fieldNames = _ from hfields, hname,
      hkind, Symbol.isTerminal, Symbol.name]

theorem plain_rule : plain.rule.RecordOf plain.ruleFields := by
  refine .of_fields? (fun _ => rfl) fun v r => ⟨fun h => ?_, ?_⟩
  · simp only [plain, Rule.ofValue?] at h
    split at h
    next hfields =>
      simp only [Option.bind_eq_bind, Option.bind_eq_some_iff] at h
      obtain ⟨left, hleft, right, hright, order, horder, h⟩ := h
      obtain rfl := Option.some.inj h
      exact ⟨_, hfields, .cons hleft (.cons hright (.cons horder .nil))⟩
    next => cases h
  · simp only [ruleFields, List.forall₂_cons_left_iff, List.forall₂_nil_left_iff,
      Field.reads_iff, exists_and_left, exists_eq_left]
    rintro ⟨_, hfields, _, ⟨_, rfl, hleft⟩, _, ⟨_, ⟨_, rfl, hright⟩, _, ⟨_, ⟨_, rfl, horder⟩, rfl⟩,
      rfl⟩, rfl⟩
    simp only [plain] at hleft hright horder ⊢
    simp [Rule.ofValue?, show v.fields? Rule.fieldNames = _ from hfields, hleft, hright, horder]

theorem plain_firstSet : plain.firstSet.RecordOf plain.firstSetFields := by
  refine .of_fields? (fun _ => rfl) fun v F => ⟨fun h => ?_, ?_⟩
  · simp only [plain, FirstSet.ofValue?] at h
    split at h
    next hfields =>
      simp only [Option.bind_eq_bind, Option.bind_eq_some_iff] at h
      obtain ⟨terminals, hterminals, nullable, hnullable, h⟩ := h
      obtain rfl := Option.some.inj h
      exact ⟨_, hfields, .cons (congrArg (Option.map SortedSet.ofList) hterminals)
        (.cons hnullable .nil)⟩
    next => cases h
  · simp only [firstSetFields, List.forall₂_cons_left_iff, List.forall₂_nil_left_iff,
      Field.reads_iff, exists_and_left, exists_eq_left]
    rintro ⟨_, hfields, _, ⟨_, rfl, hterminals⟩, _, ⟨_, ⟨_, rfl, hnullable⟩, rfl⟩, rfl⟩
    simp only [plain, Option.map_eq_some_iff] at hterminals hnullable ⊢
    obtain ⟨terminals, hlisted, hterminals⟩ := hterminals
    simp [FirstSet.ofValue?, show v.fields? FirstSet.fieldNames = _ from hfields, hlisted,
      hterminals, hnullable]

theorem plain_number : plain.number.Scalar .ofUInt32 where
  writes _ := rfl
  reads n := by
    have hrange : (0 : Int) ≤ n.toNat ∧ (n.toNat : Int) < 4294967296 := by
      have := n.toNat_lt
      omega
    simp only [plain]
    rw [Value.ofUInt32, Value.asUInt32?, if_pos hrange, Int.toNat_natCast, UInt32.ofNat_toNat]
  refuses v hv := by
    cases v with
    | whole m =>
        refine if_neg fun hrange => hv (UInt32.ofNat m.toNat) ?_
        have hsmall : m.toNat < UInt32.size := by
          have : UInt32.size = 4294967296 := rfl
          omega
        rw [Value.ofUInt32, UInt32.toNat_ofNat_of_lt' hsmall, Int.toNat_of_nonneg hrange.1]
    | _ => rfl

theorem plain_text : plain.text.Scalar .text where
  writes _ := rfl
  reads _ := rfl
  refuses v hv := by
    cases v with
    | text s => exact absurd rfl (hv s)
    | _ => rfl

theorem plain_boolean : plain.boolean.Scalar .boolean where
  writes _ := rfl
  reads _ := rfl
  refuses v hv := by
    cases v with
    | boolean b => exact absurd rfl (hv b)
    | _ => rfl

theorem plain_label : plain.label.OptionOf plain.letter where
  writes_none := rfl
  writes_some _ := rfl
  reads_null := rfl
  reads_other v hv := by
    cases v with
    | null => exact absurd rfl hv
    | _ => rfl

theorem plain_symbols : plain.symbols.ListOf plain.symbol where
  writes _ := rfl
  reads _ := rfl
  refuses v hv := by
    cases v with
    | list items => exact absurd rfl (hv items)
    | _ => rfl

theorem plain_symbolSet : plain.symbolSet.SetOf plain.symbol where
  writes _ := rfl
  reads _ := rfl
  refuses v hv := by
    cases v with
    | list items => exact absurd rfl (hv items)
    | _ => rfl

theorem plain_documented : plain.Documented where
  text := plain_text
  boolean := plain_boolean
  number := plain_number
  letter := rfl
  label := plain_label
  symbols := plain_symbols
  symbolSet := plain_symbolSet
  edge := plain_edge
  symbol := plain_symbol
  rule := plain_rule
  firstSet := plain_firstSet

end Exchange

/-- A FIRST set in a record with a field that it does not have, with one terminal listed twice and
as a list, and the one that comes before it as a record with its fields turned round. -/
def mixedForms : Value :=
  .record [("note", .null), ("nullable", .boolean true),
    ("terminals", .list [.list [.text "b", .boolean true],
      .record [("terminal", .boolean true), ("name", .text "a")],
      .list [.text "b", .boolean true]])]

/-- The FIRST set of `mixedForms` is the one with both terminals in order, and is read again from
what is written for it. A rule given as a list of lists keeps its lone end marker. -/
theorem exchange_roundTrips_mixedForms :
    let E := Exchange.plain
    let F : FirstSet := ⟨SortedSet.ofList [.terminal "a", .terminal "b"], true⟩
    let r : Rule := ⟨.nonterminal "S", [.endMarker], 4294967295⟩
    let listed : Value := .list [.list [.text "S", .boolean false],
      .list [.list [.text "$", .boolean true]], .whole 4294967295]
    E.Documented ∧ mixedForms.WellFormed ∧
    E.firstSet.read mixedForms = some F ∧ F.DenotedBy mixedForms ∧
    E.firstSet.read (E.firstSet.write F) = some F ∧ F.terminals.toList.Pairwise Symbol.Before ∧
    E.rule.read listed = some r ∧ E.rule.read (E.rule.write r) = some r := by
  intro E F r listed
  obtain ⟨_, _, _, hrules, hsets, _, hordered⟩ := exchange_roundTrips E Exchange.plain_documented
  have hmixed : mixedForms.WellFormed := by
    have hsymbol : (Value.list [.text "b", .boolean true]).WellFormed :=
      .list (by simp [Value.WellFormed.text, Value.WellFormed.boolean])
    have hrecord : (Value.record [("terminal", .boolean true), ("name", .text "a")]).WellFormed :=
      .record (by decide) (by simp [Value.WellFormed.text, Value.WellFormed.boolean])
    have hterminals := Value.WellFormed.list (List.forall_mem_cons.mpr
      ⟨hsymbol, List.forall_mem_cons.mpr ⟨hrecord, List.forall_mem_singleton.mpr hsymbol⟩⟩)
    exact .record (by decide)
      (by simp [Value.WellFormed.null, Value.WellFormed.boolean, hterminals])
  have hF : E.firstSet.read mixedForms = some F := by decide +kernel
  have hr : E.rule.read listed = some r := by decide +kernel
  exact ⟨Exchange.plain_documented, hmixed, hF, (hsets.accepted _ F hmixed).mp hF,
    hsets.restored F, (hordered F).1, hr, hrules.restored r⟩

end FormalLanguage
