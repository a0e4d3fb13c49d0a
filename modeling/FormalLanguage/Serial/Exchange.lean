import FormalLanguage.Serial.Forms
import Mathlib.Data.List.Forall2

/-!
Exchanging data by an implementation that is no part of this library. It is a parameter: a way to
write and to read each of the types, of which only some laws are known. Scalars have a form of their
own and are never converted, null stands for what is missing, lists are gone through item by item,
and records are handled by their fields. The laws say nothing about reading what was written. That
it is read as what it was is a theorem on every implementation that keeps the laws.

Which exchanged values denote a letter, an edge, a symbol, a rule or a FIRST set is also said
without any implementation. A record denotes by what is entered under the names of its fields, in
whatever order and whatever else it holds; a list denotes by its items, if there is exactly one for
each field.
-/

namespace FormalLanguage

/-- How values of a type are written and read. Reading can fail. -/
structure Codec (α : Type) where
  write : α → Value
  read : Value → Option α

/-- A field of a record type, with what a value of the type has in it and how that is written and
read. -/
structure Field (α : Type) where
  name : String
  {Content : Type}
  content : α → Content
  codec : Codec Content
  /-- Whether a record may lack the field, which then counts as null. -/
  canBeMissing : Bool

/-- What is given for a field, if anything, is read as what the value has in it. -/
def Field.Reads {α : Type} (f : Field α) (x : α) : Option Value → Prop
  | some v => f.codec.read v = some (f.content x)
  | none => f.canBeMissing = true ∧ f.codec.read .null = some (f.content x)

namespace Codec

variable {α : Type}

/-- Each value has one form. Nothing else is converted, and what does not fit is refused. -/
structure Scalar (c : Codec α) (form : α → Value) : Prop where
  writes : ∀ x, c.write x = form x
  reads : ∀ x, c.read (form x) = some x
  refuses : ∀ v, (∀ x, v ≠ form x) → c.read v = none

/-- Null stands for nothing, and everything else for what it stands for as an item. -/
structure OptionOf (c : Codec (Option α)) (item : Codec α) : Prop where
  writes_none : c.write none = .null
  writes_some : ∀ x, c.write (some x) = item.write x
  reads_null : c.read .null = some none
  reads_other : ∀ v, v ≠ .null → c.read v = (item.read v).map some

/-- Lists are written and read item by item, and nothing but a list is read as one. -/
structure ListOf (c : Codec (List α)) (item : Codec α) : Prop where
  writes : ∀ xs, c.write xs = .list (xs.map item.write)
  reads : ∀ items, c.read (.list items) = items.mapM item.read
  refuses : ∀ v, (∀ items, v ≠ .list items) → c.read v = none

/-- Sets are written as the list of their members and read from any list, the items being put in one
after the other. -/
structure SetOf [Ord α] [Std.TransOrd α] [Std.LawfulEqOrd α] (c : Codec (SortedSet α))
    (item : Codec α) : Prop where
  writes : ∀ s, c.write s = .list (s.toList.map item.write)
  reads : ∀ items, c.read (.list items) = (items.mapM item.read).map SortedSet.ofList
  refuses : ∀ v, (∀ items, v ≠ .list items) → c.read v = none

/-- A record has an entry for each field, in whatever order. It is read by what is entered under
the names of the fields, and other entries are ignored; a list is read in its place if it has
exactly one item for each field, in the order of the fields. Nothing else is read. What becomes of
two entries under one name is left open. -/
structure RecordOf (c : Codec α) (fields : List (Field α)) : Prop where
  writes : ∀ x, ∃ entries, c.write x = .record entries ∧
    entries.Perm (fields.map fun f => (f.name, f.codec.write (f.content x)))
  reads_record : ∀ entries x, (entries.map Prod.fst).Nodup →
    (c.read (.record entries) = some x ↔ ∀ f ∈ fields, f.Reads x (entries.lookup f.name))
  reads_list : ∀ items x, c.read (.list items) = some x ↔
    List.Forall₂ (fun f item => f.Reads x (some item)) fields items
  refuses : ∀ v, (∀ entries, v ≠ .record entries) → (∀ items, v ≠ .list items) → c.read v = none

end Codec

/-- An implementation of all that data are exchanged by. -/
structure Exchange where
  text : Codec String
  boolean : Codec Bool
  number : Codec UInt32
  letter : Codec Letter
  label : Codec (Option Letter)
  edge : Codec Edge
  symbol : Codec Symbol
  symbols : Codec (List Symbol)
  symbolSet : Codec (SortedSet Symbol)
  rule : Codec Rule
  firstSet : Codec FirstSet

namespace Exchange

variable (E : Exchange)

/-- The fields of an edge. Only the label can be missing. -/
def edgeFields : List (Field Edge) :=
  [⟨"source", Edge.source, E.number, false⟩, ⟨"target", Edge.target, E.number, false⟩,
    ⟨"label", Edge.label, E.label, true⟩]

def symbolFields : List (Field Symbol) :=
  [⟨"name", Symbol.name, E.text, false⟩, ⟨"terminal", Symbol.isTerminal, E.boolean, false⟩]

def ruleFields : List (Field Rule) :=
  [⟨"left_side", Rule.left, E.symbol, false⟩, ⟨"right_side", Rule.right, E.symbols, false⟩,
    ⟨"order", Rule.order, E.number, false⟩]

def firstSetFields : List (Field FirstSet) :=
  [⟨"terminals", FirstSet.terminals, E.symbolSet, false⟩,
    ⟨"nullable", FirstSet.nullable, E.boolean, false⟩]

/-- The laws that an implementation is known to keep. -/
structure Documented : Prop where
  text : E.text.Scalar .text
  boolean : E.boolean.Scalar .boolean
  /-- Numbers are whole and fit 32 bits without a sign. -/
  number : E.number.Scalar .ofUInt32
  /-- A letter is exchanged as the text that it is. -/
  letter : E.letter = E.text
  label : E.label.OptionOf E.letter
  symbols : E.symbols.ListOf E.symbol
  symbolSet : E.symbolSet.SetOf E.symbol
  edge : E.edge.RecordOf E.edgeFields
  symbol : E.symbol.RecordOf E.symbolFields
  rule : E.rule.RecordOf E.ruleFields
  firstSet : E.firstSet.RecordOf E.firstSetFields

end Exchange

/-- No record in a value, at any depth, has two entries under one name. -/
inductive Value.WellFormed : Value → Prop
  | null : WellFormed .null
  | boolean (b : Bool) : WellFormed (.boolean b)
  | whole (n : Int) : WellFormed (.whole n)
  | decimal (digits : Int) (places : Nat) : WellFormed (.decimal digits places)
  | text (s : String) : WellFormed (.text s)
  | list {items : List Value} : (∀ v ∈ items, WellFormed v) → WellFormed (.list items)
  | record {fields : List (String × Value)} :
      (fields.map Prod.fst).Nodup → (∀ f ∈ fields, WellFormed f.2) → WellFormed (.record fields)

/-- What a value has for some named fields, one after the other. A record may have nothing for some
of them. -/
inductive Value.Presents (names : List String) : Value → List (Option Value) → Prop
  | record (fields : List (String × Value)) :
      Presents names (.record fields) (names.map fun name => fields.lookup name)
  | list {items : List Value} :
      items.length = names.length → Presents names (.list items) (items.map some)

/-- A letter is denoted by its text. -/
inductive Letter.DenotedBy : Letter → Value → Prop
  | text (a : Letter) : DenotedBy a (.text a)

/-- Only the label may be missing, and only in a record. -/
inductive Edge.DenotedBy : Edge → Value → Prop
  | labeled {source target : State} {a : Letter} {v : Value} :
      v.Presents fieldNames [some (.ofUInt32 source), some (.ofUInt32 target), some (.text a)] →
      DenotedBy ⟨source, target, some a⟩ v
  | epsilon {source target : State} {v : Value} :
      v.Presents fieldNames [some (.ofUInt32 source), some (.ofUInt32 target), some .null] →
      DenotedBy ⟨source, target, none⟩ v
  | missing {source target : State} {v : Value} :
      v.Presents fieldNames [some (.ofUInt32 source), some (.ofUInt32 target), none] →
      DenotedBy ⟨source, target, none⟩ v

inductive Symbol.DenotedBy : Symbol → Value → Prop
  | nonterminal {name : String} {v : Value} :
      v.Presents fieldNames [some (.text name), some (.boolean false)] →
      DenotedBy (.nonterminal name) v
  | terminal {name : String} {v : Value} :
      v.Presents fieldNames [some (.text name), some (.boolean true)] →
      DenotedBy (.terminal name) v

/-- The symbols on a right side are taken as they are, a lone end marker too. -/
inductive Rule.DenotedBy : Rule → Value → Prop
  | sides {left : Symbol} {right : List Symbol} {order : UInt32} {v w : Value}
      {items : List Value} :
      v.Presents fieldNames [some w, some (.list items), some (.ofUInt32 order)] →
      left.DenotedBy w → List.Forall₂ Symbol.DenotedBy right items →
      DenotedBy ⟨left, right, order⟩ v

/-- The terminals may be listed in any order, and more than once. -/
inductive FirstSet.DenotedBy : FirstSet → Value → Prop
  | listed {terminals : SortedSet Symbol} {nullable : Bool} {symbols : List Symbol} {v : Value}
      {items : List Value} :
      v.Presents fieldNames [some (.list items), some (.boolean nullable)] →
      List.Forall₂ Symbol.DenotedBy symbols items → (∀ s, s ∈ terminals ↔ s ∈ symbols) →
      DenotedBy ⟨terminals, nullable⟩ v

end FormalLanguage
