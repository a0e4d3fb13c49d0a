import FormalLanguage.Proofs.MaximalMunch

/-!
Letters outside the alphabet. Whether an edge reads one is asked once, when an automaton is put
together, and it is all that can be wrong then; the least such edge is reported. What this buys
holds of every later run: from no configuration does such a letter lead anywhere, a configuration
without states stays without them whatever follows, and so a word that holds such a letter is
rejected and a scanner answers as if the text had ended in front of it.
-/

namespace FormalLanguage

theorem Edge.readsFrom_eq_false_iff {e : Edge} {alphabet : Alphabet} :
    e.readsFrom alphabet = false ↔ ∃ a, e.label = some a ∧ a ∉ alphabet := by
  cases h : e.label with
  | none => simp [readsFrom, h]
  | some a => simp [readsFrom, h]

namespace Automaton

variable {alphabet : Alphabet} {start : State} {accepting : List State}
  {relation : TransitionRelation}

/-- Edges that read letters of the alphabet can be put together. -/
theorem build_of_letters_known (h : ∀ e ∈ relation, e.readsFrom alphabet = true) :
    build alphabet start accepting relation =
      .ok ⟨alphabet, start, SortedSet.ofList accepting, relation, h⟩ := by
  unfold build
  split
  next e he =>
    have hmem : e ∈ relation :=
      (TransitionRelation.mem_labeled.mp (List.mem_of_find?_eq_some he)).1
    have hforeign := List.find?_some he
    simp [h e hmem] at hforeign
  next => rfl

theorem build_eq_ok_iff {A : Automaton} :
    build alphabet start accepting relation = .ok A ↔
      (∀ e ∈ relation, e.readsFrom alphabet = true) ∧ A.alphabet = alphabet ∧ A.start = start ∧
        A.accepting = SortedSet.ofList accepting ∧ A.relation = relation := by
  constructor
  · intro h
    have hknown : ∀ e ∈ A.relation, e.readsFrom A.alphabet = true := A.letters_known
    unfold build at h
    split at h
    next => cases h
    next =>
      cases h
      exact ⟨hknown, rfl, rfl, rfl, rfl⟩
  · rintro ⟨hknown, rfl, rfl, haccepting, rfl⟩
    rw [build_of_letters_known hknown, ← haccepting]

/-- The edge is one that reads a letter outside the alphabet, and the least of these. -/
def IsLeastForeign (alphabet : Alphabet) (relation : TransitionRelation) (e : Edge) : Prop :=
  e ∈ relation ∧ e.readsFrom alphabet = false ∧
    ∀ d ∈ relation, d.readsFrom alphabet = false → (compare e d).isLE = true

theorem find?_labeled_eq_some_iff {e : Edge} :
    (relation.labeled.toList.find? fun e => !e.readsFrom alphabet) = some e ↔
      IsLeastForeign alphabet relation e := by
  -- An epsilon edge reads no letter at all, so leaving those out leaves out no offender.
  have hlabeled (d : Edge) : d ∈ relation.labeled ∧ (!d.readsFrom alphabet) = true ↔
      d ∈ relation ∧ d.readsFrom alphabet = false := by
    rw [TransitionRelation.mem_labeled, Bool.not_eq_true']
    refine and_congr_left fun hforeign => and_iff_left ?_
    obtain ⟨a, hlabel, _⟩ := Edge.readsFrom_eq_false_iff.mp hforeign
    simp [hlabel]
  rw [SortedSet.find?_eq_some_iff, ← and_assoc, hlabeled, and_assoc]
  refine and_congr_right fun _ => and_congr_right fun _ => ?_
  constructor
  · intro hleast d hd hforeign
    obtain ⟨hd, hforeign⟩ := (hlabeled d).mpr ⟨hd, hforeign⟩
    exact hleast d hd hforeign
  · intro hleast d hd hforeign
    obtain ⟨hd, hforeign⟩ := (hlabeled d).mp ⟨hd, hforeign⟩
    exact hleast d hd hforeign

theorem build_eq_error_iff {fault : AutomatonFault} :
    build alphabet start accepting relation = .error fault ↔
      ∃ e, fault = .foreignLetter e ∧ IsLeastForeign alphabet relation e := by
  constructor
  · intro h
    unfold build at h
    split at h
    next e he =>
      cases h
      exact ⟨e, rfl, find?_labeled_eq_some_iff.mp he⟩
    next => cases h
  · rintro ⟨e, rfl, hleast⟩
    have hfind := find?_labeled_eq_some_iff.mpr hleast
    unfold build
    split
    next d hd => rw [Option.some.inj (hd.symm.trans hfind)]
    next hnone => cases hnone.symm.trans hfind

variable {A : Automaton} {a : Letter}

/-- No letter brings a state back. -/
theorem runFrom_empty (A : Automaton) (w : Word) : A.runFrom ∅ w = ∅ := by
  cases w with
  | nil => rfl
  | cons a w => rfl

theorem run_foreign (ha : a ∉ A.alphabet) (u v : Word) : A.run (u ++ [a] ++ v) = ∅ := by
  rw [run_append, run_concat, A.successor_foreign ha, runFrom_empty]

/-- A scanner stops in front of a letter outside the alphabet. -/
theorem longestFrom_foreign (ha : a ∉ A.alphabet) (states : Configuration) (u v : Word) :
    A.longestFrom states (u ++ a :: v) = A.longestFrom states u := by
  induction u generalizing states with
  | nil =>
      rw [List.nil_append, longestFrom_cons, A.successor_foreign ha, longestFrom_empty]
      rfl
  | cons b u ih => rw [List.cons_append, longestFrom_cons, longestFrom_cons, ih]

theorem longestAccepted_foreign {text : String} {k : Nat} {c : Char}
    (hc : text.toList[k]? = some c) (hforeign : String.singleton c ∉ A.alphabet) :
    A.longestAccepted text = A.longestAccepted (String.ofList (text.toList.take k)) := by
  obtain ⟨hk, rfl⟩ := List.getElem?_eq_some_iff.mp hc
  have hcut : text.toList =
      text.toList.take k ++ text.toList[k] :: text.toList.drop (k + 1) := by
    rw [List.cons_getElem_drop_succ, List.take_append_drop]
  have hword : Word.ofText text = Word.ofText (String.ofList (text.toList.take k)) ++
      String.singleton text.toList[k] :: (text.toList.drop (k + 1)).map String.singleton := by
    conv_lhs => rw [Word.ofText, hcut]
    rw [List.map_append, List.map_cons, Word.ofText, String.toList_ofList]
  rw [longestAccepted, hword, longestFrom_foreign hforeign, longestAccepted]

/-- The check for foreign letters and what it guarantees. An automaton can be put together exactly
when every label of an edge is a letter of the alphabet, and then it has the given parts; epsilon
edges are not looked at. Otherwise the edge that is reported is the least one, by source, target
and label, that reads a letter outside the alphabet. In an automaton that was put together a word
with such a letter in it leads to no state, whatever stands in front of the letter and behind it,
and is not accepted; and the longest match of a text is that of the characters in front of any one
that is outside the alphabet. -/
theorem build_refuses_foreignLetters (alphabet : Alphabet) (start : State) (accepting : List State)
    (relation : TransitionRelation) :
    ((∃ A, build alphabet start accepting relation = .ok A) ↔
      ∀ e ∈ relation, ∀ a, e.label = some a → a ∈ alphabet) ∧
    (∀ fault, build alphabet start accepting relation = .error fault ↔
      ∃ e, fault = .foreignLetter e ∧ (e ∈ relation ∧ ∃ a, e.label = some a ∧ a ∉ alphabet) ∧
        ∀ d ∈ relation, ∀ b, d.label = some b → b ∉ alphabet → (compare e d).isLE = true) ∧
    (∀ A, build alphabet start accepting relation = .ok A →
      (A.alphabet = alphabet ∧ A.start = start ∧ A.accepting = SortedSet.ofList accepting ∧
        A.relation = relation) ∧
      (∀ (u v : Word) (a : Letter), a ∉ alphabet →
        A.run (u ++ [a] ++ v) = ∅ ∧ A.accepts (u ++ [a] ++ v) = false) ∧
      (∀ (text : String) (k : Nat) (c : Char), text.toList[k]? = some c →
        String.singleton c ∉ alphabet →
        A.longestAccepted text = A.longestAccepted (String.ofList (text.toList.take k)))) := by
  refine ⟨?_, ?_, ?_⟩
  · have hreads : (∀ e ∈ relation, e.readsFrom alphabet = true) ↔
        ∀ e ∈ relation, ∀ a, e.label = some a → a ∈ alphabet := by
      refine forall₂_congr fun e _ => ?_
      rw [← Bool.not_eq_false, Edge.readsFrom_eq_false_iff]
      push Not
      rfl
    rw [← hreads]
    constructor
    · rintro ⟨A, hA⟩
      exact (build_eq_ok_iff.mp hA).1
    · exact fun h => ⟨_, build_of_letters_known h⟩
  · intro fault
    rw [build_eq_error_iff]
    simp only [IsLeastForeign, Edge.readsFrom_eq_false_iff, and_assoc, forall_exists_index, and_imp]
  · intro A hA
    obtain ⟨_, rfl, hparts⟩ := build_eq_ok_iff.mp hA
    refine ⟨⟨rfl, hparts⟩, fun u v a ha => ?_, fun text k c hc hforeign => ?_⟩
    · have hrun := run_foreign ha u v
      refine ⟨hrun, ?_⟩
      rw [accepts, hrun]
      rfl
    · exact longestAccepted_foreign hc hforeign

/-- Edges that read a letter of one character, another one, the letter without characters, and
nothing. -/
def strayEdges : List Edge :=
  [⟨7, 2, some "z"⟩, ⟨4, 6, some "a"⟩, ⟨4, 5, none⟩, ⟨4, 6, some ""⟩]

/-- Of the two edges whose letters are missing in the first alphabet the one that reads the letter
without characters is reported. With the second alphabet only the letter `b` is foreign. -/
theorem build_refuses_foreignLetters_strayEdges :
    build (SortedSet.ofList ["a", "b"]) 4 [6] (.ofList strayEdges) =
      .error (.foreignLetter ⟨4, 6, some ""⟩) ∧
    ∃ A, build (SortedSet.ofList ["a", "z", ""]) 4 [6] (.ofList strayEdges) = .ok A ∧
      String.singleton 'b' ∉ SortedSet.ofList ["a", "z", ""] ∧
      A.run (["a"] ++ ["b"] ++ ["z"]) = ∅ ∧ A.longestAccepted "abz" = A.longestAccepted "a" := by
  obtain ⟨_, hfault, _⟩ :=
    build_refuses_foreignLetters (SortedSet.ofList ["a", "b"]) 4 [6] (.ofList strayEdges)
  obtain ⟨hbuilds, _, hguarantee⟩ :=
    build_refuses_foreignLetters (SortedSet.ofList ["a", "z", ""]) 4 [6] (.ofList strayEdges)
  have hread : ∀ e ∈ strayEdges, e.label = none ∨ e.label = some "z" ∨ e.label = some "a" ∨
      e.label = some "" := by decide
  refine ⟨(hfault _).mpr ⟨_, rfl, ⟨TransitionRelation.mem_ofList.mpr (by decide), "", rfl,
    by decide +kernel⟩, ?_⟩, ?_⟩
  · intro d hd b hlabel hb
    have hleast : ∀ d ∈ strayEdges, d.readsFrom (SortedSet.ofList ["a", "b"]) = false →
        (compare (⟨4, 6, some ""⟩ : Edge) d).isLE = true := by decide +kernel
    refine hleast d (TransitionRelation.mem_ofList.mp hd) ?_
    exact Edge.readsFrom_eq_false_iff.mpr ⟨b, hlabel, hb⟩
  · obtain ⟨A, hA⟩ := hbuilds.mpr fun e he a ha => by
      rcases hread e (TransitionRelation.mem_ofList.mp he) with h | h | h | h <;>
        rw [h] at ha <;> cases ha <;> decide +kernel
    have hforeign : String.singleton 'b' ∉ SortedSet.ofList ["a", "z", ""] := by decide +kernel
    obtain ⟨_, hrun, hlongest⟩ := hguarantee A hA
    exact ⟨A, hA, hforeign, (hrun ["a"] ["z"] "b" hforeign).1,
      hlongest "abz" 1 'b' (by decide) hforeign⟩

end Automaton

end FormalLanguage
