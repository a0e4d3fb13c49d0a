import FormalLanguage.Text.Basic
import Mathlib.Tactic

/-!
Cutting texts into words, and at marks. The words of a text are exactly its maximal runs of
characters that are not blank; every text has its runs, which can be followed character by character
from the end. Words that are joined by single blanks are found again.
-/

namespace FormalLanguage.Text

theorem words_nil : words [] = [] := rfl

theorem words_append_blank {c : Char} (hc : isBlank c = true) (before behind : List Char) :
    words (before ++ c :: behind) = words before ++ words behind := by
  rw [words, List.splitOnP_append_cons before behind hc, List.filter_append]
  rfl

theorem words_blank_cons {c : Char} (hc : isBlank c = true) (cs : List Char) :
    words (c :: cs) = words cs := words_append_blank hc [] cs

theorem words_gap_append {gap : List Char} (hgap : ∀ c ∈ gap, isBlank c = true)
    (cs : List Char) : words (gap ++ cs) = words cs := by
  induction gap with
  | nil => rfl
  | cons c gap ih =>
      obtain ⟨hc, hrest⟩ := List.forall_mem_cons.mp hgap
      rw [List.cons_append, words_blank_cons hc, ih hrest]

theorem words_of_isWord {w : List Char} (h : IsWord w) : words w = [w] := by
  rw [words, List.splitOnP_eq_singleton h.2]
  simp [h.1]

theorem words_intercalate : ∀ {ws : List (List Char)}, (∀ w ∈ ws, IsWord w) →
    words ([' '].intercalate ws) = ws
  | [], _ => rfl
  | [w], h => by rw [List.intercalate_singleton, words_of_isWord (h w (by simp))]
  | w :: v :: ws, h => by
      obtain ⟨hw, hrest⟩ := List.forall_mem_cons.mp h
      rw [List.intercalate_cons_cons, List.append_assoc, List.singleton_append,
        words_append_blank rfl, words_of_isWord hw, words_intercalate hrest]
      rfl

theorem not_mem_intercalate {c : Char} (hc : c ≠ ' ') : ∀ {ws : List (List Char)},
    (∀ w ∈ ws, c ∉ w) → c ∉ [' '].intercalate ws
  | [], _ => by simp
  | [w], h => by simpa using h w
  | w :: v :: ws, h => by
      obtain ⟨hw, hrest⟩ := List.forall_mem_cons.mp h
      have hbehind := not_mem_intercalate hc hrest
      rw [List.intercalate_cons_cons]
      simp [hw, hc, hbehind]

/-- There is one piece more than there are separators. -/
theorem length_splitOn (c : Char) (cs : List Char) :
    (cs.splitOn c).length = cs.count c + 1 := by
  induction cs with
  | nil => rfl
  | cons d cs ih =>
      rw [List.splitOn_cons_eq_if_modifyHead]
      split
      next hd => rw [List.length_cons, ih, beq_iff_eq.mp hd, List.count_cons_self]
      next hd =>
        rw [List.length_modifyHead, ih, List.count_cons_of_ne fun h => hd (beq_iff_eq.mpr h)]

theorem not_mem_of_mem_splitOn {c : Char} {cs piece : List Char} (h : piece ∈ cs.splitOn c) :
    c ∉ piece := by
  induction cs generalizing piece with
  | nil =>
      obtain rfl := List.mem_singleton.mp h
      exact List.not_mem_nil
  | cons d cs ih =>
      rw [List.splitOn_cons_eq_if_modifyHead] at h
      split at h
      next hd =>
        rcases List.mem_cons.mp h with rfl | hlater
        · exact List.not_mem_nil
        · exact ih hlater
      next hd =>
        obtain ⟨first, rest, hsplit⟩ := List.exists_cons_of_ne_nil (List.splitOn_ne_nil c cs)
        rw [hsplit, List.modifyHead_cons] at h
        rcases List.mem_cons.mp h with rfl | hlater
        · have hfirst : c ∉ first := ih (by simp [hsplit])
          have hother : c ≠ d := fun hcd => hd (beq_iff_eq.mpr hcd.symm)
          simp [hother, hfirst]
        · exact ih (by simp [hsplit, hlater])

namespace Runs

variable {c : Char} {cs : List Char} {ws : List (List Char)}

theorem blank_cons (hc : isBlank c = true) (h : Runs cs ws) : Runs (c :: cs) ws := by
  cases h with
  | none hgap => exact .none (List.forall_mem_cons.mpr ⟨hc, hgap⟩)
  | next hgap hrun hrest hruns =>
      exact .next (List.forall_mem_cons.mpr ⟨hc, hgap⟩) hrun hrest hruns

theorem run_append (h : Runs cs ws) {run : List Char} (hrun : IsWord run)
    (hhead : ∀ d ∈ cs.head?, isBlank d = true) : Runs (run ++ cs) (run :: ws) := by
  have hgap : ∀ d ∈ ([] : List Char), isBlank d = true := fun _ hd => nomatch hd
  exact .next hgap hrun hhead h

/-- A character that is not blank joins the run it stands at, or is a run of its own. -/
theorem exists_letter_cons (hc : isBlank c = false) (h : Runs cs ws) :
    ∃ vs, Runs (c :: cs) vs := by
  have hword : IsWord [c] := ⟨List.cons_ne_nil c [], by simpa using hc⟩
  have halone : (∀ d ∈ cs.head?, isBlank d = true) → Runs (c :: cs) ([c] :: ws) :=
    fun hhead => h.run_append hword hhead
  cases h with
  | none hgap => exact ⟨_, halone fun d hd => hgap d (List.mem_of_head? hd)⟩
  | @next gap run rest runs hgap hrun hrest hruns =>
      cases gap with
      | nil =>
          have hlonger : IsWord (c :: run) :=
            ⟨List.cons_ne_nil c run, List.forall_mem_cons.mpr ⟨hc, hrun.2⟩⟩
          exact ⟨_, hruns.run_append hlonger hrest⟩
      | cons d gap => exact ⟨_, halone fun e he => hgap e (List.mem_of_head? he)⟩

theorem exists_runs (cs : List Char) : ∃ ws, Runs cs ws := by
  induction cs with
  | nil => exact ⟨[], .none (by simp)⟩
  | cons c cs ih =>
      obtain ⟨ws, hruns⟩ := ih
      cases hc : isBlank c with
      | true => exact ⟨ws, hruns.blank_cons hc⟩
      | false => exact hruns.exists_letter_cons hc

theorem words_eq (h : Runs cs ws) : words cs = ws := by
  induction h with
  | @none gap hgap => rw [← List.append_nil gap, words_gap_append hgap, words_nil]
  | @next gap run rest runs hgap hrun hrest hruns ih =>
      rw [List.append_assoc, words_gap_append hgap]
      cases rest with
      | nil => rw [List.append_nil, words_of_isWord hrun, ← ih, words_nil]
      | cons c rest =>
          have hc : isBlank c = true := hrest c rfl
          rw [words_append_blank hc, words_of_isWord hrun, ← ih, words_blank_cons hc]
          rfl

theorem isWord (h : Runs cs ws) : ∀ w ∈ ws, IsWord w := by
  induction h with
  | none hgap => simp
  | next hgap hrun hrest hruns ih => exact List.forall_mem_cons.mpr ⟨hrun, ih⟩

theorem isInfix (h : Runs cs ws) : ∀ w ∈ ws, w <:+: cs := by
  induction h with
  | none hgap => simp
  | @next gap run rest runs hgap hrun hrest hruns ih =>
      refine List.forall_mem_cons.mpr ⟨⟨gap, rest, rfl⟩, fun w hw => ?_⟩
      exact (ih w hw).trans (List.suffix_append (gap ++ run) rest).isInfix

end Runs

/-- The words of a text are its maximal runs of characters that are not blank. -/
theorem words_eq_iff_runs {cs : List Char} {ws : List (List Char)} :
    words cs = ws ↔ Runs cs ws := by
  constructor
  · rintro rfl
    obtain ⟨ws, hruns⟩ := Runs.exists_runs cs
    rwa [hruns.words_eq]
  · exact Runs.words_eq

namespace CutAtFirst

variable {mark text before behind earlier later : List Char}

/-- A mark stands for the first time at one place only. -/
theorem unique (h : CutAtFirst mark text before behind)
    (h' : CutAtFirst mark text earlier later) : before = earlier ∧ behind = later := by
  have hlength : before.length = earlier.length :=
    le_antisymm (h.first _ _ h'.parts) (h'.first _ _ h.parts)
  have hparts : before ++ (mark ++ behind) = earlier ++ (mark ++ later) := by
    rw [← List.append_assoc, ← List.append_assoc, ← h.parts, h'.parts]
  obtain ⟨hbefore, hrest⟩ := List.append_inj hparts hlength
  exact ⟨hbefore, List.append_cancel_left hrest⟩

/-- There is no mark in front of the first one. -/
theorem not_infix_before (h : CutAtFirst mark text before behind) (hmark : mark ≠ []) :
    ¬ mark <:+: before := by
  rintro ⟨earlier, between, hbefore⟩
  have hplace : before.length ≤ earlier.length := by
    apply h.first earlier (between ++ mark ++ behind)
    rw [h.parts, ← hbefore]
    simp only [List.append_assoc]
  have hlength : earlier.length + mark.length + between.length = before.length := by
    rw [← hbefore, List.length_append, List.length_append]
  have hpos : 0 < mark.length := List.length_pos_iff.mpr hmark
  omega

end CutAtFirst

end FormalLanguage.Text
