import InkServer.Proofs.Text.Pieces
import InkServer.Proofs.Text.Span
import InkServer.Story.Line

/-!
This module contains what is recognized in some kinds of lines: a prompt whatever follows its mark,
and nothing in a blank line.
-/

namespace InkServer

open Text

theorem Text.not_isDigit_of_isBlank {c : Char} (h : isBlank c) : isDigit c = false := by
  have hcode := (isBlank_iff_mem_whiteSpace c).mp h
  unfold isDigit
  generalize c.toNat = n at hcode
  revert n
  decide

namespace OutputLine

theorem classify?_prompt (cs : List Char) : classify? ('?' :: '>' :: cs) = some .prompt := by
  have hdrop : ∃ ds, dropFinal '\r' ('?' :: '>' :: cs) = '?' :: '>' :: ds := by
    cases cs with
    | nil => exact ⟨[], by decide⟩
    | cons c cs => exact ⟨_, by rw [dropFinal_cons_cons, dropFinal_cons_cons]⟩
  obtain ⟨ds, hds⟩ := hdrop
  have hshape : DiagnosticShape.ofChars? ('?' :: '>' :: ds) = none := by
    unfold DiagnosticShape.ofChars?
    split
    . rfl
    . next words rest hsplit =>
      have hhead := head?_of_splitFirst? hsplit (by decide)
      rw [if_pos]
      simp [DiagnosticShape.isWords, hhead, DiagnosticShape.isUpper]
  unfold classify?
  simp only [hds, hshape]
  simp [ofPlain?, tagsText?, afterStart?, choice?, choiceShape?, promptMark, isDigit, digitRanges]

theorem ofPlain?_of_allBlank {cs : List Char} (h : allBlank cs) : ofPlain? cs = none := by
  cases cs with
  | nil => rfl
  | cons c cs =>
    have hc : isBlank c := List.all_eq_true.mp h c (.head _)
    have hne (d : Char) (hd : isBlank d = false) : c ≠ d := by
      intro heq
      rw [heq, hd] at hc
      cases hc
    have htags : tagsText? (c :: cs) = none := by
      simp [tagsText?, afterStart?, (hne '#' (by decide)).symm]
    have hchoice : choice? (c :: cs) = none := by
      simp [choice?, choiceShape?, not_isDigit_of_isBlank hc]
    have hprompt : promptMark.isPrefixOf (c :: cs) = false := by
      simp [promptMark, List.isPrefixOf, (hne '?' (by decide)).symm]
    have hend : c :: cs ≠ InkServer.endOfStory := by
      intro heq
      have hhead : InkServer.endOfStory.head? = some '-' := by decide
      rw [← heq, List.head?_cons, Option.some.injEq] at hhead
      apply hne '-' (by decide) hhead
    simp [ofPlain?, htags, hchoice, hprompt, hend, h]

theorem classify?_of_allBlank {cs : List Char} (h : allBlank cs) : classify? cs = none := by
  have hblank : allBlank (dropFinal '\r' cs) := by
    apply List.all_eq_true.mpr
    intro c hc
    apply List.all_eq_true.mp h
    apply mem_of_mem_dropFinal hc
  have hcolon : ':' ∉ dropFinal '\r' cs := by
    intro hmem
    have hcolon := List.all_eq_true.mp hblank _ hmem
    revert hcolon
    decide
  have hshape : DiagnosticShape.ofChars? (dropFinal '\r' cs) = none := by
    unfold DiagnosticShape.ofChars?
    rw [splitFirst?_eq_none hcolon]
  unfold classify?
  simp only [hshape]
  apply ofPlain?_of_allBlank hblank

end OutputLine

end InkServer
