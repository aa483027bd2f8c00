import InkServer.Proofs.Story.Grammar
import Mathlib.Data.List.Forall2

/-!
This module contains the law of recognizing lines: which lines are dropped, and what becomes of every
other line. Story text is never among what is dropped.
-/

namespace InkServer

open Text

def tagsMark : List Char := "# tags: ".toList

/-- `tags` are the items of `cs` between commas, without the blanks around them, and without those of
which nothing is left. -/
def TagList (cs : List Char) (tags : List String) : Prop :=
  ∃ ps cores, ps ≠ [] ∧ (∀ p ∈ ps, ',' ∉ p) ∧ joined ',' ps = cs ∧ List.Forall₂ Trimmed ps cores
    ∧ tags = (cores.filter (· ≠ [])).map String.ofList

theorem eq_map_trim {ps cores : List (List Char)} (h : List.Forall₂ Trimmed ps cores) :
    cores = ps.map trim := by
  induction h with
  | nil => rfl
  | cons hcore _ ih => rw [List.map_cons, ← ih, ← hcore.eq_trim]

theorem tagList_iff {cs : List Char} {tags : List String} : TagList cs tags ↔ tags = tagItems cs := by
  constructor
  . rintro ⟨ps, cores, hne, hcomma, rfl, hcores, rfl⟩
    rw [tagItems, pieces_joined hne hcomma, eq_map_trim hcores]
  . rintro rfl
    refine ⟨pieces ',' cs, (pieces ',' cs).map trim, pieces_ne_nil _ _,
      fun p hp => not_mem_of_mem_pieces hp, joined_pieces _ _, ?_, rfl⟩
    rw [List.forall₂_map_right_iff, List.forall₂_same]
    exact fun p _ => trimmed_trim p

/-- The parts of a line with the shape of a choice. Its digits need not be a number. -/
structure ChoiceLayout where
  digits : List Char
  text : List Char
  digits_ne_nil : digits ≠ []
  digits_isDigit : digits.all isDigit

namespace ChoiceLayout

variable {c : ChoiceLayout} {cs : List Char} {found : Choice}

/-- The whole line. -/
def chars (c : ChoiceLayout) : List Char :=
  c.digits ++ ':' :: ' ' :: c.text

def choice (c : ChoiceLayout) : Choice :=
  ⟨numeralValue c.digits, String.ofList c.text⟩

theorem exists_chars_eq_cons (c : ChoiceLayout) : ∃ d tail, c.chars = d :: tail ∧ isDigit d := by
  obtain ⟨d, ds, hdigits⟩ := List.exists_cons_of_ne_nil c.digits_ne_nil
  have hall := c.digits_isDigit
  rw [hdigits, List.all_cons, Bool.and_eq_true] at hall
  exact ⟨d, _, by rw [chars, hdigits, List.cons_append], hall.1⟩

theorem not_isPrefix_chars (c : ChoiceLayout) {first : Char} (h : isDigit first = false)
    (rest : List Char) : ¬ first :: rest <+: c.chars := by
  obtain ⟨d, tail, hchars, hd⟩ := c.exists_chars_eq_cons
  rw [hchars, List.cons_prefix_cons]
  rintro ⟨rfl, -⟩
  rw [h] at hd
  cases hd

theorem stops_colon (c : ChoiceLayout) : Stops isDigit (':' :: ' ' :: c.text) :=
  stops_cons.mpr (by decide)

theorem digits_inj {c' : ChoiceLayout} (h : c.chars = c'.chars) : c.digits = c'.digits :=
  (append_inj_of_stops c.digits_isDigit c.stops_colon c'.digits_isDigit c'.stops_colon h).1

theorem choiceShape?_chars (h : '\n' ∉ c.chars) : choiceShape? c.chars = some (c.digits, c.text) := by
  have htext : '\n' ∉ c.text := by
    intro hmem
    apply h
    simp [chars, hmem]
  obtain ⟨d, ds, hdigits⟩ := List.exists_cons_of_ne_nil c.digits_ne_nil
  unfold choiceShape?
  rw [chars, takeWhile_append_of_stops c.digits_isDigit c.stops_colon,
    dropWhile_append_of_stops c.digits_isDigit c.stops_colon]
  simp [hdigits, htext]

theorem choice?_of_isNumeral32 (h : '\n' ∉ c.chars) (hnumeral : IsNumeral32 c.digits) :
    choice? c.chars = some c.choice := by
  unfold choice?
  rw [choiceShape?_chars h]
  dsimp only
  rw [readDigits?_of_isNumeral32 hnumeral]
  rfl

theorem exists_of_choice? (h : choice? cs = some found) :
    ∃ c : ChoiceLayout, c.chars = cs ∧ IsNumeral32 c.digits ∧ c.choice = found := by
  unfold choice? at h
  split at h
  . next digits text hshape =>
    by_cases hnumeral : IsNumeral32 digits
    . rw [readDigits?_of_isNumeral32 hnumeral, Option.map_some] at h
      unfold choiceShape? at hshape
      split at hshape
      . next d ds rest htake hdrop =>
        split at hshape
        . cases hshape
        . have hcs := @List.takeWhile_append_dropWhile _ isDigit cs
          rw [htake, hdrop] at hcs
          cases hshape
          have hall : (d :: ds).all isDigit := by
            rw [← htake]
            exact List.all_takeWhile
          exact ⟨⟨d :: ds, text, by simp, hall⟩, hcs, hnumeral, Option.some.inj h⟩
      . cases hshape
    . rw [readDigits?_of_not_isNumeral32 hnumeral] at h
      cases h
  . cases h

end ChoiceLayout

/-- What a line without its end is recognized as. The forms exclude each other, but for plain text:
that is a line of no other form. -/
inductive Recognized (cs : List Char) : OutputLine → Prop where
  | diagnostic (t : DiagnosticText) (h : t.chars = cs) :
    Recognized cs (.diagnostic t.kind t.fileName t.number (String.ofList t.message))
  | tags {rest : List Char} {tags : List String} (h : tagsMark ++ rest = cs) (htags : TagList rest tags) :
    Recognized cs (.tags tags)
  | choice (c : ChoiceLayout) (h : c.chars = cs) (hnumeral : IsNumeral32 c.digits) :
    Recognized cs (.choice ⟨numeralValue c.digits, String.ofList c.text⟩)
  | prompt (h : promptMark <+: cs) : Recognized cs .prompt
  | endOfStory (h : cs = InkServer.endOfStory) : Recognized cs .endOfStory
  | text (hdiagnostic : ∀ l : DiagnosticLayout, l.chars ≠ cs) (htags : ¬ tagsMark <+: cs)
    (hchoice : ∀ c : ChoiceLayout, c.chars = cs → ¬ IsNumeral32 c.digits) (hprompt : ¬ promptMark <+: cs)
    (hend : cs ≠ InkServer.endOfStory) (hblank : allBlank cs = false) :
    Recognized cs (.text (String.ofList cs))

theorem not_isUpper_of_isDigit {c : Char} (h : isDigit c) : DiagnosticShape.isUpper c = false := by
  have hcodes : ∀ n < 91, 65 ≤ n → (digitRanges.any fun r => r.1 ≤ n && n ≤ r.2) = false := by decide
  rw [← Bool.not_eq_true]
  intro hupper
  simp only [DiagnosticShape.isUpper, Bool.and_eq_true, decide_eq_true_eq] at hupper
  rw [isDigit, hcodes c.toNat (by omega) hupper.1] at h
  cases h

theorem ChoiceLayout.stops_isUpper_chars (c : ChoiceLayout) :
    Stops DiagnosticShape.isUpper c.chars := by
  obtain ⟨d, tail, hchars, hd⟩ := c.exists_chars_eq_cons
  rw [hchars, stops_cons]
  exact not_isUpper_of_isDigit hd

/-- A line with the shape of a choice is a line of text when its digits are no number. -/
theorem ChoiceLayout.recognized_text (c : ChoiceLayout) (h : ¬ IsNumeral32 c.digits) :
    Recognized c.chars (.text (String.ofList c.chars)) := by
  refine .text (DiagnosticLayout.chars_ne_of_stops c.stops_isUpper_chars)
    (c.not_isPrefix_chars (by decide) _) ?_ (c.not_isPrefix_chars (by decide) _) ?_ ?_
  . intro c' hc' hnumeral
    rw [digits_inj hc'] at hnumeral
    exact h hnumeral
  . intro hend
    have hmark : ¬ endOfStory <+: c.chars := c.not_isPrefix_chars (by decide) _
    rw [hend] at hmark
    exact hmark (List.prefix_refl _)
  . obtain ⟨d, tail, hchars, hd⟩ := c.exists_chars_eq_cons
    rw [← Bool.not_eq_true]
    intro hblank
    rw [hchars, allBlank, List.all_cons, Bool.and_eq_true] at hblank
    rw [not_isDigit_of_isBlank hblank.1] at hd
    cases hd

namespace OutputLine

variable {cs line : List Char} {item : OutputLine}

theorem tagsText?_eq_some_iff (h : '\n' ∉ cs) {rest : List Char} :
    tagsText? cs = some rest ↔ tagsMark ++ rest = cs := by
  unfold tagsText?
  constructor
  . intro hsome
    split at hsome
    . next tail hafter =>
      split at hsome
      . cases hsome
      . rw [← Option.some.inj hsome]
        exact (afterStart?_eq_some_iff.mp hafter).symm
    . cases hsome
  . rintro rfl
    have hafter : afterStart? "# tags: ".toList (tagsMark ++ rest) = some rest :=
      afterStart?_eq_some_iff.mpr rfl
    rw [hafter]
    have hrest : '\n' ∉ rest := fun hmem => h (List.mem_append_right _ hmem)
    simp [hrest]

theorem tagsText?_eq_none_iff (h : '\n' ∉ cs) : tagsText? cs = none ↔ ¬ tagsMark <+: cs := by
  constructor
  . rintro hnone ⟨rest, hrest⟩
    rw [(tagsText?_eq_some_iff h).mpr hrest] at hnone
    cases hnone
  . intro hmark
    cases hfound : tagsText? cs with
    | none => rfl
    | some rest => exact absurd ⟨rest, (tagsText?_eq_some_iff h).mp hfound⟩ hmark

theorem choice?_eq_none_iff (h : '\n' ∉ cs) :
    choice? cs = none ↔ ∀ c : ChoiceLayout, c.chars = cs → ¬ IsNumeral32 c.digits := by
  constructor
  . rintro hnone c rfl hnumeral
    rw [c.choice?_of_isNumeral32 h hnumeral] at hnone
    cases hnone
  . intro hno
    cases hfound : choice? cs with
    | none => rfl
    | some found =>
      obtain ⟨c, hc, hnumeral, _⟩ := ChoiceLayout.exists_of_choice? hfound
      exact absurd hnumeral (hno c hc)

/-- A line that begins with no digit does not have the shape of a choice. -/
theorem choice?_of_stops (h : Stops isDigit cs) : choice? cs = none := by
  have hnone : choiceShape? cs = none := by
    unfold choiceShape?
    rw [takeWhile_of_stops h]
  rw [choice?, hnone]

theorem ofPlain?_of_tags (h : '\n' ∉ cs) {rest : List Char} (hrest : tagsMark ++ rest = cs) :
    ofPlain? cs = some (.tags (tagItems rest)) := by
  unfold ofPlain?
  rw [(tagsText?_eq_some_iff h).mpr hrest]

theorem ofPlain?_of_choice {c : ChoiceLayout} (h : '\n' ∉ c.chars) (hnumeral : IsNumeral32 c.digits) :
    ofPlain? c.chars = some (.choice c.choice) := by
  have htags := (tagsText?_eq_none_iff h).mpr (c.not_isPrefix_chars (by decide) _)
  unfold ofPlain?
  rw [htags, c.choice?_of_isNumeral32 h hnumeral]

theorem ofPlain?_of_prompt (h : '\n' ∉ cs) (hprompt : promptMark <+: cs) :
    ofPlain? cs = some .prompt := by
  obtain ⟨rest, rfl⟩ := hprompt
  have htags : tagsText? (promptMark ++ rest) = none := by
    rw [tagsText?_eq_none_iff h]
    rintro ⟨tail, htail⟩
    exact absurd (List.cons.inj htail).1 (by decide)
  have hchoice : choice? (promptMark ++ rest) = none := choice?_of_stops (stops_cons.mpr (by decide))
  unfold ofPlain?
  rw [htags, hchoice]
  dsimp only
  rw [if_pos (List.isPrefixOf_iff_prefix.mpr (List.prefix_append _ _))]

theorem ofPlain?_of_text (h : '\n' ∉ cs) (htags : ¬ tagsMark <+: cs)
    (hchoice : ∀ c : ChoiceLayout, c.chars = cs → ¬ IsNumeral32 c.digits)
    (hprompt : ¬ promptMark <+: cs) (hend : cs ≠ InkServer.endOfStory) (hblank : allBlank cs = false) :
    ofPlain? cs = some (.text (String.ofList cs)) := by
  unfold ofPlain?
  rw [(tagsText?_eq_none_iff h).mpr htags, (choice?_eq_none_iff h).mpr hchoice]
  dsimp only
  rw [if_neg (fun hstart => hprompt (List.isPrefixOf_iff_prefix.mp hstart)), if_neg hend, if_neg]
  simp [hblank]

theorem classify?_of_recognized (h : '\n' ∉ line) (hitem : Recognized (dropFinal '\r' line) item) :
    classify? line = some item := by
  have hfeed := not_mem_dropFinal h
  -- Only a diagnostic begins with an upper-case letter.
  have hplain (hstops : Stops DiagnosticShape.isUpper (dropFinal '\r' line)) :=
    classify?_of_no_layout (DiagnosticLayout.chars_ne_of_stops hstops)
  cases hitem with
  | diagnostic t ht =>
    rw [classify?_of_layout h (t.chars_layout.trans ht), t.ofShape?_layout]
    rfl
  | tags hrest htags =>
    rw [hplain, ofPlain?_of_tags hfeed hrest, tagList_iff.mp htags]
    rw [← hrest]
    exact stops_cons.mpr (by decide)
  | choice c hc hnumeral =>
    rw [hplain, ← hc, ofPlain?_of_choice (hc ▸ hfeed) hnumeral]
    . rfl
    . rw [← hc]
      exact c.stops_isUpper_chars
  | prompt hprompt =>
    rw [hplain, ofPlain?_of_prompt hfeed hprompt]
    obtain ⟨rest, hrest⟩ := hprompt
    rw [← hrest]
    exact stops_cons.mpr (by decide)
  | endOfStory hend =>
    rw [hplain, hend]
    . decide
    . rw [hend]
      decide
  | text hdiagnostic htags hchoice hprompt hend hblank =>
    rw [classify?_of_no_layout hdiagnostic, ofPlain?_of_text hfeed htags hchoice hprompt hend hblank]

theorem recognized_of_ofPlain? (h : '\n' ∉ cs) (hno : ∀ l : DiagnosticLayout, l.chars ≠ cs)
    (hitem : ofPlain? cs = some item) : Recognized cs item := by
  unfold ofPlain? at hitem
  split at hitem
  . next rest hrest =>
    cases hitem
    exact .tags ((tagsText?_eq_some_iff h).mp hrest) (tagList_iff.mpr rfl)
  . next htags =>
    split at hitem
    . next found hfound =>
      cases hitem
      obtain ⟨c, hc, hnumeral, rfl⟩ := ChoiceLayout.exists_of_choice? hfound
      exact .choice c hc hnumeral
    . next hchoice =>
      rw [tagsText?_eq_none_iff h] at htags
      rw [choice?_eq_none_iff h] at hchoice
      split at hitem
      . next hprompt =>
        cases hitem
        exact .prompt (List.isPrefixOf_iff_prefix.mp hprompt)
      . next hprompt =>
        split at hitem
        . next hend =>
          cases hitem
          exact .endOfStory hend
        . next hend =>
          split at hitem
          . cases hitem
          . next hblank =>
            cases hitem
            exact .text hno htags hchoice (fun hstart => hprompt (List.isPrefixOf_iff_prefix.mpr hstart))
              hend (by simpa using hblank)

theorem recognized_of_classify? (h : '\n' ∉ line) (hitem : classify? line = some item) :
    Recognized (dropFinal '\r' line) item := by
  by_cases hlayout : ∃ l : DiagnosticLayout, l.chars = dropFinal '\r' line
  . obtain ⟨l, hl⟩ := hlayout
    rw [classify?_of_layout h hl] at hitem
    obtain ⟨t, ht, rfl⟩ := DiagnosticText.exists_of_ofShape? hitem
    refine .diagnostic t ?_
    rw [← t.chars_layout, ht, hl]
  . have hno : ∀ l : DiagnosticLayout, l.chars ≠ dropFinal '\r' line := fun l hl => hlayout ⟨l, hl⟩
    rw [classify?_of_no_layout hno] at hitem
    exact recognized_of_ofPlain? (not_mem_dropFinal h) hno hitem

theorem allBlank_of_ofPlain?_eq_none (h : ofPlain? cs = none) : allBlank cs := by
  unfold ofPlain? at h
  split at h
  . cases h
  . split at h
    . cases h
    . split at h
      . cases h
      . split at h
        . cases h
        . split at h
          . assumption
          . cases h

theorem stops_isUpper_of_allBlank (h : allBlank cs) : Stops DiagnosticShape.isUpper cs := by
  intro c hc
  have hblank := (isBlank_iff_mem_whiteSpace c).mp (List.all_eq_true.mp h c (List.mem_of_head? hc))
  unfold DiagnosticShape.isUpper
  generalize c.toNat = n at hblank
  revert n
  decide

theorem classify?_eq_none_iff (h : '\n' ∉ line) :
    classify? line = none
      ↔
    allBlank (dropFinal '\r' line)
      ∨ ∃ l : DiagnosticLayout, l.chars = dropFinal '\r' line ∧ ¬ l.IsKnown := by
  constructor
  . intro hnone
    by_cases hlayout : ∃ l : DiagnosticLayout, l.chars = dropFinal '\r' line
    . obtain ⟨l, hl⟩ := hlayout
      refine .inr ⟨l, hl, ?_⟩
      intro hknown
      obtain ⟨t, rfl⟩ := DiagnosticText.exists_layout_eq hknown
      rw [classify?_of_layout h hl, t.ofShape?_layout] at hnone
      cases hnone
    . rw [classify?_of_no_layout fun l hl => hlayout ⟨l, hl⟩] at hnone
      exact .inl (allBlank_of_ofPlain?_eq_none hnone)
  . rintro (hblank | ⟨l, hl, hunknown⟩)
    . rw [classify?_of_no_layout (DiagnosticLayout.chars_ne_of_stops (stops_isUpper_of_allBlank hblank)),
        ofPlain?_of_allBlank hblank]
    . rw [classify?_of_layout h hl, DiagnosticLayout.ofShape?_of_not_isKnown hunknown]

/-- Nothing is dropped but blank lines and lines with the shape of a diagnostic whose words mark no
kind or whose digits are no number. Every other line is recognized as what its form says, and a line
with the shape of a choice whose digits are no number stays a line of text. -/
theorem classify?_drops_no_story (h : '\n' ∉ line) :
    (classify? line = none
      ↔
    allBlank (dropFinal '\r' line)
      ∨ ∃ l : DiagnosticLayout, l.chars = dropFinal '\r' line
        ∧ ((∀ kind : Kind, kind.marker.toList ≠ l.words) ∨ ¬ IsNumeral32 l.digits))
      ∧ (∀ item, classify? line = some item ↔ Recognized (dropFinal '\r' line) item)
      ∧ ∀ c : ChoiceLayout, c.chars = dropFinal '\r' line → ¬ IsNumeral32 c.digits →
          classify? line = some (.text (String.ofList (dropFinal '\r' line))) := by
  refine ⟨?_, fun item => ⟨recognized_of_classify? h, classify?_of_recognized h⟩, ?_⟩
  . rw [classify?_eq_none_iff h]
    simp only [DiagnosticLayout.IsKnown, not_and_or, not_exists, ne_eq]
  . intro c hc hnumeral
    apply classify?_of_recognized h
    rw [← hc]
    exact c.recognized_text hnumeral

theorem classify?_drops_no_story_number_too_large :
    '\n' ∉ "4294967296: It's late.\r".toList
      ∧ classify? "4294967296: It's late.\r".toList = some (.text "4294967296: It's late.") := by
  have hline : '\n' ∉ "4294967296: It's late.\r".toList := by decide
  obtain ⟨_, _, htext⟩ := classify?_drops_no_story hline
  let c : ChoiceLayout := ⟨"4294967296".toList, "It's late.".toList, by decide, by decide⟩
  have hnumeral : ¬ IsNumeral32 c.digits := fun h => absurd h.value_lt (by decide)
  exact ⟨hline, htext c (by decide) hnumeral⟩

end OutputLine

end InkServer
