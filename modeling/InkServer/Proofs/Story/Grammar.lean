import InkServer.Proofs.Story.Line
import Mathlib.Algebra.Group.Nat.Defs

/-!
This module contains the grammar of diagnostics. A line is recognized as a diagnostic exactly when it
is the text of one, and a line is the text of one diagnostic at most.
-/

namespace InkServer

open Text

theorem Text.isDigit_of_isAsciiDigit {c : Char} (h : isAsciiDigit c) : isDigit c := by
  simp only [isAsciiDigit, Bool.and_eq_true, decide_eq_true_eq] at h
  simp only [isDigit, digitRanges, List.any_cons, Bool.or_eq_true, Bool.and_eq_true,
    decide_eq_true_eq]
  exact .inl h

/-- The numeral of a number of 32 bits, in ASCII digits. -/
structure Text.IsNumeral32 (digits : List Char) : Prop where
  ne_nil : digits ≠ []
  ascii : digits.all isAsciiDigit
  value_lt : numeralValue digits < 2 ^ 32

theorem Text.readDigits?_of_isNumeral32 {cs : List Char} (h : IsNumeral32 cs) :
    readDigits? bound32 cs = some (numeralValue cs) :=
  if_pos ⟨h.ne_nil, h.ascii, h.value_lt⟩

theorem Text.readDigits?_of_not_isNumeral32 {cs : List Char} (h : ¬ IsNumeral32 cs) :
    readDigits? bound32 cs = none := by
  apply if_neg
  rintro ⟨hne, hascii, hlt⟩
  exact h ⟨hne, hascii, hlt⟩

theorem Kind.ofMarker?_eq_some_iff {kind : Kind} {cs : List Char} :
    ofMarker? cs = some kind ↔ kind.marker.toList = cs := by
  constructor
  . intro h
    unfold ofMarker? at h
    have hfound := List.find?_some h
    exact of_decide_eq_true hfound
  . rintro rfl
    cases kind <;> decide

theorem Kind.marker_inj {kind kind' : Kind} (h : kind.marker.toList = kind'.marker.toList) :
    kind = kind' := by
  have hfound : ofMarker? kind'.marker.toList = some kind' := ofMarker?_eq_some_iff.mpr rfl
  exact Option.some.inj ((ofMarker?_eq_some_iff.mpr h).symm.trans hfound)

def quoteMark : Char := '\x27'

/-- A file name as it stands in a diagnostic: in quotes, and with blanks after them. -/
@[ext]
structure QuotedName where
  name : List Char
  gap : List Char
  name_ne_nil : name ≠ []
  quote_not_mem : quoteMark ∉ name
  gap_ne_nil : gap ≠ []
  gap_blank : allBlank gap

/-- The text of a file name that may be missing. -/
def QuotedName.chars : Option QuotedName → List Char
  | some q => quoteMark :: (q.name ++ quoteMark :: q.gap)
  | none => []

namespace DiagnosticShape

variable {cs rest : List Char} {file : Option (List Char)}

/-- Upper-case letters with spaces among them, but not at the ends. -/
def IsWords (cs : List Char) : Prop :=
  ∃ first middle last, cs = first :: (middle ++ [last]) ∧ isUpper first ∧ isUpper last
    ∧ ∀ c ∈ middle, isUpper c ∨ c = ' '

theorem isWords_iff : isWords cs = true ↔ IsWords cs := by
  simp only [isWords, Bool.and_eq_true, decide_eq_true_eq, List.all_eq_true, Bool.or_eq_true]
  constructor
  . rintro ⟨⟨⟨hlength, hall⟩, hfirst⟩, hlast⟩
    cases cs with
    | nil => simp at hlength
    | cons first rest =>
      have hrest : rest ≠ [] := by
        rintro rfl
        simp at hlength
      rw [List.getLast?_cons_of_ne_nil hrest, List.getLast?_eq_some_getLast hrest] at hlast
      refine ⟨first, rest.dropLast, rest.getLast hrest, ?_, hfirst, hlast, ?_⟩
      . rw [List.dropLast_concat_getLast]
      . intro c hc
        exact hall c (.tail _ ((List.dropLast_sublist rest).subset hc))
  . rintro ⟨first, middle, last, rfl, hfirst, hlast, hmiddle⟩
    refine ⟨⟨⟨by simp, ?_⟩, by simpa using hfirst⟩, ?_⟩
    . intro c hc
      rcases List.mem_cons.mp hc with rfl | hc
      . exact .inl hfirst
      . rcases List.mem_append.mp hc with hc | hc
        . exact hmiddle c hc
        . rw [List.mem_singleton.mp hc]
          exact .inl hlast
    . rw [← List.cons_append, List.getLast?_concat]
      exact hlast

theorem IsWords.colon_not_mem (h : IsWords cs) : ':' ∉ cs := by
  intro hcolon
  have hall := isWords_iff.mpr h
  simp only [isWords, Bool.and_eq_true, List.all_eq_true] at hall
  exact absurd (hall.1.1.2 ':' hcolon) (by decide)

theorem isWords_marker (kind : Kind) : IsWords kind.marker.toList := by
  apply isWords_iff.mp
  cases kind <;> decide

theorem quotedFile?_chars (q : Option QuotedName) (hblank : Stops isBlank rest)
    (hquote : rest.head? ≠ some quoteMark) :
    quotedFile? (QuotedName.chars q ++ rest) = some (q.map QuotedName.name, rest) := by
  cases q with
  | none =>
    rw [QuotedName.chars, List.nil_append]
    unfold quotedFile?
    split
    . exact absurd rfl hquote
    . rfl
  | some q =>
    have hsplit := splitFirst?_append_cons q.quote_not_mem (q.gap ++ rest)
    obtain ⟨c, name, hname⟩ := List.exists_cons_of_ne_nil q.name_ne_nil
    obtain ⟨b, gap, hgap⟩ := List.exists_cons_of_ne_nil q.gap_ne_nil
    have hblanks := q.gap_blank
    rw [hgap, allBlank, List.all_cons, Bool.and_eq_true] at hblanks
    have hrest : trimStart (gap ++ rest) = rest := dropWhile_append_of_stops hblanks.2 hblank
    rw [hname, hgap, List.cons_append] at hsplit
    rw [QuotedName.chars, List.cons_append, List.append_assoc, List.cons_append, hname, hgap,
      List.cons_append, List.cons_append]
    simp only [quoteMark, List.cons_append] at hsplit ⊢
    simp [quotedFile?, hsplit, hblanks.1, hrest, hname]

theorem exists_of_quotedFile? (h : quotedFile? cs = some (file, rest)) :
    ∃ q : Option QuotedName, cs = QuotedName.chars q ++ rest ∧ file = q.map QuotedName.name := by
  unfold quotedFile? at h
  split at h
  . next quoted =>
    split at h
    . next c name b after hsplit =>
      split at h
      . next hb =>
        obtain ⟨hcs, hquote⟩ := eq_of_splitFirst? hsplit
        have hblanks : allBlank (b :: after.takeWhile isBlank) := by
          rw [allBlank, List.all_cons, hb, Bool.true_and]
          apply allBlank_takeWhile
        cases h
        refine ⟨some ⟨c :: name, b :: after.takeWhile isBlank, by simp, hquote, by simp, hblanks⟩,
          ?_, rfl⟩
        rw [hcs]
        simp [QuotedName.chars, quoteMark, trimStart]
      . cases h
    . cases h
  . cases h
    exact ⟨none, rfl, rfl⟩

end DiagnosticShape

/-- The parts of a line with the shape of a diagnostic. Its words need not be the marker of a kind, nor
its digits a number. -/
@[ext]
structure DiagnosticLayout where
  words : List Char
  /-- The blanks after the words. -/
  gap : List Char
  file : Option QuotedName
  digits : List Char
  /-- The blanks before the message. -/
  space : List Char
  message : List Char
  isWords : DiagnosticShape.IsWords words
  gap_blank : allBlank gap
  digits_ne_nil : digits ≠ []
  digits_isDigit : digits.all isDigit
  space_blank : allBlank space
  message_stops : Stops isBlank message

namespace DiagnosticLayout

open DiagnosticShape

variable {l l' : DiagnosticLayout} {cs : List Char} {parsed : DiagnosticShape}

/-- The part of the line that tells its number and the message. -/
def afterFile (l : DiagnosticLayout) : List Char :=
  lineWord ++ (l.digits ++ ':' :: (l.space ++ l.message))

/-- The whole line. -/
def chars (l : DiagnosticLayout) : List Char :=
  l.words ++ ':' :: (l.gap ++ (QuotedName.chars l.file ++ l.afterFile))

def shape (l : DiagnosticLayout) : DiagnosticShape :=
  ⟨l.words, l.file.map QuotedName.name, l.digits, l.message⟩

theorem afterFile_eq_cons (l : DiagnosticLayout) : ∃ tail, l.afterFile = 'l' :: tail :=
  ⟨_, rfl⟩

theorem stops_afterFile (l : DiagnosticLayout) : Stops isBlank l.afterFile := by
  obtain ⟨tail, htail⟩ := l.afterFile_eq_cons
  rw [htail, stops_cons]
  decide

theorem stops_file (l : DiagnosticLayout) : Stops isBlank (QuotedName.chars l.file ++ l.afterFile) := by
  cases l.file with
  | none => exact l.stops_afterFile
  | some q =>
    rw [QuotedName.chars, List.cons_append, stops_cons]
    decide

/-- A line that does not begin with an upper-case letter does not have the shape of a diagnostic. -/
theorem chars_ne_of_stops (h : Stops isUpper cs) (l : DiagnosticLayout) : l.chars ≠ cs := by
  rintro rfl
  obtain ⟨first, middle, last, hwords, hfirst, _⟩ := l.isWords
  rw [chars, hwords, List.cons_append, stops_cons, hfirst] at h
  cases h

theorem ofChars?_chars (l : DiagnosticLayout) (h : '\n' ∉ l.message) :
    ofChars? l.chars = some l.shape := by
  have hsplit : splitFirst? ':' l.chars = some (l.words, _) :=
    splitFirst?_append_cons l.isWords.colon_not_mem _
  have hfile : trimStart (l.gap ++ (QuotedName.chars l.file ++ l.afterFile)) = _ :=
    dropWhile_append_of_stops l.gap_blank l.stops_file
  have hquoted := quotedFile?_chars l.file l.stops_afterFile (by
    obtain ⟨tail, htail⟩ := l.afterFile_eq_cons
    rw [htail, List.head?_cons]
    decide)
  have hline : afterStart? lineWord l.afterFile = some _ := afterStart?_eq_some_iff.mpr rfl
  have hcolon : Stops isDigit (':' :: (l.space ++ l.message)) := stops_cons.mpr (by decide)
  have htake := takeWhile_append_of_stops l.digits_isDigit hcolon
  have hdrop := dropWhile_append_of_stops l.digits_isDigit hcolon
  have hmessage : trimStart (l.space ++ l.message) = l.message :=
    dropWhile_append_of_stops l.space_blank l.message_stops
  obtain ⟨d, ds, hdigits⟩ := List.exists_cons_of_ne_nil l.digits_ne_nil
  unfold ofChars?
  simp only [hsplit, isWords_iff.mpr l.isWords, hfile, hquoted, hline, htake, hdrop]
  simp [hdigits, hmessage, h, shape]

theorem exists_of_ofChars? (h : ofChars? cs = some parsed) :
    ∃ l : DiagnosticLayout, l.chars = cs ∧ l.shape = parsed := by
  unfold ofChars? at h
  split at h
  . cases h
  . next words rest hsplit =>
    split at h
    . cases h
    . next hwords =>
      split at h
      . cases h
      . next file unquoted hquoted =>
        split at h
        . cases h
        . next numbered hline =>
          dsimp only at h
          split at h
          . next d ds tail htake hdrop =>
            split at h
            . cases h
            . -- The parts are put together in the order in which they were cut off.
              obtain ⟨hcs, _⟩ := eq_of_splitFirst? hsplit
              obtain ⟨q, hq, hname⟩ := exists_of_quotedFile? hquoted
              have hnumbered := @List.takeWhile_append_dropWhile _ isDigit numbered
              have hgap := @List.takeWhile_append_dropWhile _ isBlank rest
              have hspace := @List.takeWhile_append_dropWhile _ isBlank tail
              cases h
              refine ⟨⟨words, rest.takeWhile isBlank, q, numbered.takeWhile isDigit,
                tail.takeWhile isBlank, trimStart tail, isWords_iff.mp (by simpa using hwords),
                allBlank_takeWhile _, by simp [htake], List.all_takeWhile, allBlank_takeWhile _,
                stops_dropWhile _ _⟩, ?_, by rw [shape, hname]⟩
              dsimp only [chars, afterFile, trimStart] at hq ⊢
              rw [hspace, ← hdrop, hnumbered, ← afterStart?_eq_some_iff.mp hline, ← hq, hgap, hcs]
          . cases h

theorem exists_chars_iff (h : '\n' ∉ cs) :
    (∃ l : DiagnosticLayout, l.chars = cs ∧ l.shape = parsed) ↔ ofChars? cs = some parsed := by
  constructor
  . rintro ⟨l, rfl, rfl⟩
    apply l.ofChars?_chars
    intro hmem
    apply h
    simp [chars, afterFile, hmem]
  . exact exists_of_ofChars?

/-- The words mark a kind, and the digits are a number. -/
def IsKnown (l : DiagnosticLayout) : Prop :=
  (∃ kind : Kind, kind.marker.toList = l.words) ∧ IsNumeral32 l.digits

theorem ofShape?_of_not_isKnown (h : ¬ l.IsKnown) : OutputLine.ofShape? l.shape = none := by
  unfold OutputLine.ofShape?
  split
  . next kind number hkind hnumber =>
    have hnumeral : ¬ IsNumeral32 l.digits :=
      fun hnumeral => h ⟨⟨kind, Kind.ofMarker?_eq_some_iff.mp hkind⟩, hnumeral⟩
    have hnone : readDigits? bound32 l.shape.digits = none := readDigits?_of_not_isNumeral32 hnumeral
    rw [hnone] at hnumber
    cases hnumber
  . rfl

theorem file_inj (h : QuotedName.chars l.file ++ l.afterFile = QuotedName.chars l'.file ++ l'.afterFile) :
    l.file = l'.file ∧ l.afterFile = l'.afterFile := by
  obtain ⟨tail, htail⟩ := l.afterFile_eq_cons
  obtain ⟨tail', htail'⟩ := l'.afterFile_eq_cons
  have hne : 'l' ≠ quoteMark := by decide
  cases hfile : l.file with
  | none =>
    cases hfile' : l'.file with
    | none =>
      rw [hfile, hfile'] at h
      exact ⟨rfl, h⟩
    | some q' =>
      rw [hfile, hfile', htail] at h
      exact absurd (List.cons.inj h).1 hne
  | some q =>
    cases hfile' : l'.file with
    | none =>
      rw [hfile, hfile', htail'] at h
      exact absurd (List.cons.inj h).1.symm hne
    | some q' =>
      rw [hfile, hfile'] at h
      simp only [QuotedName.chars, List.cons_append, List.append_assoc, List.cons.injEq,
        true_and] at h
      obtain ⟨hname, hrest⟩ := append_cons_inj_of_not_mem q.quote_not_mem q'.quote_not_mem h
      obtain ⟨hgap, hafter⟩ := append_inj_of_stops q.gap_blank l.stops_afterFile q'.gap_blank
        l'.stops_afterFile hrest
      exact ⟨congrArg some (QuotedName.ext hname hgap), hafter⟩

/-- A line is laid out as a diagnostic in one way at most. -/
theorem chars_inj (h : l.chars = l'.chars) : l = l' := by
  have hcolon : ∀ cs, Stops isDigit (':' :: cs) := fun cs => stops_cons.mpr (by decide)
  obtain ⟨hwords, hafter⟩ := append_cons_inj_of_not_mem l.isWords.colon_not_mem
    l'.isWords.colon_not_mem h
  obtain ⟨hgap, hrest⟩ := append_inj_of_stops l.gap_blank l.stops_file l'.gap_blank l'.stops_file hafter
  obtain ⟨hfile, hline⟩ := file_inj hrest
  obtain ⟨hdigits, htail⟩ := append_inj_of_stops l.digits_isDigit (hcolon _) l'.digits_isDigit
    (hcolon _) (List.append_cancel_left hline)
  obtain ⟨hspace, hmessage⟩ := append_inj_of_stops l.space_blank l.message_stops l'.space_blank
    l'.message_stops (List.cons.inj htail).2
  exact DiagnosticLayout.ext hwords hgap hfile hdigits hspace hmessage

end DiagnosticLayout

/-- The parts of the text of a diagnostic. -/
@[ext]
structure DiagnosticText where
  kind : Kind
  /-- The blanks after the marker of the kind. -/
  gap : List Char
  file : Option QuotedName
  digits : List Char
  /-- The blanks before the message. -/
  space : List Char
  message : List Char
  gap_blank : allBlank gap
  isNumeral : IsNumeral32 digits
  space_blank : allBlank space
  message_stops : Stops isBlank message

namespace DiagnosticText

variable {t t' : DiagnosticText} {l : DiagnosticLayout}

/-- The text of a diagnostic. -/
def chars (t : DiagnosticText) : List Char :=
  t.kind.marker.toList ++ ':' :: (t.gap ++ (QuotedName.chars t.file ++
    (DiagnosticShape.lineWord ++ (t.digits ++ ':' :: (t.space ++ t.message)))))

/-- The file that the diagnostic names. -/
def fileName (t : DiagnosticText) : Option String :=
  (t.file.map QuotedName.name).map String.ofList

/-- The number of the line that the diagnostic is about. -/
def number (t : DiagnosticText) : Nat :=
  numeralValue t.digits

/-- What the text says. -/
def item (t : DiagnosticText) : OutputLine :=
  .diagnostic t.kind t.fileName t.number (String.ofList t.message)

def layout (t : DiagnosticText) : DiagnosticLayout where
  words := t.kind.marker.toList
  gap := t.gap
  file := t.file
  digits := t.digits
  space := t.space
  message := t.message
  isWords := DiagnosticShape.isWords_marker t.kind
  gap_blank := t.gap_blank
  digits_ne_nil := t.isNumeral.ne_nil
  digits_isDigit := by
    apply List.all_eq_true.mpr
    intro c hc
    exact isDigit_of_isAsciiDigit (List.all_eq_true.mp t.isNumeral.ascii c hc)
  space_blank := t.space_blank
  message_stops := t.message_stops

theorem chars_layout (t : DiagnosticText) : t.layout.chars = t.chars := rfl

theorem ofShape?_layout (t : DiagnosticText) : OutputLine.ofShape? t.layout.shape = some t.item := by
  have hkind : Kind.ofMarker? t.layout.shape.words = some t.kind := Kind.ofMarker?_eq_some_iff.mpr rfl
  have hnumber : readDigits? bound32 t.layout.shape.digits = some t.number :=
    readDigits?_of_isNumeral32 t.isNumeral
  unfold OutputLine.ofShape?
  rw [hkind, hnumber]
  rfl

theorem exists_layout_eq (h : l.IsKnown) : ∃ t : DiagnosticText, t.layout = l := by
  obtain ⟨⟨kind, hwords⟩, hnumeral⟩ := h
  exact ⟨⟨kind, l.gap, l.file, l.digits, l.space, l.message, l.gap_blank, hnumeral, l.space_blank,
    l.message_stops⟩, DiagnosticLayout.ext hwords rfl rfl rfl rfl rfl⟩

theorem exists_of_ofShape? {item : OutputLine} (h : OutputLine.ofShape? l.shape = some item) :
    ∃ t : DiagnosticText, t.layout = l ∧ t.item = item := by
  by_cases hknown : l.IsKnown
  . obtain ⟨t, ht⟩ := exists_layout_eq hknown
    rw [← ht, t.ofShape?_layout] at h
    exact ⟨t, ht, Option.some.inj h⟩
  . rw [DiagnosticLayout.ofShape?_of_not_isKnown hknown] at h
    cases h

/-- A line is the text of one diagnostic at most. -/
theorem chars_inj (h : t.chars = t'.chars) : t = t' := by
  have hlayout : t.layout = t'.layout := DiagnosticLayout.chars_inj h
  injection hlayout with hwords hgap hfile hdigits hspace hmessage
  exact DiagnosticText.ext (Kind.marker_inj hwords) hgap hfile hdigits hspace hmessage

end DiagnosticText

namespace OutputLine

variable {line : List Char}

theorem not_mem_dropFinal (h : '\n' ∉ line) : '\n' ∉ dropFinal '\r' line :=
  fun hmem => h (mem_of_mem_dropFinal hmem)

theorem classify?_of_layout (h : '\n' ∉ line) {l : DiagnosticLayout}
    (hl : l.chars = dropFinal '\r' line) : classify? line = ofShape? l.shape := by
  have hshape := (DiagnosticLayout.exists_chars_iff (not_mem_dropFinal h)).mp ⟨l, hl, rfl⟩
  simp only [classify?, hshape]

theorem classify?_of_no_layout (h : ∀ l : DiagnosticLayout, l.chars ≠ dropFinal '\r' line) :
    classify? line = ofPlain? (dropFinal '\r' line) := by
  unfold classify?
  dsimp only
  split
  . next shape hshape =>
    obtain ⟨l, hl, _⟩ := DiagnosticLayout.exists_of_ofChars? hshape
    exact absurd hl (h l)
  . rfl

theorem ofPlain?_ne_diagnostic (cs : List Char) (kind : Kind) (file : Option String) (number : Nat)
    (message : String) : ofPlain? cs ≠ some (.diagnostic kind file number message) := by
  unfold ofPlain?
  split
  . simp
  . split
    . simp
    . split
      . simp
      . split
        . simp
        . split
          . simp
          . simp

/-- A line is recognized as a diagnostic exactly when it is the text of one, with the parts of that
text, and there is one such text at most. The blanks in it are the characters with the property
White_Space. -/
theorem classify?_diagnostic_iff (h : '\n' ∉ line) :
    (∀ kind file number message,
      classify? line = some (.diagnostic kind file number message)
        ↔
      ∃ t : DiagnosticText, t.chars = dropFinal '\r' line ∧ t.kind = kind ∧ t.fileName = file
        ∧ t.number = number ∧ String.ofList t.message = message)
      ∧ (∀ t t' : DiagnosticText, t.chars = dropFinal '\r' line → t'.chars = dropFinal '\r' line →
          t = t')
      ∧ ∀ c, isBlank c = true ↔ c.toNat ∈ whiteSpace := by
  refine ⟨?_, fun t t' ht ht' => DiagnosticText.chars_inj (ht.trans ht'.symm),
    isBlank_iff_mem_whiteSpace⟩
  intro kind file number message
  constructor
  . intro hitem
    by_cases hlayout : ∃ l : DiagnosticLayout, l.chars = dropFinal '\r' line
    . obtain ⟨l, hl⟩ := hlayout
      rw [classify?_of_layout h hl] at hitem
      obtain ⟨t, ht, hsays⟩ := DiagnosticText.exists_of_ofShape? hitem
      injection hsays with hkind hfile hnumber hmessage
      refine ⟨t, ?_, hkind, hfile, hnumber, hmessage⟩
      rw [← t.chars_layout, ht, hl]
    . rw [classify?_of_no_layout fun l hl => hlayout ⟨l, hl⟩] at hitem
      exact absurd hitem (ofPlain?_ne_diagnostic _ _ _ _ _)
  . rintro ⟨t, ht, rfl, rfl, rfl, rfl⟩
    rw [classify?_of_layout h (t.chars_layout.trans ht), t.ofShape?_layout]
    rfl

/-- A warning with unusual blanks and leading zeros, whose message looks like a diagnostic itself. -/
def oddWarning : DiagnosticText where
  kind := .runtimeWarning
  gap := "\u3000".toList
  file := some ⟨"a b/it.ink".toList, " \t".toList, by decide, by decide, by decide, by decide⟩
  digits := "0042".toList
  space := "\u00a0 ".toList
  message := "'x' line 3: done ".toList
  gap_blank := by decide
  isNumeral := ⟨by decide, by decide, by decide⟩
  space_blank := by decide
  message_stops := by decide

theorem classify?_oddWarning :
    '\n' ∉ "RUNTIME WARNING:\u3000'a b/it.ink' \tline 0042:\u00a0 'x' line 3: done \r".toList
      ∧ classify? "RUNTIME WARNING:\u3000'a b/it.ink' \tline 0042:\u00a0 'x' line 3: done \r".toList
          =
        some (.diagnostic .runtimeWarning (some "a b/it.ink") 42 "'x' line 3: done ") := by
  have hline : '\n' ∉
      "RUNTIME WARNING:\u3000'a b/it.ink' \tline 0042:\u00a0 'x' line 3: done \r".toList := by decide
  obtain ⟨hiff, _⟩ := classify?_diagnostic_iff hline
  exact ⟨hline, (hiff _ _ _ _).mpr ⟨oddWarning, by decide, rfl, by decide, by decide, by decide⟩⟩

end OutputLine

end InkServer
