import InkServer.Proofs.Story.Line
import InkServer.Proofs.Text.Utf8
import InkServer.Story.Scan

/-!
This module contains the law of scanning output that arrives in chunks: the events are those of the
lines of the whole output, wherever it was cut.
-/

namespace InkServer

open Text

def isBare (bytes : Bytes) : Bool :=
  bytes.all fun b => b = 32 || b = 9 || b = carriageReturn

/-- If the line asks for a choice, nothing but blanks stands after the mark. -/
def isBarePrompt (line : Bytes) : Bool :=
  match afterStart? (encode promptMark) line with
  | some tail => isBare tail
  | none => true

theorem encode_promptMark : encode promptMark = [63, 62] := by
  decide

theorem isBarePrompt_prompt (tail : Bytes) : isBarePrompt (63 :: 62 :: tail) = isBare tail := by
  simp [isBarePrompt, afterStart?, encode_promptMark]

theorem isBarePrompt_of_isBare {line : Bytes} (h : isBare line) : isBarePrompt line := by
  cases line with
  | nil => decide
  | cons b line =>
    have hb : b ≠ 63 := by
      intro heq
      simp [isBare, heq, carriageReturn] at h
    simp [isBarePrompt, afterStart?, encode_promptMark, hb.symm]

theorem exists_decodeLine_prompt (tail : Bytes) :
    ∃ cs, decodeLine (63 :: 62 :: tail) = '?' :: '>' :: cs := by
  have hdrop : ∃ raw, dropFinal carriageReturn (63 :: 62 :: tail) = 63 :: 62 :: raw := by
    cases tail with
    | nil => exact ⟨[], by decide⟩
    | cons b tail => exact ⟨_, by rw [dropFinal_cons_cons, dropFinal_cons_cons]⟩
  obtain ⟨raw, hraw⟩ := hdrop
  refine ⟨decodeLossy raw, ?_⟩
  rw [decodeLine, hraw, decodeLossy_cons (by decide), decodeLossy_cons (by decide)]
  rfl

theorem allBlank_decodeLossy {bytes : Bytes} (h : isBare bytes) : allBlank (decodeLossy bytes) := by
  induction bytes with
  | nil => simp [decodeLossy, decodeUnits]
  | cons b bytes ih =>
    simp only [isBare, List.all_cons, Bool.and_eq_true, Bool.or_eq_true, decide_eq_true_eq] at h
    have hb : b < 0x80 ∧ isBlank (Char.ofNat b.toNat) := by
      rcases h.1 with (hb | hb) | hb <;> rw [hb] <;> decide
    rw [decodeLossy_cons hb.1]
    simp only [allBlank, List.all_cons, Bool.and_eq_true]
    exact ⟨hb.2, ih h.2⟩

theorem allBlank_decodeLine {bytes : Bytes} (h : isBare bytes) : allBlank (decodeLine bytes) := by
  apply allBlank_decodeLossy
  apply List.all_eq_true.mpr
  intro b hb
  apply List.all_eq_true.mp h
  apply mem_of_mem_dropFinal hb

namespace Scanner

variable {s : Scanner} {raw chunk : Bytes} {chunks : List Bytes}

/-- The events of output that comes in the given chunks and then ends. -/
def events (s : Scanner) : List Bytes → List ScanEvent
  | [] => s.finish.1
  | chunk :: chunks => (s.push chunk).1 ++ (s.push chunk).2.events chunks

theorem routeLine_buffer (s : Scanner) (buffer : LineBuffer) (l : OutputLine) :
    { s with buffer }.routeLine l = ((s.routeLine l).1, { (s.routeLine l).2 with buffer }) := by
  rcases s with ⟨mode, mainStory, collecting, pending⟩
  cases mode with
  | play =>
    cases l with
    | diagnostic kind file line message =>
      simp only [routeLine]
      split <;> rfl
    | _ => rfl
  | compile =>
    cases l with
    | diagnostic kind file line message =>
      simp only [routeLine]
      split <;> rfl
    | _ => rfl

theorem scanLine_buffer (s : Scanner) (buffer : LineBuffer) (line : List Char) :
    { s with buffer }.scanLine line = ((s.scanLine line).1, { (s.scanLine line).2 with buffer }) := by
  unfold scanLine
  split
  . apply routeLine_buffer
  . rfl

theorem scanLines_buffer (s : Scanner) (buffer : LineBuffer) (lines : List (List Char)) :
    { s with buffer }.scanLines lines
      =
    ((s.scanLines lines).1, { (s.scanLines lines).2 with buffer }) := by
  induction lines generalizing s with
  | nil => rfl
  | cons line lines ih => simp [scanLines, scanLine_buffer, ih]

theorem scanLines_append (s : Scanner) (lines more : List (List Char)) :
    s.scanLines (lines ++ more)
      =
    ((s.scanLines lines).1 ++ ((s.scanLines lines).2.scanLines more).1,
      ((s.scanLines lines).2.scanLines more).2) := by
  induction lines generalizing s with
  | nil => rfl
  | cons line lines ih => simp [scanLines, ih]

theorem mode_routeLine (s : Scanner) (l : OutputLine) : (s.routeLine l).2.mode = s.mode := by
  cases l with
  | diagnostic kind file line message =>
    simp only [routeLine]
    split <;> split <;> rfl
  | text t =>
    simp only [routeLine]
    split <;> rfl
  | _ => rfl

theorem mode_scanLines (s : Scanner) (lines : List (List Char)) :
    (s.scanLines lines).2.mode = s.mode := by
  induction lines generalizing s with
  | nil => rfl
  | cons line lines ih =>
    simp only [scanLines, ih, scanLine]
    split
    . apply mode_routeLine
    . rfl

theorem scanLine_prompt (hmode : s.mode = .play) (tail : Bytes) :
    s.scanLine (decodeLine (63 :: 62 :: tail)) = (some (.play .prompt), s) := by
  obtain ⟨cs, hcs⟩ := exists_decodeLine_prompt tail
  simp [hcs, scanLine, OutputLine.classify?_prompt, routeLine, routeLine.ifPlaying, hmode]

theorem scanLine_bare (h : isBare raw) : s.scanLine (decodeLine raw) = (none, s) := by
  simp [scanLine, OutputLine.classify?_of_allBlank (allBlank_decodeLine h)]

/-- What a chunk completes is scanned; the rest is kept, unless it is a prompt. -/
theorem push_cases (h : ¬ byteOrderMark <+: chunk) {lines : List Bytes} {last : Bytes}
    (hlines : (pieces lineFeed (s.buffer.pending ++ chunk)).dropLast = lines)
    (hlast : (pieces lineFeed (s.buffer.pending ++ chunk)).getLast?.getD [] = last) :
    s.push chunk = { s with buffer := ⟨last⟩ }.scanLines (lines.map decodeLine)
      ∨
    (s.mode = .play ∧ (∃ tail, last = 63 :: 62 :: tail)
      ∧ s.push chunk
          =
        { s with buffer := .empty }.scanLines ((lines ++ [last]).map decodeLine)) := by
  have hpush : s.buffer.push chunk = (lines.map decodeLine, ⟨last⟩) := by
    have hmark : afterStart? byteOrderMark chunk = none := by
      simpa [afterStart?] using h
    simp [LineBuffer.push, LineBuffer.addBytes, hmark, hlines, hlast]
  unfold push
  rw [hpush]
  cases hmode : s.mode with
  | compile => simp
  | play =>
    simp only [LineBuffer.takePrompt, encode_promptMark]
    split
    . next hprompt =>
      obtain ⟨tail, htail⟩ := List.isPrefixOf_iff_prefix.mp hprompt
      apply Or.inr
      refine ⟨trivial, ⟨tail, by simp [← htail]⟩, ?_⟩
      simp
    . simp

/-- When a prompt was released early, the rest of its line is scanned as a line of its own. -/
theorem scanLines_released (hmode : s.mode = .play) {tail p : Bytes} (hp : isBare p)
    (ps : List (List Char)) :
    (s.scanLines (decodeLine (63 :: 62 :: (tail ++ p)) :: ps)).1
      =
    (s.scanLines [decodeLine (63 :: 62 :: tail)]).1 ++
      ((s.scanLines [decodeLine (63 :: 62 :: tail)]).2.scanLines (decodeLine p :: ps)).1 := by
  simp [scanLines, scanLine_prompt hmode, scanLine_bare hp]

theorem events_eq (hfeed : lineFeed ∉ s.buffer.pending) (hmark : ¬ byteOrderMark <:+: chunks.flatten)
    (hbare : s.mode = .play →
      ∀ line ∈ pieces lineFeed (s.buffer.pending ++ chunks.flatten), isBarePrompt line) :
    s.events chunks
      =
    (s.scanLines ((pieces lineFeed (s.buffer.pending ++ chunks.flatten)).map decodeLine)).1 := by
  induction chunks generalizing s with
  | nil =>
    rw [List.flatten_nil, List.append_nil, pieces_of_not_mem hfeed]
    by_cases hnil : s.buffer.pending = []
    . have hempty : s.scanLine (decodeLine []) = (none, s) := scanLine_bare (by decide)
      simp [events, finish, LineBuffer.finish, hnil, scanLines, hempty]
    . simp [events, finish, LineBuffer.finish, hnil, scanLines_buffer]
  | cons chunk chunks ih =>
    rw [List.flatten_cons] at hmark hbare ⊢
    have hchunk : ¬ byteOrderMark <+: chunk := by
      intro hfront
      apply hmark
      exact (hfront.trans (List.prefix_append _ _)).isInfix
    have hchunks : ¬ byteOrderMark <:+: chunks.flatten := by
      intro hwithin
      apply hmark
      exact hwithin.trans (List.suffix_append _ _).isInfix
    rw [← List.append_assoc, pieces_append] at hbare ⊢
    have hlast : lineFeed ∉ (pieces lineFeed (s.buffer.pending ++ chunk)).getLast?.getD [] := by
      cases hp : (pieces lineFeed (s.buffer.pending ++ chunk)).getLast? with
      | none => simp
      | some last =>
        apply not_mem_of_mem_pieces
        apply List.mem_of_getLast? hp
    generalize hl : (pieces lineFeed (s.buffer.pending ++ chunk)).dropLast = lines at hbare ⊢
    generalize hr : (pieces lineFeed (s.buffer.pending ++ chunk)).getLast?.getD [] = last
      at hlast hbare ⊢
    unfold events
    rw [List.map_append, scanLines_append]
    cases push_cases hchunk hl hr with
    | inl hpush =>
      rw [hpush, scanLines_buffer, ih hlast hchunks]
      . simp [scanLines_buffer]
      . intro hmode line hline
        rw [mode_scanLines] at hmode
        apply hbare hmode
        apply List.mem_append_right _ hline
    | inr h =>
      obtain ⟨hmode, ⟨tail, htail⟩, hpush⟩ := h
      cases hrest : pieces lineFeed chunks.flatten with
      | nil => exact absurd hrest (pieces_ne_nil _ _)
      | cons p ps =>
        rw [pieces_append_of_not_mem hlast hrest] at hbare ⊢
        have hp : isBare p := by
          have hline := hbare hmode (last ++ p) (by simp)
          rw [htail, List.cons_append, List.cons_append, isBarePrompt_prompt, isBare,
            List.all_append] at hline
          exact (Bool.and_eq_true_iff.mp hline).2
        rw [hpush, scanLines_buffer, ih]
        . have hscanned : (s.scanLines (lines.map decodeLine)).2.mode = .play := by
            rw [mode_scanLines, hmode]
          simp [scanLines_buffer, scanLines_append, LineBuffer.empty, hrest, htail,
            scanLines_released hscanned hp]
        . simp [LineBuffer.empty]
        . exact hchunks
        . intro hplay line hline
          rw [LineBuffer.empty, List.nil_append, hrest] at hline
          cases List.mem_cons.mp hline with
          | inl heq =>
            rw [heq]
            apply isBarePrompt_of_isBare hp
          | inr hmem =>
            apply hbare hmode
            simp [hmem]

theorem push_mark (h : ¬ byteOrderMark <+: chunk) : s.push (byteOrderMark ++ chunk) = s.push chunk := by
  have hfirst : afterStart? byteOrderMark (byteOrderMark ++ chunk) = some chunk := by
    simp [afterStart?]
  have hnone : afterStart? byteOrderMark chunk = none := by
    simpa [afterStart?] using h
  simp [push, LineBuffer.push, hfirst, hnone]

theorem events_mark (h : ¬ byteOrderMark <+: chunk) :
    s.events ((byteOrderMark ++ chunk) :: chunks) = s.events (chunk :: chunks) := by
  simp [events, push_mark h]

/-- The events of output do not depend on where it was cut, nor on a byte order mark in front: they
are those of its lines. -/
theorem events_independent_of_cuts (mode : Mode) (mainStory : Path) (chunks : List Bytes)
    (hmark : ¬ byteOrderMark <:+: chunks.flatten)
    (hbare : mode = .play → ∀ line ∈ pieces lineFeed chunks.flatten, isBarePrompt line) :
    (start mode mainStory).events chunks = (start mode mainStory).events [chunks.flatten]
      ∧ (∀ first rest, chunks = first :: rest →
          (start mode mainStory).events ((byteOrderMark ++ first) :: rest)
            =
          (start mode mainStory).events [chunks.flatten])
      ∧ (start mode mainStory).events [byteOrderMark ++ chunks.flatten]
          =
        (start mode mainStory).events [chunks.flatten]
      ∧ (start mode mainStory).events [chunks.flatten]
          =
        ((start mode mainStory).scanLines ((pieces lineFeed chunks.flatten).map decodeLine)).1 := by
  have hfeed : lineFeed ∉ (start mode mainStory).buffer.pending := by
    simp [start, LineBuffer.empty]
  have hcut : (start mode mainStory).events chunks = _ := events_eq hfeed hmark hbare
  have hwhole : (start mode mainStory).events [chunks.flatten] = _ :=
    events_eq hfeed (by simpa using hmark) (by simpa [start, LineBuffer.empty] using hbare)
  rw [List.flatten_singleton] at hwhole
  refine ⟨hcut.trans hwhole.symm, ?_, ?_, hwhole⟩
  . intro first rest hchunks
    rw [events_mark]
    . rw [← hchunks]
      exact hcut.trans hwhole.symm
    . intro hfront
      apply hmark
      rw [hchunks, List.flatten_cons]
      exact (hfront.trans (List.prefix_append _ _)).isInfix
  . rw [events_mark]
    intro hfront
    exact hmark hfront.isInfix

/-- A word cut inside a character, a line end cut in two, and a prompt cut inside its mark. -/
def cutOutput : List Bytes :=
  [[99, 97, 102, 0xC3], [0xA9, 13], [10, 63], [], [62], [32, 13, 10]]

theorem pieces_cutOutput :
    pieces lineFeed cutOutput.flatten
      =
    [[99, 97, 102, 0xC3, 0xA9, 13], [63, 62, 32, 13], []] := by
  decide

theorem scanLine_cutWord :
    (start .play .empty).scanLine (decodeLine [99, 97, 102, 0xC3, 0xA9, 13])
      =
    (some (.play (.text "caf\u00e9")), start .play .empty) := by
  have hdecoded : decodeLine [99, 97, 102, 0xC3, 0xA9, 13] = "caf\u00e9".toList := by decide +kernel
  have htext : OutputLine.classify? "caf\u00e9".toList = some (.text "caf\u00e9") := by decide
  rw [hdecoded, scanLine, htext]
  rfl

theorem events_cutOutput :
    (¬ byteOrderMark <:+: cutOutput.flatten)
      ∧ (∀ line ∈ pieces lineFeed cutOutput.flatten, isBarePrompt line)
      ∧ (start .play .empty).events cutOutput = [.play (.text "caf\u00e9"), .play .prompt] := by
  have hmark : ¬ byteOrderMark <:+: cutOutput.flatten := by decide
  have hbare : ∀ line ∈ pieces lineFeed cutOutput.flatten, isBarePrompt line := by decide
  obtain ⟨hcut, _, _, hlines⟩ := events_independent_of_cuts .play .empty cutOutput hmark fun _ => hbare
  refine ⟨hmark, hbare, ?_⟩
  rw [hcut, hlines, pieces_cutOutput]
  simp only [List.map_cons, List.map_nil, scanLines, scanLine_cutWord]
  rw [scanLine_prompt rfl, scanLine_bare (by decide)]
  rfl

end Scanner

end InkServer
