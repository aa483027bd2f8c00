import InkServer.Proofs.Story.Chunks
import InkServer.Run.Output

/-!
This module contains the law of what is reported about the output of a process: in which order its
lines become events, that a played story has one end, and which diagnostics stand in the report at the
end of the output.
-/

namespace InkServer

open Text

namespace LineBuffer

/-- The lines that a chunk delivers: those that it completes, and a prompt that is released while a
story is played. -/
def deliver (mode : Mode) (b : LineBuffer) (chunk : Bytes) : List (List Char) × LineBuffer :=
  let (lines, b) := b.push chunk
  match mode with
  | .compile => (lines, b)
  | .play => (lines ++ b.takePrompt.1.toList, b.takePrompt.2)

/-- The lines of output that comes in the given chunks and then ends. -/
def delivered (mode : Mode) (b : LineBuffer) : List Bytes → List (List Char)
  | [] => b.finish.1.toList
  | chunk :: chunks => (b.deliver mode chunk).1 ++ (b.deliver mode chunk).2.delivered mode chunks

end LineBuffer

namespace OutputLine

/-- The event of the story that a line tells while the story is played. -/
def playEvent? : OutputLine → Option PlayEvent
  | diagnostic kind _ _ message => if kind.isRuntime then some (.error message) else none
  | tags ts => some (.tags ts)
  | choice c => some (.choice c)
  | prompt => some .prompt
  | endOfStory => some .endOfStory
  | text t => some (.text t)

/-- The diagnostic that a line tells about the files around a main story. -/
def diagnostic? (mainStory : Path) : OutputLine → Option Diagnostic
  | diagnostic kind (some file) line message =>
    some ⟨kind, (mainStory.parent?.getD .empty).join (.ofString file), line, message⟩
  | diagnostic kind none line message => some ⟨kind, mainStory, line, message⟩
  | _ => none

/-- The line is plain text. -/
def isText : OutputLine → Bool
  | text _ => true
  | _ => false

/-- The line is a diagnostic that arises while a story is played. -/
def isRuntime : OutputLine → Bool
  | diagnostic kind _ _ _ => kind.isRuntime
  | _ => false

end OutputLine

namespace ScanEvent

def play? : ScanEvent → Option PlayEvent
  | diagnostic _ => none
  | play e => some e

/-- The diagnostic, if it is one. -/
def diagnostic? : ScanEvent → Option Diagnostic
  | diagnostic d => some d
  | play _ => none

@[simp]
theorem play?_play (e : PlayEvent) : (play e).play? = some e := rfl

@[simp]
theorem play?_diagnostic (d : Diagnostic) : (diagnostic d).play? = none := rfl

@[simp]
theorem diagnostic?_play (e : PlayEvent) : (play e).diagnostic? = none := rfl

@[simp]
theorem diagnostic?_diagnostic (d : Diagnostic) : (diagnostic d).diagnostic? = some d := rfl

theorem filterMap_diagnostic?_map (ds : List Diagnostic) :
    (ds.map diagnostic).filterMap diagnostic? = ds := by
  induction ds with
  | nil => rfl
  | cons d ds ih => simpa using ih

end ScanEvent

namespace Scanner

variable {s : Scanner}

theorem push_eq (s : Scanner) (chunk : Bytes) :
    s.push chunk
      =
    ((s.scanLines (s.buffer.deliver s.mode chunk).1).1,
      { (s.scanLines (s.buffer.deliver s.mode chunk).1).2 with
        buffer := (s.buffer.deliver s.mode chunk).2 }) := by
  rewrite [← scanLines_buffer]
  unfold push LineBuffer.deliver
  cases s.mode with
  | compile => simp
  | play => rfl

theorem mode_push (s : Scanner) (chunk : Bytes) : (s.push chunk).2.mode = s.mode := by
  rw [push_eq]
  apply mode_scanLines

theorem mode_finish (s : Scanner) : s.finish.2.mode = s.mode :=
  mode_scanLines { s with buffer := s.buffer.finish.2 } s.buffer.finish.1.toList

theorem fst_scanLines_buffer (s : Scanner) (buffer : LineBuffer) (lines : List (List Char)) :
    ({ s with buffer }.scanLines lines).1 = (s.scanLines lines).1 := by
  rw [scanLines_buffer]

theorem events_eq_delivered (s : Scanner) (chunks : List Bytes) :
    s.events chunks = (s.scanLines (s.buffer.delivered s.mode chunks)).1 := by
  induction chunks generalizing s with
  | nil => apply fst_scanLines_buffer
  | cons chunk chunks ih =>
    unfold events LineBuffer.delivered
    have hmode := s.mode_scanLines (s.buffer.deliver s.mode chunk).1
    rw [ih, push_eq, scanLines_append]
    generalize s.scanLines (s.buffer.deliver s.mode chunk).1 = scanned at hmode
    dsimp only
    rw [fst_scanLines_buffer scanned.2, hmode]

theorem scanLines_of_play (hmode : s.mode = .play) (lines : List (List Char)) :
    (s.scanLines lines).1
      =
    (lines.filterMap OutputLine.classify?).filterMap fun l => (s.routeLine l).1 := by
  have hroute (l : OutputLine) : (s.routeLine l).2 = s := by
    cases l with
    | diagnostic kind file number message =>
      simp only [routeLine, hmode]
      split <;> rfl
    | text t => simp only [routeLine, hmode]
    | _ => rfl
  induction lines with
  | nil => rfl
  | cons line lines ih =>
    unfold scanLines scanLine
    cases hline : OutputLine.classify? line with
    | none => simp [hline, ih]
    | some l =>
      simp only [hroute, ih, List.filterMap_cons, hline]
      cases (s.routeLine l).1 with
      | none => rfl
      | some event => rfl

theorem play?_routeLine (hmode : s.mode = .play) (l : OutputLine) :
    (s.routeLine l).1.bind ScanEvent.play? = l.playEvent? := by
  cases l with
  | diagnostic kind file number message =>
    simp only [routeLine, hmode, OutputLine.playEvent?]
    split <;> rfl
  | text t => simp [routeLine, hmode, OutputLine.playEvent?]
  | _ => simp [routeLine, routeLine.ifPlaying, hmode, OutputLine.playEvent?]

theorem diagnostic?_routeLine (hmode : s.mode = .play) (l : OutputLine) :
    (s.routeLine l).1.bind ScanEvent.diagnostic?
      =
    if !l.isRuntime then l.diagnostic? s.mainStory else none := by
  cases l with
  | diagnostic kind file number message =>
    by_cases hruntime : kind.isRuntime = true
    . simp [routeLine, hmode, OutputLine.isRuntime, hruntime]
    . cases file <;> simp [routeLine, hmode, OutputLine.isRuntime, hruntime] <;> rfl
  | text t => simp [routeLine, hmode, OutputLine.diagnostic?]
  | _ => simp [routeLine, routeLine.ifPlaying, hmode, OutputLine.diagnostic?]

theorem scanLines_of_not_collecting (hmode : s.mode = .compile) (hclosed : s.collecting = false)
    (lines : List (List Char)) : (s.scanLines lines).1 = [] := by
  have hroute (l : OutputLine) : s.routeLine l = (none, s) := by
    rcases s with ⟨mode, mainStory, collecting, buffer⟩
    cases hmode
    cases hclosed
    cases l <;> rfl
  induction lines with
  | nil => rfl
  | cons line lines ih =>
    unfold scanLines scanLine
    cases OutputLine.classify? line with
    | none => simp [ih]
    | some l => simp [hroute, ih]

theorem routeLine_of_collecting (hmode : s.mode = .compile) (hopen : s.collecting = true)
    (l : OutputLine) :
    s.routeLine l
      =
    if l.isText then (none, { s with collecting := false })
    else ((l.diagnostic? s.mainStory).map .diagnostic, s) := by
  rcases s with ⟨mode, mainStory, collecting, buffer⟩
  cases hmode
  cases hopen
  cases l with
  | diagnostic kind file number message => cases file <;> rfl
  | _ => rfl

theorem scanLines_of_collecting (hmode : s.mode = .compile) (hopen : s.collecting = true)
    (lines : List (List Char)) :
    (s.scanLines lines).1
      =
    (((lines.filterMap OutputLine.classify?).takeWhile (!·.isText)).filterMap
      (OutputLine.diagnostic? s.mainStory)).map .diagnostic := by
  induction lines with
  | nil => rfl
  | cons line lines ih =>
    unfold scanLines scanLine
    cases hline : OutputLine.classify? line with
    | none => simp [hline, ih]
    | some l =>
      simp only [routeLine_of_collecting hmode hopen, List.filterMap_cons, hline]
      cases htext : l.isText with
      | true => simp [htext, scanLines_of_not_collecting, hmode]
      | false =>
        cases hd : l.diagnostic? s.mainStory with
        | none => simp [htext, hd, ih]
        | some d => simp [htext, hd, ih]

end Scanner

/-- The events with one end of the story: only the first one is kept, and one is added at the end when
there is none. -/
def endOnce : List PlayEvent → List PlayEvent
  | [] => [.endOfStory]
  | e :: es =>
    if e = .endOfStory then e :: es.filter (· ≠ .endOfStory) else e :: endOnce es

theorem count_endOnce (es : List PlayEvent) : (endOnce es).count .endOfStory = 1 := by
  induction es with
  | nil => rfl
  | cons e es ih =>
    unfold endOnce
    split
    . next he =>
      rw [he, List.count_cons_self, List.count_eq_zero.mpr (by simp)]
    . next he => rw [List.count_cons_of_ne (by simpa using he), ih]

namespace RunOutput

variable {o : RunOutput}

/-- All events about output that comes in the given chunks and then ends. -/
def report (o : RunOutput) (chunks : List Bytes) (how : OutputEnd) : List RunEvent :=
  (o.pushAll chunks).1 ++ (o.pushAll chunks).2.close how

theorem takeAll_append (o : RunOutput) (es es' : List ScanEvent) :
    o.takeAll (es ++ es')
      =
    ((o.takeAll es).1 ++ ((o.takeAll es).2.takeAll es').1, ((o.takeAll es).2.takeAll es').2) := by
  induction es generalizing o with
  | nil => rfl
  | cons e es ih => simp [takeAll, ih]

theorem take_scanner (o : RunOutput) (scanner : Scanner) (e : ScanEvent) :
    { o with scanner }.take e = ((o.take e).1, { (o.take e).2 with scanner }) := by
  unfold take
  split
  . rfl
  . dsimp only
    split <;> rfl
  . rfl

theorem takeAll_scanner (o : RunOutput) (scanner : Scanner) (es : List ScanEvent) :
    { o with scanner }.takeAll es = ((o.takeAll es).1, { (o.takeAll es).2 with scanner }) := by
  induction es generalizing o with
  | nil => rfl
  | cons e es ih => simp [takeAll, take_scanner, ih]

theorem take_play_of_ne {e : PlayEvent} (h : e ≠ .endOfStory) (o : RunOutput) :
    o.take (.play e) = ([.play e], o) := by
  cases e with
  | endOfStory => exact absurd rfl h
  | _ => rfl

theorem take_keeps (o : RunOutput) (e : ScanEvent) :
    (o.take e).2.scanner = o.scanner ∧ (o.take e).2.artifact = o.artifact
      ∧ (o.take e).2.diagnostics = o.diagnostics ++ e.diagnostic?.toList := by
  cases e with
  | diagnostic d => exact ⟨rfl, rfl, rfl⟩
  | play e =>
    by_cases he : e = .endOfStory
    . rw [he, take]
      split <;> simp
    . simp [take_play_of_ne he]

theorem takeAll_keeps (o : RunOutput) (es : List ScanEvent) :
    (o.takeAll es).2.scanner = o.scanner ∧ (o.takeAll es).2.artifact = o.artifact
      ∧ (o.takeAll es).2.diagnostics = o.diagnostics ++ es.filterMap ScanEvent.diagnostic? := by
  induction es generalizing o with
  | nil => simp [takeAll]
  | cons e es ih =>
    obtain ⟨hscanner, hartifact, hdiagnostics⟩ := o.take_keeps e
    obtain ⟨hscanner', hartifact', hdiagnostics'⟩ := ih (o.take e).2
    refine ⟨hscanner'.trans hscanner, hartifact'.trans hartifact, hdiagnostics'.trans ?_⟩
    rw [hdiagnostics, List.append_assoc, List.filterMap_cons]
    cases e with
    | diagnostic d => rfl
    | play e => rfl

/-- Once the end of the story was reported, other ends are passed over. -/
theorem takeAll_of_ended (h : o.ended = true) (es : List ScanEvent) :
    (o.takeAll es).1 = ((es.filterMap ScanEvent.play?).filter (· ≠ .endOfStory)).map .play
      ∧ (o.takeAll es).2.ended = true := by
  induction es generalizing o with
  | nil => exact ⟨rfl, h⟩
  | cons e es ih =>
    unfold takeAll
    cases e with
    | diagnostic d => exact ih (o := (o.take (.diagnostic d)).2) h
    | play e =>
      obtain ⟨hevents, hended⟩ := ih h
      by_cases he : e = .endOfStory
      . rw [he, take, if_pos h]
        exact ⟨by simp [hevents], hended⟩
      . rw [take_play_of_ne he]
        exact ⟨by simp [he, hevents], hended⟩

theorem addedEnd_of_ended (h : o.ended = true) : o.addedEnd = [] := by
  unfold addedEnd
  split
  . rw [if_pos h]
  . rfl

/-- While a story is played, its events are reported with one end. -/
theorem takeAll_of_play (hmode : o.scanner.mode = .play) (h : o.ended = false) (es : List ScanEvent) :
    (o.takeAll es).1 ++ (o.takeAll es).2.addedEnd
      =
    (endOnce (es.filterMap ScanEvent.play?)).map .play := by
  induction es generalizing o with
  | nil => simp [takeAll, addedEnd, hmode, h, endOnce]
  | cons e es ih =>
    unfold takeAll
    cases e with
    | diagnostic d => exact ih (o := (o.take (.diagnostic d)).2) hmode h
    | play e =>
      by_cases he : e = .endOfStory
      . obtain ⟨hevents, hended⟩ := takeAll_of_ended (o := { o with ended := true }) rfl es
        rw [he, take, h]
        simp [endOnce, hevents, addedEnd_of_ended hended]
      . rw [take_play_of_ne he]
        simp [endOnce, he, ← ih hmode h]

theorem takeAll_of_compile (ds : List Diagnostic) : (o.takeAll (ds.map .diagnostic)).1 = [] := by
  induction ds generalizing o with
  | nil => rfl
  | cons d ds ih => exact ih

theorem addedEnd_of_compile (h : o.scanner.mode = .compile) : o.addedEnd = [] := by
  unfold addedEnd
  rw [h]

theorem addedEnd_scanner {scanner : Scanner} (h : scanner.mode = o.scanner.mode) :
    { o with scanner }.addedEnd = o.addedEnd := by
  unfold addedEnd
  rw [h]

theorem takeAll_scanner_addedEnd {scanner : Scanner} (h : scanner.mode = o.scanner.mode)
    (es : List ScanEvent) :
    ({ o with scanner }.takeAll es).2.addedEnd = (o.takeAll es).2.addedEnd := by
  rw [takeAll_scanner]
  apply addedEnd_scanner
  rw [h, (o.takeAll_keeps es).1]

theorem push_eq (o : RunOutput) (chunk : Bytes) :
    o.push chunk
      =
    ((o.takeAll (o.scanner.push chunk).1).1,
      { (o.takeAll (o.scanner.push chunk).1).2 with scanner := (o.scanner.push chunk).2 }) := by
  apply takeAll_scanner

/-- What is reported about output is what its events amount to together, and then its end. -/
theorem report_eq (o : RunOutput) (chunks : List Bytes) (how : OutputEnd) :
    o.report chunks how
      =
    (o.takeAll (o.scanner.events chunks)).1
      ++ (o.takeAll (o.scanner.events chunks)).2.addedEnd
      ++ [.finished (o.takeAll (o.scanner.events chunks)).2.diagnostics o.artifact] := by
  induction chunks generalizing o with
  | nil =>
    have hclose : o.close how = o.finish := by
      cases how with
      | closed => rfl
      | failed => rfl
    have hadded := takeAll_scanner_addedEnd o.scanner.mode_finish o.scanner.finish.1
    obtain ⟨_, hartifact, _⟩ := o.takeAll_keeps o.scanner.finish.1
    unfold report pushAll Scanner.events
    dsimp only
    rw [hclose, finish]
    dsimp only
    rw [hadded, takeAll_scanner, hartifact, List.nil_append]
  | cons chunk chunks ih =>
    let first := o.takeAll (o.scanner.push chunk).1
    obtain ⟨hscanner, hartifact, _⟩ := o.takeAll_keeps (o.scanner.push chunk).1
    have hmode : (o.scanner.push chunk).2.mode = first.2.scanner.mode := by
      rw [hscanner]
      apply Scanner.mode_push
    have hreport : o.report (chunk :: chunks) how
        = first.1 ++ { first.2 with scanner := (o.scanner.push chunk).2 }.report chunks how := by
      simp only [report, pushAll, push_eq, List.append_assoc, first]
    rw [hreport, ih, takeAll_scanner_addedEnd hmode, takeAll_scanner]
    simp only [Scanner.events, takeAll_append, List.append_assoc, ← hartifact, first]

/-- The lines of output that are recognized, in the order in which they are delivered. -/
def recognizedLines (mode : Mode) (chunks : List Bytes) : List OutputLine :=
  (LineBuffer.empty.delivered mode chunks).filterMap OutputLine.classify?

theorem events_start (mode : Mode) (request : RunRequest) (chunks : List Bytes) :
    (start mode request).scanner.events chunks
      =
    ((Scanner.start mode request.realMain).scanLines (LineBuffer.empty.delivered mode chunks)).1 := by
  apply Scanner.events_eq_delivered

/-- The output of a process becomes one sequence of events, however it is cut and however it ends.
While a story is compiled, the one event is the report at the end, with the diagnostics in front of
the first line of plain text. While a story is played, there is one event for each line that tells
one, with one end of the story, and then the report, with the diagnostics that do not arise in the
story. -/
theorem report_start (request : RunRequest) (chunks : List Bytes) (how : OutputEnd) :
    (start .compile request).report chunks how
      =
    [.finished
      (((recognizedLines .compile chunks).takeWhile (!·.isText)).filterMap
        (OutputLine.diagnostic? request.realMain))
      (some request.artifact)]
      ∧ (start .play request).report chunks how
          =
        (endOnce ((recognizedLines .play chunks).filterMap OutputLine.playEvent?)).map .play
          ++ [.finished
            (((recognizedLines .play chunks).filter (!·.isRuntime)).filterMap
              (OutputLine.diagnostic? request.realMain))
            none]
      ∧ (endOnce ((recognizedLines .play chunks).filterMap OutputLine.playEvent?)).count .endOfStory
          = 1 := by
  refine ⟨?_, ?_, count_endOnce _⟩
  . have hevents := events_start .compile request chunks
    rw [Scanner.scanLines_of_collecting rfl rfl] at hevents
    rw [report_eq, hevents]
    generalize hds : List.filterMap _ _ = ds
    obtain ⟨hscanner, _, hdiagnostics⟩ := (start .compile request).takeAll_keeps (ds.map .diagnostic)
    rw [takeAll_of_compile, addedEnd_of_compile (by rw [hscanner]; rfl), hdiagnostics,
      ScanEvent.filterMap_diagnostic?_map, ← hds]
    rfl
  . let s := Scanner.start .play request.realMain
    have hevents : (start .play request).scanner.events chunks
        = (recognizedLines .play chunks).filterMap fun l => (s.routeLine l).1 :=
      (events_start .play request chunks).trans (Scanner.scanLines_of_play rfl _)
    generalize recognizedLines .play chunks = lines at *
    obtain ⟨_, _, hdiagnostics⟩ := (start .play request).takeAll_keeps
      ((start .play request).scanner.events chunks)
    rw [report_eq, hdiagnostics, takeAll_of_play rfl rfl, hevents, List.filterMap_filterMap,
      List.filterMap_filterMap, List.filterMap_filter]
    simp only [Scanner.play?_routeLine (s := s) rfl, Scanner.diagnostic?_routeLine (s := s) rfl]
    rfl

end RunOutput

end InkServer
