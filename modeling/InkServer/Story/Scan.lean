import InkServer.Story.LineBuffer

/-!
This module contains the scanning of what one run of the compiler prints: diagnostics while it
compiles, and the events of the story while it plays.
-/

namespace InkServer

open Text

inductive ScanEvent where
  | diagnostic (d : Diagnostic)
  | play (e : PlayEvent)
deriving DecidableEq

/-- The state of scanning the output of one run. -/
structure Scanner where
  mode : Mode
  /-- The main story, in the workspace itself. -/
  mainStory : Path
  /-- While compiling, diagnostics count up to the first line of plain text. -/
  collecting : Bool
  buffer : LineBuffer

namespace Scanner

def start (mode : Mode) (mainStory : Path) : Scanner :=
  ⟨mode, mainStory, true, .empty⟩

/-- The directory that file names in diagnostics are relative to. -/
def storyDir (s : Scanner) : Path :=
  s.mainStory.parent?.getD .empty

def diagnosticPath (s : Scanner) (file : Option String) : Path :=
  match file with
  | some f => s.storyDir.join (.ofString f)
  | none => s.mainStory

def routeLine (s : Scanner) : OutputLine → Option ScanEvent × Scanner
  | .diagnostic kind file line message =>
    match s.mode with
    | .play =>
      if kind.isRuntime then (some (.play (.error message)), s)
      else (some (.diagnostic ⟨kind, s.diagnosticPath file, line, message⟩), s)
    | .compile =>
      if s.collecting then (some (.diagnostic ⟨kind, s.diagnosticPath file, line, message⟩), s)
      else (none, s)
  | .text t =>
    match s.mode with
    | .compile => (none, { s with collecting := false })
    | .play => (some (.play (.text t)), s)
  | .tags ts => (ifPlaying (.tags ts), s)
  | .choice c => (ifPlaying (.choice c), s)
  | .prompt => (ifPlaying .prompt, s)
  | .endOfStory => (ifPlaying .endOfStory, s)
where
  ifPlaying (e : PlayEvent) : Option ScanEvent :=
    match s.mode with
    | .play => some (.play e)
    | .compile => none

def scanLine (s : Scanner) (line : List Char) : Option ScanEvent × Scanner :=
  match OutputLine.classify? line with
  | some l => s.routeLine l
  | none => (none, s)

def scanLines (s : Scanner) : List (List Char) → List ScanEvent × Scanner
  | [] => ([], s)
  | line :: lines =>
    let (event, s) := s.scanLine line
    let (events, s) := scanLines s lines
    (event.toList ++ events, s)

def push (s : Scanner) (chunk : Bytes) : List ScanEvent × Scanner :=
  let (lines, buffer) := s.buffer.push chunk
  let (released, buffer) :=
    match s.mode with
    | .play => buffer.takePrompt
    | .compile => (none, buffer)
  { s with buffer }.scanLines (lines ++ released.toList)

def finish (s : Scanner) : List ScanEvent × Scanner :=
  let (line, buffer) := s.buffer.finish
  { s with buffer }.scanLines line.toList

end Scanner

end InkServer
