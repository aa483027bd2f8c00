import InkServer.Run.Request
import InkServer.Story.Scan
import InkServer.Text.Blank

/-!
This module contains the way from what a process prints to the events of its run.
-/

namespace InkServer

open Text

inductive OutputEnd where
  /-- It was closed. -/
  | closed
  /-- It cannot be read any more. -/
  | failed
deriving DecidableEq

/-- The standard output of one run, as far as it was read. -/
structure RunOutput where
  scanner : Scanner
  artifact : Option Path
  /-- The end of the story was reported. -/
  ended : Bool
  diagnostics : List Diagnostic

namespace RunOutput

def start (mode : Mode) (request : RunRequest) : RunOutput where
  scanner := .start mode request.realMain
  artifact :=
    match mode with
    | .compile => some request.artifact
    | .play => none
  ended := false
  diagnostics := []

/-- Take in one event of the scanner. Only the first end of the story is reported. -/
def take (o : RunOutput) : ScanEvent → List RunEvent × RunOutput
  | .diagnostic d => ([], { o with diagnostics := o.diagnostics ++ [d] })
  | .play .endOfStory => if o.ended then ([], o) else ([.play .endOfStory], { o with ended := true })
  | .play e => ([.play e], o)

def takeAll (o : RunOutput) : List ScanEvent → List RunEvent × RunOutput
  | [] => ([], o)
  | e :: es =>
    let (first, o) := o.take e
    let (rest, o) := takeAll o es
    (first ++ rest, o)

def push (o : RunOutput) (chunk : Bytes) : List RunEvent × RunOutput :=
  let (events, scanner) := o.scanner.push chunk
  { o with scanner }.takeAll events

def pushAll (o : RunOutput) : List Bytes → List RunEvent × RunOutput
  | [] => ([], o)
  | chunk :: chunks =>
    let (first, o) := o.push chunk
    let (rest, o) := pushAll o chunks
    (first ++ rest, o)

def addedEnd (o : RunOutput) : List RunEvent :=
  match o.scanner.mode with
  | .play => if o.ended then [] else [.play .endOfStory]
  | .compile => []

def finish (o : RunOutput) : List RunEvent :=
  let (events, scanner) := o.scanner.finish
  let (events, o) := { o with scanner }.takeAll events
  events ++ o.addedEnd ++ [.finished o.diagnostics o.artifact]

/-- Report the end of the output. Output that cannot be read any more ends like output that was
closed. -/
def close (o : RunOutput) : OutputEnd → List RunEvent
  | .closed => o.finish
  | .failed => o.finish

end RunOutput

/-- The event for a chunk of the error output, unless it is blank. -/
def errorOutput? (chunk : Bytes) : Option RunEvent :=
  let text := trim (dropMark (decodeLossy chunk))
  if text = [] then none else some (.toolError (String.ofList text))

end InkServer
