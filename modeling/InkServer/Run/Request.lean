import InkServer.Path.Basic
import InkServer.Settings.Basic
import InkServer.Story.Diagnostic
import InkServer.Story.Event

/-!
This module contains what is asked of a run of the compiler and what it reports.
-/

namespace InkServer

open Text

structure RunRequest where
  settings : Settings
  /-- The main story in the scratch folder, which the compiler reads. -/
  scratchMain : Path
  /-- The main story in the workspace, which diagnostics are about. -/
  realMain : Path

/-- The compiled story stands beside the main story. -/
def artifactOf (scratchMain : Path) : Path :=
  ⟨scratchMain.bytes ++ bytesOf ".json"⟩

def RunRequest.artifact (r : RunRequest) : Path :=
  artifactOf r.scratchMain

inductive RunEvent where
  | play (e : PlayEvent)
  /-- A stretch of the error output. -/
  | toolError (text : String)
  /-- The output came to its end. -/
  | finished (diagnostics : List Diagnostic) (artifact : Option Path)
  /-- The process ended, with a code unless a signal ended it. -/
  | exited (code : Option Int) (killed : Bool)
deriving DecidableEq

inductive StartError where
  /-- The settings name something that cannot be used. -/
  | configuration (message : String)
  | spawn (message hint : String)
deriving DecidableEq

namespace StartError

def message : StartError → String
  | configuration message => message
  | spawn message hint => message ++ ". " ++ hint

def userMessage : StartError → String
  | configuration message => message
  | spawn _ hint => "Unable to start inklecate. " ++ hint

end StartError

end InkServer
