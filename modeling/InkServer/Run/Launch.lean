import InkServer.Run.Request
import InkServer.Tool.Lookup

/-!
This module contains the command line of a run, and what can be wrong with it.
-/

namespace InkServer

open Text

structure Launch where
  program : Path
  arguments : List Bytes
  shim : Option String

def RunRequest.arguments (r : RunRequest) : Mode → List Bytes
  | .compile => [bytesOf "-o", r.artifact.bytes, r.scratchMain.bytes]
  | .play => [bytesOf "-p", r.scratchMain.bytes]

namespace Launch

def unreadableStory (realMain : Path) (e : DiskError) : StartError :=
  .configuration
    ("The main story " ++ realMain.text ++ " could not be read (" ++ e.text ++
      "). Check mainStoryPath.")

def missingShim (shim : String) : StartError :=
  .configuration
    ("'" ++ shim ++ "' was not found. Install it, or point runThroughMono at its location.")

def missingTool (inklecate : String) : StartError :=
  .configuration
    ("inklecate was not found or is not executable at '" ++ inklecate ++
      "'. Check inklecateExecutablePath.")

def ofRequest (d : Disk) (folders : List Path) (mode : Mode) (r : RunRequest) :
    Except StartError Launch :=
  match r.settings.shim with
  | some shim =>
    match d.canOpen r.scratchMain with
    | .error e => .error (unreadableStory r.realMain e)
    | .ok () =>
      match d.which? folders shim with
      | none => .error (missingShim shim)
      | some program =>
        .ok ⟨program, bytesOf r.settings.inklecate :: r.arguments mode, some shim⟩
  | none =>
    match d.which? folders r.settings.inklecate with
    | none => .error (missingTool r.settings.inklecate)
    | some program => .ok ⟨program, r.arguments mode, none⟩

/-- What the user may do when a program cannot be started. -/
def hint (shim : Option String) (e : DiskError) : String :=
  let missing := e = .notFound
  let first :=
    match shim with
    | some shim =>
      if missing then ["'" ++ shim ++ "' could not be launched; make sure it is installed."] else []
    | none =>
      ["On macOS and Linux inklecate may need to run through mono; try enabling runThroughMono."]
  let second :=
    if missing then ["Check that inklecateExecutablePath points at the inklecate executable."]
    else []
  match first ++ second with
  | [] => "See the server log for details."
  | hints => String.intercalate " " hints

def failure (l : Launch) (e : DiskError) : StartError :=
  .spawn ("failed to start " ++ l.program.text ++ ": " ++ e.text) (hint l.shim e)

end Launch

end InkServer
