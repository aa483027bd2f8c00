import InkServer.Run.Request
import InkServer.Workspace.Copy
import InkServer.Workspace.Folder
import InkServer.Workspace.Registry

/-!
This module contains the state of the server and the record of what it asked of others: the editor,
the compiler and the lookup of tools.
-/

namespace InkServer

inductive MessageLevel where
  | error
  | warning
  | info
deriving DecidableEq

def MessageLevel.code : MessageLevel → Nat
  | error => 1
  | warning => 2
  | info => 3

inductive Effect where
  | publish (uri : String) (diagnostics : List EditorDiagnostic)
  | notify (notice : Notice)
  | message (level : MessageLevel) (text : String)
  | askFolders
  | askSettings (scope : String)
  | checkTool (settings : Settings)
  | start (mode : Mode) (request : RunRequest)
  | submit (index : Nat)
  | stop
  /-- A reply or a request to the editor. -/
  | send (frame : Json)
  /-- The end of the connection. What would be sent later is lost. -/
  | hangUp

/-- What is known about a run whose results are still coming in. -/
structure Delivery where
  workspace : Workspace
  mode : Mode
  /-- The user was told that the compiler reported an error. -/
  reported : Bool
  /-- The last end of output. -/
  finished : Option (List Diagnostic × Option Path)
  /-- The last end of the process: its code, and whether it was killed. -/
  exit : Option (Option Int × Bool)

structure World where
  disk : Disk
  /-- How many scratch folders were named so far. -/
  draws : Nat
  /-- How many passes were settled or given up so far. -/
  settles : Nat
  rules : CopyRules
  registry : Registry
  /-- The open documents: their normal paths, and the URIs that the editor uses for them. -/
  documents : List (Path × String)
  /-- For each workspace, the URIs whose last list of diagnostics was not empty. -/
  published : List (String × List String)
  /-- The tier of settings given at the start of the session. -/
  initial : Option SettingsTier
  defaults : Settings
  deliveries : List (Nat × Delivery)
  trace : List Effect

namespace World

def start (disk : Disk) (rules : CopyRules) (defaults : Settings) : World :=
  ⟨disk, 0, 0, rules, .empty, [], [], none, defaults, [], []⟩

def emit (w : World) (e : Effect) : World :=
  { w with trace := w.trace ++ [e] }

def emitAll (w : World) (es : List Effect) : World :=
  { w with trace := w.trace ++ es }

end World

end InkServer
