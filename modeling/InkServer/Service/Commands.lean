import InkServer.Json.Writer
import InkServer.Service.Delivery
import InkServer.Service.Ready
import InkServer.Text.Blank

/-!
This module contains the runs that the editor asks for, and the commands that ask for them.
-/

namespace InkServer

open Text

inductive RunError where
  | invalidUri (e : Uri.Invalid)
  | noWorkspace (what : String)
  | toolUnavailable
  | notReady (document : String) (cause : CopyError)
  | mainOutside (path : Path) (uri : String)
  | start (e : StartError)

namespace RunError

def level : RunError → MessageLevel
  | noWorkspace _ => .warning
  | toolUnavailable => .warning
  | _ => .error

def userMessage : RunError → String
  | invalidUri e => e.message
  | noWorkspace what => "no workspace folder contains " ++ what
  | toolUnavailable => "inklecate could not be found. Install it or set inklecateExecutablePath."
  | notReady document _ => "workspace is not ready, cannot process " ++ document
  | mainOutside path uri => "main story " ++ path.text ++ " lies outside workspace " ++ uri
  | start e => e.userMessage

end RunError

inductive Trigger where
  | edit
  | command
deriving DecidableEq

structure Started where
  generation : Nat
  mode : Mode

namespace Job

def addFolders (uris : List String) : Job Unit :=
  modify fun w => { w with registry := w.registry.registerAll uris }

/-- Register the folders that the editor reports, and say whether there are any. -/
def refreshFolders : Job Bool := do
  match ← askFolders with
  | none => pure false
  | some folders =>
    addFolders (folders.map Folder.uri)
    pure !folders.isEmpty

/-- The workspace that a path lies in. The editor is asked for folders when none contains it. -/
def owner? (p : Path) : Job (Option Workspace) := do
  let w ← get
  match w.registry.findOwner? p with
  | some ws => pure (some ws)
  | none =>
    if ← refreshFolders then
      let w ← get
      pure (w.registry.findOwner? p)
    else
      pure none

/-- The first workspace. The editor is asked for folders when there is none. -/
def firstWorkspace? : Job (Option Workspace) := do
  let w ← get
  match w.registry.workspaces with
  | ws :: _ => pure (some ws)
  | [] =>
    let _ ← refreshFolders
    let w ← get
    pure w.registry.workspaces.head?

def readyWorkspace (ws : Workspace) (document : String) : Job (Except RunError Workspace) := do
  match ← ensureReady ws.uri with
  | .ok ready => pure (.ok ready)
  | .error _ =>
    match ← ensureReady ws.uri with
    | .ok ready => pure (.ok ready)
    | .error cause => pure (.error (.notReady document cause))

def settingsFor (scope : String) : Job Settings := do
  let resource ← askSettings scope
  let w ← get
  pure (Settings.merge resource w.initial w.defaults)

/-- The workspace that a run is for, and the scope of its settings. -/
def runTarget (uri : Option String) : Job (Except RunError (Workspace × String)) := do
  match uri with
  | some uri =>
    match Uri.toPath uri with
    | .error e => pure (.error (.invalidUri e))
    | .ok path =>
      match ← owner? path.normalize with
      | some ws => pure (.ok (ws, uri))
      | none => pure (.error (.noWorkspace uri))
  | none =>
    match ← firstWorkspace? with
    | some ws => pure (.ok (ws, ws.uri))
    | none => pure (.error (.noWorkspace "the default story"))

def requestFor (ws : Workspace) (settings : Settings) : Except RunError RunRequest :=
  let realMain := (ws.root.join (.ofString settings.mainStory)).normalize
  match ws.scratchPathFor? realMain with
  | some scratchMain => .ok ⟨settings, scratchMain, realMain⟩
  | none => .error (.mainOutside realMain ws.uri)

/-- Start a run with the given request. A run to play ends the current one first. -/
def launch (ws : Workspace) (mode : Mode) (request : RunRequest) :
    Job (Except RunError Started) := do
  match mode with
  | .play => stop
  | .compile => pure ()
  match ← startRun mode request with
  | .error e => pure (.error (.start e))
  | .ok generation =>
    modify fun w =>
      { w with deliveries := w.deliveries ++ [(generation, Delivery.start ws mode)] }
    pure (.ok ⟨generation, mode⟩)

def tryRun (uri : Option String) (mode : Mode) : Job (Except RunError Started) := do
  match ← runTarget uri with
  | .error e => pure (.error e)
  | .ok (ws, scope) =>
    let settings ← settingsFor scope
    if ← checkTool settings then
      match ← readyWorkspace ws scope with
      | .error e => pure (.error e)
      | .ok ready =>
        match requestFor ready settings with
        | .error e => pure (.error e)
        | .ok request => launch ready mode request
    else
      pure (.error .toolUnavailable)

/-- Start a run, and tell the user when it does not come about. After an edit the user is not told
that there is no compiler. -/
def startFor (uri : Option String) (mode : Mode) (trigger : Trigger) : Job (Option Started) := do
  match ← tryRun uri mode with
  | .ok started => pure (some started)
  | .error e =>
    match e, trigger with
    | .toolUnavailable, .edit => pure none
    | _, _ =>
      emit (.message e.level e.userMessage)
      pure none

end Job

inductive Command where
  | compileStory
  | playStory
  | selectOption
  | killRunner
deriving DecidableEq

namespace Command

def all : List Command :=
  [compileStory, playStory, selectOption, killRunner]

def name : Command → String
  | compileStory => "compile-story"
  | playStory => "play-story"
  | selectOption => "select-option"
  | killRunner => "kill-runner"

def ofName? (s : String) : Option Command :=
  all.find? fun c => c.name = s

end Command

inductive CommandError where
  | unknown (name : String)
  | invalidArguments (command : Command) (reason : String)

def CommandError.message : CommandError → String
  | unknown name => "unknown command: " ++ name
  | invalidArguments command reason => "invalid arguments for " ++ command.name ++ ": " ++ reason

/-- The document that a command is for: a text, or an object with the text under `uri`. -/
def uriArgument (command : Command) (args : List Json) : Except CommandError (Option String) :=
  match args.head? with
  | none => .ok none
  | some .null => .ok none
  | some (.string uri) => .ok (some uri)
  | some (.object members) =>
    match members.lookup "uri" with
    | none => .ok none
    | some .null => .ok none
    | some (.string uri) => .ok (some uri)
    | some other =>
      .error (.invalidArguments command ("uri must be a string, got " ++ other.compact))
  | some other =>
    .error (.invalidArguments command ("expected a document URI, got " ++ other.compact))

def argumentShape : Option Json → String
  | some v => "Some(" ++ v.shape ++ ")"
  | none => "None"

/-- The value that should be the index of a choice: the argument itself, or what it holds under
`index`. -/
def indexValue? (args : List Json) : Option Json :=
  match args.head? with
  | some (.object members) => members.lookup "index"
  | other => other

def indexOf? : Option Json → Option Nat
  | some (.number (.natural n)) => some n
  | some (.string s) => readUnsigned? bound64 (trim s.toList)
  | _ => none

def indexArgument (args : List Json) : Except CommandError Nat :=
  let value := indexValue? args
  match indexOf? value with
  | none =>
    .error (.invalidArguments .selectOption
      ("expected a choice index, got " ++ argumentShape value))
  | some n =>
    if n < bound32 then .ok n
    else
      .error (.invalidArguments .selectOption
        ("choice index " ++ numeral n ++ " is out of range"))

def Job.executeCommand (name : String) (args : List Json) :
    Job (Except CommandError (Option Started)) := do
  match Command.ofName? name with
  | none => pure (.error (.unknown name))
  | some .compileStory =>
    match uriArgument .compileStory args with
    | .error e => pure (.error e)
    | .ok uri => return .ok (← startFor uri .compile .command)
  | some .playStory =>
    match uriArgument .playStory args with
    | .error e => pure (.error e)
    | .ok uri => return .ok (← startFor uri .play .command)
  | some .selectOption =>
    match indexArgument args with
    | .error e => pure (.error e)
    | .ok index => do
      submit index
      pure (.ok none)
  | some .killRunner => do
    stop
    pure (.ok none)

end InkServer
