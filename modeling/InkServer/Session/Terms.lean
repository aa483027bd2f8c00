import InkServer.Rpc.Message
import InkServer.Rpc.Params
import InkServer.Service.Documents

/-!
This module contains the course of a session: which messages are answered, carried out or dropped at
which stage.
-/

namespace InkServer

inductive Stage where
  | uninitialized
  | running (watchFiles : Bool)
  | shuttingDown
deriving DecidableEq

inductive SessionEnd where
  /-- The editor said so; `clean` if it asked for the shutdown before. -/
  | exit (clean : Bool)
  /-- The input came to its end or cannot be read. -/
  | inputClosed
deriving DecidableEq

def SessionEnd.code : SessionEnd → Nat
  | exit true => 0
  | exit false => 1
  | inputClosed => 1

/-- What the server and the editor have agreed on. -/
structure Terms where
  stage : Stage
  capabilities : Capabilities
deriving DecidableEq

inductive Reaction where
  /-- Answer a request with what a job comes to. -/
  | answer (id : Json) (job : Job Reply)
  /-- Do a job, and start others beside it. -/
  | work (job : Job Unit) (beside : List (Job Unit))
  /-- End the session. -/
  | finish (final : SessionEnd)

namespace Terms

def start : Terms :=
  ⟨.uninitialized, .none⟩

def firstRequest (t : Terms) (params : Json) : Terms × Job Reply :=
  match InitializeParams.ofJson? params with
  | none => (t, pure (.refuse .invalidParams "invalid initialize params: not of the expected form"))
  | some p =>
    (⟨.running p.capabilities.watchFiles, p.capabilities⟩, do
      Job.addFolders (p.folders.map Folder.uri)
      Job.modify fun w => { w with initial := p.settings }
      pure (.result (initializeResult (Command.all.map Command.name))))

def command (params : Json) : Job Reply :=
  match executeCommand? params with
  | none => pure (.refuse .invalidParams "invalid executeCommand params")
  | some (name, args) => do
    match ← Job.executeCommand name args with
    | .ok _ => pure (.result .null)
    | .error (.unknown name) => pure (.refuse .methodNotFound (CommandError.unknown name).message)
    | .error e => pure (.refuse .invalidParams e.message)

def request (t : Terms) (method : String) (params : Json) : Terms × Job Reply :=
  match t.stage with
  | .uninitialized =>
    if method = "initialize" then t.firstRequest params
    else (t, pure (.refuse .notInitialized "server has not been initialized"))
  | .shuttingDown =>
    if method = "initialize" then
      (t, pure (.refuse .invalidRequest "server is already initialized"))
    else
      (t, pure (.refuse .invalidRequest "server is shutting down"))
  | .running _ =>
    if method = "initialize" then
      (t, pure (.refuse .invalidRequest "server is already initialized"))
    else if method = "shutdown" then
      ({ t with stage := .shuttingDown }, do
        Job.stop
        pure (.result .null))
    else if method = "workspace/executeCommand" then
      (t, command params)
    else
      (t, pure (.refuse .methodNotFound ("method not found: " ++ method)))

def watchSources : Job Unit := do
  let w ← Job.get
  Job.register (watchRegistration w.rules.filter.extensions)

def opened (params : Json) : Job Unit :=
  match didOpen? params with
  | some (uri, text) => do
    let _ ← Job.documentOpened uri text
  | none => pure ()

def changed (params : Json) : Job Unit :=
  match didChange? params with
  | some (uri, some text) => do
    let _ ← Job.documentChanged uri text
  | _ => pure ()

def closed (params : Json) : Job Unit :=
  match didClose? params with
  | some uri => Job.documentClosed uri
  | none => pure ()

/-- Files changed on the disk, as far as the parameters say. -/
def watched (params : Json) : Job Unit :=
  match watchedFiles? params with
  | some changes => Job.filesChanged (changes.filterMap id)
  | none => pure ()

def foldersChanged (params : Json) : Job Unit :=
  match foldersChange? params with
  | some change =>
    Job.foldersChanged (change.added.map Folder.uri) (change.removed.map Folder.uri)
  | none => pure ()

def notice (watchFiles : Bool) (method : String) (params : Json) : Reaction :=
  if method = "initialized" then
    .work (pure ())
      (if watchFiles then [watchSources, Job.copyAllWorkspaces] else [Job.copyAllWorkspaces])
  else if method = "textDocument/didOpen" then .work (opened params) []
  else if method = "textDocument/didChange" then .work (changed params) []
  else if method = "textDocument/didClose" then .work (closed params) []
  else if method = "workspace/didChangeWatchedFiles" then .work (watched params) []
  else if method = "workspace/didChangeWorkspaceFolders" then .work (foldersChanged params) []
  else .work (pure ()) []

def react (t : Terms) : Incoming → Terms × Reaction
  | .reply _ _ => (t, .work (pure ()) [])
  | .request id method params =>
    let (t, job) := t.request method params
    (t, .answer id job)
  | .notice method params =>
    if method = "exit" then
      (t, .finish (.exit (t.stage = .shuttingDown)))
    else
      match t.stage with
      | .running watchFiles => (t, notice watchFiles method params)
      | _ => (t, .work (pure ()) [])

end Terms

end InkServer
