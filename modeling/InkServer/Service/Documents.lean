import InkServer.Service.Commands
import InkServer.Workspace.Edit

/-!
This module contains what the server does when documents, files and folders change.
-/

namespace InkServer

/-- What the user is told when an edit cannot be written even after a new copy was made. -/
def unrecoverableMessage : String :=
  "ink-ls hit an unrecoverable error while updating its copy of the workspace. " ++
  "See the ink-ls log for details."

/-- What came of an attempt to write an edit to the copy of a workspace. -/
inductive EditAttempt where
  | written
  /-- It is not to be written, and the user was told if there is something to tell. -/
  | refused
  /-- The copy cannot be written to. -/
  | fault (ws : Workspace)

namespace Job

/-- Attempt to write the text of a document to the copy of its workspace. -/
def tryEdit (uri : String) (path : Path) (text : String) (ws : Workspace) : Job EditAttempt := do
  match ← readyWorkspace ws uri with
  | .error e =>
    emit (.message e.level e.userMessage)
    pure .refused
  | .ok ready =>
    rest (.edit ready path text)
    let result ← update fun w =>
      let (disk, result) := ready.applyEdit path text w.disk
      ({ w with disk }, result)
    match result with
    | .ok () => pure .written
    | .error (.outside _ _) => pure .refused
    | .error _ => pure (.fault ready)

def abandon (ws : Workspace) : Job Unit :=
  modify fun w =>
    match ws.scratch with
    | some scratch => { w with registry := w.registry.markStale ws.uri scratch }
    | none => w

/-- Write the text of a document to the copy of its workspace. After a fault the copy is made anew for
a second attempt. -/
def copyEdit (uri : String) (path : Path) (text : String) (ws : Workspace) : Job Bool := do
  match ← tryEdit uri path text ws with
  | .written => pure true
  | .refused => pure false
  | .fault ready =>
    abandon ready
    match ← tryEdit uri path text ws with
    | .written => pure true
    | .refused => pure false
    | .fault _ =>
      emit (.message .error unrecoverableMessage)
      pure false

/-- A document was changed: its text goes to the copy, and the workspace is compiled. -/
def documentChanged (uri text : String) : Job (Option Started) := do
  match Uri.toPath uri with
  | .error _ => pure none
  | .ok path =>
    let path := path.normalize
    match ← owner? path with
    | none => pure none
    | some ws =>
      if ← copyEdit uri path text ws then
        startFor (some uri) .compile .edit
      else
        pure none

def documentOpened (uri text : String) : Job (Option Started) := do
  match Uri.toPath uri with
  | .error _ => pure none
  | .ok path =>
    modify fun w => { w with documents := setKey path.normalize uri w.documents }
    documentChanged uri text

/-- A document was closed: what the disk holds goes back to the copy. -/
def documentClosed (uri : String) : Job Unit := do
  match Uri.toPath uri with
  | .error _ => pure ()
  | .ok path =>
    let path := path.normalize
    modify fun w => { w with documents := eraseKey path w.documents }
    let w ← get
    match w.registry.findOwner? path with
    | none => pure ()
    | some ws =>
      if ws.scratch.isSome then
        rest .upkeep
        modify fun w =>
          if w.disk.pathExists path then
            { w with disk := ws.applyCreated w.rules.filter path w.disk }
          else
            { w with disk := ws.applyDeleted path w.disk }
      else
        pure ()

/-- A file changed on the disk. The text of an open document counts more than a change of its
file. -/
def fileChanged (change : FileChange) : Job Unit := do
  match Uri.toPath change.uri with
  | .error _ => pure ()
  | .ok path =>
    let path := path.normalize
    let w ← get
    match w.registry.findOwner? path with
    | none => pure ()
    | some ws =>
      if ws.scratch.isSome then
        match change.kind with
        | .deleted =>
          rest .upkeep
          modify fun w => { w with disk := ws.applyDeleted path w.disk }
        | kind =>
          if kind = .changed ∧ (w.documents.lookup path).isSome then
            pure ()
          else
            rest .upkeep
            modify fun w => { w with disk := ws.applyCreated w.rules.filter path w.disk }
      else
        pure ()

def filesChanged : List FileChange → Job Unit
  | [] => pure ()
  | change :: changes => do
    fileChanged change
    filesChanged changes

/-- Have the copies of all workspaces ready. The editor is asked for folders when there is none. -/
def copyAllWorkspaces : Job Unit := do
  let w ← get
  if w.registry.entries.isEmpty then
    let _ ← refreshFolders
  let w ← get
  let _ ← copyWorkspaces (w.registry.entries.map Prod.fst)

/-- A folder was removed: its workspace is forgotten, and its scratch folder goes. -/
def folderRemoved (uri : String) : Job Unit := do
  let w ← get
  let ws := w.registry.workspace? uri
  if ← forget uri then
    modify fun w => { w with published := eraseKey uri w.published }
    match ws.bind Workspace.scratch with
    | some scratch =>
      rest .upkeep
      modify fun w =>
        match w.disk.removeTree scratch with
        | .ok disk => { w with disk }
        | .error _ => w
    | none => pure ()
  else
    pure ()

def foldersRemoved : List String → Job Unit
  | [] => pure ()
  | uri :: uris => do
    folderRemoved uri
    foldersRemoved uris

def foldersChanged (added removed : List String) : Job Unit := do
  foldersRemoved removed
  addFolders added
  let _ ← copyWorkspaces added

end Job

end InkServer
