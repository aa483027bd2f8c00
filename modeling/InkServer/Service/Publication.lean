import InkServer.Service.World
import InkServer.Uri.File

/-!
This module contains the publishing of diagnostics: one list for each file of a workspace that has
some, that is open, or that had some the last time.
-/

namespace InkServer

/-- Lists of diagnostics by URI, in ascending order of the URIs. -/
abbrev Lists := List (String × List EditorDiagnostic)

namespace Lists

/-- Change the list of a URI, which is empty before if there is none. -/
def alter (uri : String) (f : List EditorDiagnostic → List EditorDiagnostic) : Lists → Lists
  | [] => [(uri, f [])]
  | (u, ds) :: rest =>
    if uri = u then (u, f ds) :: rest
    else if uri < u then (uri, f []) :: (u, ds) :: rest
    else (u, ds) :: alter uri f rest

/-- Have a list for a URI, be it empty. -/
def touch (uri : String) (lists : Lists) : Lists :=
  lists.alter uri id

def add (uri : String) (d : EditorDiagnostic) (lists : Lists) : Lists :=
  lists.alter uri (· ++ [d])

def nonEmpty (lists : Lists) : List String :=
  (lists.filter fun (_, ds) => ds ≠ []).map Prod.fst

end Lists

def documentsInside (documents : List (Path × String)) (root : Path) : List (Path × String) :=
  documents.filter fun (p, _) => p.isInside root

/-- The URI under which diagnostics of a file are shown: the editor's own one if the file is open, or
else the `file:` URI. -/
def shownUri? (documents : List (Path × String)) (p : Path) : Option String :=
  match documents.find? fun (q, _) => q = p with
  | some (_, uri) => some uri
  | none => Uri.ofPath? p

/-- The lists of the open documents and of the files with diagnostics. -/
def listsOf (documents : List (Path × String)) (diagnostics : List Diagnostic) : Lists :=
  let opened := documents.foldl (fun lists (_, uri) => Lists.touch uri lists) []
  diagnostics.foldl (fun lists d =>
    match shownUri? documents d.path.normalize with
    | some uri => Lists.add uri (.ofDiagnostic d) lists
    | none => lists) opened

def setKey {α β : Type} [DecidableEq α] (key : α) (value : β) : List (α × β) → List (α × β)
  | [] => [(key, value)]
  | (k, v) :: rest => if k = key then (key, value) :: rest else (k, v) :: setKey key value rest

def eraseKey {α β : Type} [DecidableEq α] (key : α) (entries : List (α × β)) : List (α × β) :=
  entries.filter fun (k, _) => k ≠ key

/-- The lists to publish for a workspace, and the URIs whose lists are not empty. -/
def publication (documents : List (Path × String)) (root : Path) (previous : List String)
    (diagnostics : List Diagnostic) : Lists × List String :=
  let lists := listsOf (documentsInside documents root) diagnostics
  (previous.foldl (fun lists uri => Lists.touch uri lists) lists, lists.nonEmpty)

/-- Record what is about to be published for a workspace, and say which lists these are. -/
def World.renew (w : World) (ws : Workspace) (diagnostics : List Diagnostic) : World × Lists :=
  let previous := (w.published.lookup ws.uri).getD []
  let (lists, current) := publication w.documents ws.root previous diagnostics
  ({ w with published := setKey ws.uri current w.published }, lists)

def Lists.messages (lists : Lists) : List Effect :=
  lists.map fun (uri, ds) => .publish uri ds

def World.publish (w : World) (ws : Workspace) (diagnostics : List Diagnostic) : World :=
  let (w, lists) := w.renew ws diagnostics
  w.emitAll lists.messages

end InkServer
