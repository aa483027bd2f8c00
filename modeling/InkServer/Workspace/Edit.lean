import InkServer.Workspace.Copy

/-!
This module contains the changes of single files in a scratch folder: the text of an edited document,
a file that appeared on the disk, and one that is gone.
-/

namespace InkServer

open Text

/-- Why an edit cannot be written to the scratch folder. -/
inductive EditError where
  | notCopied (uri : String)
  | outside (path : Path) (uri : String)
  | write (path : Path) (cause : DiskError)
deriving DecidableEq

def EditError.message : EditError → String
  | notCopied uri => "workspace " ++ uri ++ " has no scratch directory yet"
  | outside path uri => path.text ++ " is not inside workspace " ++ uri
  | write path cause => "failed to write " ++ path.text ++ ": " ++ cause.text

namespace Workspace

def makeParent (d : Disk) (target : Path) : Disk × Except (Path × DiskError) Unit :=
  match target.parent? with
  | none => (d, .ok ())
  | some parent =>
    match d.createFolders parent with
    | (d, .ok ()) => (d, .ok ())
    | (d, .error cause) => (d, .error (parent, cause))

def applyEdit (w : Workspace) (document : Path) (text : String) (d : Disk) :
    Disk × Except EditError Unit :=
  if w.scratch.isNone then
    (d, .error (.notCopied w.uri))
  else
    match w.scratchPathFor? document with
    | none => (d, .error (.outside document w.uri))
    | some target =>
      match makeParent d target with
      | (d, .error (path, cause)) => (d, .error (.write path cause))
      | (d, .ok ()) =>
        match d.store target (bytesOf text) false with
        | .ok d => (d, .ok ())
        | .error cause => (d, .error (.write target cause))

/-- Copy a file that appeared on the disk, if it is a source. A fault leaves the copy as it is. -/
def applyCreated (w : Workspace) (filter : SourceFilter) (file : Path) (d : Disk) : Disk :=
  if !filter.isSource d file false then
    d
  else
    match w.scratchPathFor? file with
    | none => d
    | some target =>
      match makeParent d target with
      | (d, .error _) => d
      | (d, .ok ()) =>
        match d.copyFile file target with
        | .ok d => d
        | .error _ => d

/-- Remove the copy of a file that is gone from the disk. A fault changes nothing. -/
def applyDeleted (w : Workspace) (file : Path) (d : Disk) : Disk :=
  match w.scratchPathFor? file with
  | none => d
  | some target =>
    match d.unlink target with
    | .ok d => d
    | .error _ => d

end Workspace

end InkServer
