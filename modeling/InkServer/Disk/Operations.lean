import InkServer.Disk.Resolve

/-!
This module contains the operations on files and folders.
-/

namespace InkServer.Disk

open Text

def content (d : Disk) (p : Path) : Except DiskError Bytes :=
  match d.find true p with
  | .ok (_, .file content _) => .ok content
  | .ok (_, .sink) => .ok []
  | .ok _ => .error .isDirectory
  | .error e => .error e

def contentText (d : Disk) (p : Path) : Except DiskError String :=
  match d.content p with
  | .ok bytes =>
    match stringOf? bytes with
    | some s => .ok s
    | none => .error .notText
  | .error e => .error e

/-- The file or folder at a path can be opened for reading. -/
def canOpen (d : Disk) (p : Path) : Except DiskError Unit :=
  (d.find true p).map fun _ => ()

/-- Write a file. `executable` is for a file that is created now. -/
def store (d : Disk) (p : Path) (content : Bytes) (executable : Bool) : Except DiskError Disk :=
  match d.locate true p with
  | .ok (.found loc (.file _ mode)) => .ok (d.put loc (.file content mode))
  | .ok (.found _ .sink) => .ok d
  | .ok (.found _ _) => .error .isDirectory
  | .ok (.missing loc) => .ok (d.put loc (.file content executable))
  | .ok (.missingFolder _) => .error .isDirectory
  | .error e => .error e

def makeFolder (d : Disk) (p : Path) : Except DiskError Disk :=
  match d.locate false p with
  | .ok (.found _ _) => .error .alreadyExists
  | .ok (.missing loc) => .ok (d.put loc .folder)
  | .ok (.missingFolder loc) => .ok (d.put loc .folder)
  | .error e => .error e

/-- What comes of the creation of a folder: a fault does not matter if the folder is there. -/
def orThere (d : Disk) (p : Path) : Except DiskError Disk → Disk × Except DiskError Unit
  | .ok d => (d, .ok ())
  | .error e => (d, if d.isFolder p then .ok () else .error e)

/-- Create a folder, after the missing ones around it. A folder that is there already is no fault, and
what was created before a fault stays. -/
def createFolders (d : Disk) (p : Path) : Disk × Except DiskError Unit :=
  descend (p.bytes.length + 1) p
where
  descend : Nat → Path → Disk × Except DiskError Unit
    | 0, _ => (d, .ok ())
    | fuel + 1, q =>
      match q.parent? with
      | none => (d, .ok ())
      | some around =>
        match d.makeFolder q with
        | .ok d => (d, .ok ())
        | .error .notFound =>
          match descend fuel around with
          | (d, .error e) => (d, .error e)
          | (d, .ok ()) => d.orThere q (d.makeFolder q)
        | .error e => d.orThere q (.error e)

/-- Create a folder, after the missing ones around it, or nothing. -/
def makeFolders (d : Disk) (p : Path) : Except DiskError Disk :=
  match d.createFolders p with
  | (d, .ok ()) => .ok d
  | (_, .error e) => .error e

def list (d : Disk) (p : Path) : Except DiskError (List Name) :=
  match d.find true p with
  | .ok (loc, .folder) => .ok (d.children loc)
  | .ok _ => .error .notDirectory
  | .error e => .error e

def copyFile (d : Disk) (source target : Path) : Except DiskError Disk :=
  match d.find true source with
  | .error e => .error e
  | .ok (_, .file content executable) => d.store target content executable
  | .ok _ => .error .notRegular

def unlink (d : Disk) (p : Path) : Except DiskError Disk :=
  match d.find false p with
  | .ok (_, .folder) => .error .isDirectory
  | .ok (loc, _) => .ok (d.erase loc)
  | .error e => .error e

def remove (d : Disk) (p : Path) : Except DiskError Disk :=
  (d.find false p).map fun (loc, _) => d.erase loc

def removeTree (d : Disk) (p : Path) : Except DiskError Disk :=
  match d.find false p with
  | .ok (loc, .folder) => .ok (d.erase loc)
  | .ok (loc, .link _) => .ok (d.erase loc)
  | .ok _ => .error .notDirectory
  | .error e => .error e

end InkServer.Disk
