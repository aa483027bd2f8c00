import InkServer.Disk.Operations
import InkServer.Workspace.Entry
import InkServer.Workspace.SourceFilter

/-!
This module contains a pass over a workspace: the copying of its sources into a new scratch folder.
-/

namespace InkServer

open Text

/-- Where scratch folders are made, and what is copied into them. -/
structure CopyRules where
  scratchBase : Path
  filter : SourceFilter

/-- The beginning of the name of every scratch folder. -/
def scratchMark : Bytes := bytesOf "ink-ls-"

def scratchName (n : Nat) : Name :=
  let digits := Nat.toDigits 16 n
  scratchMark ++ encode (List.replicate (32 - digits.length) '0' ++ digits)

def isScratchName (p : Path) : Bool :=
  match p.fileName? with
  | some n => (stringOf? n).isSome && scratchMark.isPrefixOf n
  | none => false

/-- The path takes part in copying: a folder if `folders`, or a file with a source extension. -/
def SourceFilter.isSource (f : SourceFilter) (d : Disk) (p : Path) (folders : Bool) : Bool :=
  match d.find true p with
  | .error _ => false
  | .ok (_, .folder) => folders
  | .ok _ => f.hasSourceExtension p

namespace CopyRules

/-- The path is or lies at a scratch folder, which is never copied. -/
def isScratch (rules : CopyRules) (scratch p : Path) : Bool :=
  p.sameSteps scratch || (p.startsWith rules.scratchBase && isScratchName p)

/-- A folder that is still to be copied, and where to. -/
abbrev Pending := Path × Path

/-- Copy one item of a folder. A folder is created, and its content is left for later. -/
def copyItem (rules : CopyRules) (scratch source target : Path) (d : Disk) :
    Disk × Except CopyError (Option Pending) :=
  if rules.isScratch scratch source || !rules.filter.isSource d source true then
    (d, .ok none)
  else if d.isLink source && d.isFolder source then
    (d, .ok none)
  else if d.isFolder source then
    match d.createFolders target with
    | (d, .ok ()) => (d, .ok (some (source, target)))
    | (d, .error cause) => (d, .error (.copy source target cause))
  else
    match d.copyFile source target with
    | .ok d => (d, .ok none)
    | .error cause => (d, .error (.copy source target cause))

/-- Copy the items of a folder; the folders among them, last first. -/
def copyItems (rules : CopyRules) (scratch source target : Path) :
    List Name → List Pending → Disk → Disk × Except CopyError (List Pending)
  | [], pending, d => (d, .ok pending)
  | n :: names, pending, d =>
    match rules.copyItem scratch (source.child n) (target.child n) d with
    | (d, .ok found) => copyItems rules scratch source target names (found.toList ++ pending) d
    | (d, .error e) => (d, .error e)

def copyTree (rules : CopyRules) (scratch : Path) :
    Nat → List Pending → Disk → Disk × Except CopyError Unit
  | _, [], d => (d, .ok ())
  | 0, (source, _) :: _, d => (d, .error (.readSource source .nameTooLong))
  | fuel + 1, (source, target) :: pending, d =>
    match d.list source with
    | .error cause => (d, .error (.readSource source cause))
    | .ok names =>
      match rules.copyItems scratch source target names pending d with
      | (d, .ok pending) => copyTree rules scratch fuel pending d
      | (d, .error e) => (d, .error e)

/-- Copy the sources below `root` into the scratch folder with the given name. What was copied before
a fault stays. -/
def createCopy (rules : CopyRules) (name : Name) (root : Path) (d : Disk) :
    Disk × Except CopyError Path :=
  let scratch := rules.scratchBase.child name
  match d.createFolders scratch with
  | (d, .error cause) => (d, .error (.createScratch scratch cause))
  | (d, .ok ()) =>
    match rules.copyTree scratch (d.nodes.length + Disk.maxPath) [(root, scratch)] d with
    | (d, .ok ()) => (d, .ok scratch)
    | (d, .error e) => (d, .error e)

end CopyRules

end InkServer
