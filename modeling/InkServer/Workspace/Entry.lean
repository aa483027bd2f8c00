import InkServer.Disk.Basic
import InkServer.Path.Normal
import InkServer.Uri.File

/-!
This module contains the workspaces of the server. Each has a root on the disk and, once its sources
were copied, a scratch folder that holds the copies; paths in one correspond to paths in the other.
-/

namespace InkServer

inductive CopyState where
  | absent
  | copying
  | ready (scratch : Path)
  | failed (reason : String)
deriving DecidableEq

structure Entry where
  root : Path
  state : CopyState
  /-- The number of passes over the workspace so far. A pass counts only while it is the last. The
  number is unbounded; one of 64 bits would start over after `2 ^ 64` passes. -/
  generation : Nat
deriving DecidableEq

structure Workspace where
  uri : String
  root : Path
  scratch : Option Path
deriving DecidableEq

namespace Entry

/-- The scratch folder of a workspace whose copy is ready. -/
def scratch? (e : Entry) : Option Path :=
  match e.state with
  | .ready scratch => some scratch
  | _ => none

def snapshot (uri : String) (e : Entry) : Workspace :=
  ⟨uri, e.root, e.scratch?⟩

def fresh (root : Path) : Entry :=
  ⟨root.normalize, .absent, 0⟩

end Entry

namespace Workspace

def scratchPathFor? (w : Workspace) (real : Path) : Option Path :=
  match w.scratch, real.relativeTo? w.root with
  | some scratch, some relative => some (scratch.join relative)
  | _, _ => none

def realPathFor? (w : Workspace) (copy : Path) : Option Path :=
  match w.scratch with
  | none => none
  | some scratch => (copy.relativeTo? scratch).map w.root.join

end Workspace

inductive CopyError where
  | notRegistered (uri : String)
  | createScratch (path : Path) (cause : DiskError)
  | readSource (path : Path) (cause : DiskError)
  | copy (source target : Path) (cause : DiskError)
  | superseded (uri : String)
deriving DecidableEq

def CopyError.message : CopyError → String
  | notRegistered uri => "workspace " ++ uri ++ " is not registered"
  | createScratch path cause =>
    "failed to create scratch directory " ++ path.text ++ ": " ++ cause.text
  | readSource path cause => "failed to read " ++ path.text ++ ": " ++ cause.text
  | copy source target cause =>
    "failed to copy " ++ source.text ++ " to " ++ target.text ++ ": " ++ cause.text
  | superseded uri => "mirroring of " ++ uri ++ " was superseded by a newer pass"

end InkServer
