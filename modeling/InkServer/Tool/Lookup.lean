import InkServer.Disk.Operations
import InkServer.Settings.Basic
import InkServer.Settings.Expansion

/-!
This module contains the lookup of programs along the search path, and the memory of those that were
found.
-/

namespace InkServer

open Text

def searchFolders (path : String) : List Path :=
  (pieces 58 (bytesOf path)).map Path.mk

def Environment.searchPath (env : Environment) : List Path :=
  match env.lookup "PATH" with
  | some path => searchFolders path
  | none => []

namespace Disk

/-- Where a program stands: at its own path if that has several steps, or else in the first folder of
the search path that has it. -/
def which? (d : Disk) (folders : List Path) (program : String) : Option Path :=
  let p := Path.ofString program
  if p.components.length > 1 then
    let full := if p.isAbsolute then p else (Path.ofComponents (.root :: d.current.map .name)).join p
    if d.isExecutable full then some full else none
  else
    (folders.map fun f => f.join p).find? d.isExecutable

/-- The compiler can be started. Through a shim it only has to be there. -/
def hasTool (d : Disk) (folders : List Path) (s : Settings) : Bool :=
  match s.shim with
  | some _ => d.isFile (.ofString s.inklecate) || (d.which? folders s.inklecate).isSome
  | none => (d.which? folders s.inklecate).isSome

end Disk

structure ToolMemory where
  found : List String

namespace ToolMemory

def empty : ToolMemory := ⟨[]⟩

def check (m : ToolMemory) (d : Disk) (folders : List Path) (s : Settings) : Bool × ToolMemory :=
  if m.found.contains s.inklecate then (true, m)
  else if d.hasTool folders s then (true, ⟨s.inklecate :: m.found⟩)
  else (false, m)

end ToolMemory

end InkServer
