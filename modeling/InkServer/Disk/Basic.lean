import InkServer.Path.Basic
import InkServer.Text.Numeral

/-!
This module contains the disk: a tree of folders, files and links, kept as a list of locations with
what stands there. Folders list their content in the order of that list.
-/

namespace InkServer

open Text

/-- A place on the disk: the names on the way from the root. -/
abbrev Location := List Name

inductive Node where
  | file (content : Bytes) (executable : Bool)
  | folder
  | link (target : Path)
  /-- A file that swallows what is written and holds nothing. -/
  | sink
deriving DecidableEq

/-- The files of the machine, and the folder that relative paths start from. -/
structure Disk where
  nodes : List (Location × Node)
  current : Location
deriving DecidableEq

inductive DiskError where
  | notFound
  | notExecutable
  | alreadyExists
  | notDirectory
  | isDirectory
  | nameTooLong
  | tooManyLinks
  | containsNul
  | notRegular
  | notText
deriving DecidableEq

namespace DiskError

def number? : DiskError → Option Nat
  | notFound => some 2
  | notExecutable => some 8
  | alreadyExists => some 17
  | notDirectory => some 20
  | isDirectory => some 21
  | nameTooLong => some 36
  | tooManyLinks => some 40
  | _ => none

def words : DiskError → String
  | notFound => "No such file or directory"
  | notExecutable => "Exec format error"
  | alreadyExists => "File exists"
  | notDirectory => "Not a directory"
  | isDirectory => "Is a directory"
  | nameTooLong => "File name too long"
  | tooManyLinks => "Too many levels of symbolic links"
  | containsNul => "file name contained an unexpected NUL byte"
  | notRegular => "the source path is neither a regular file nor a symlink to a regular file"
  | notText => "stream did not contain valid UTF-8"

/-- The text of an error, with its number when the system has one for it. -/
def text (e : DiskError) : String :=
  match e.number? with
  | some n => e.words ++ " (os error " ++ numeral n ++ ")"
  | none => e.words

end DiskError

namespace Disk

/-- What stands at a place. The root is always a folder. -/
def node? (d : Disk) (loc : Location) : Option Node :=
  if loc = [] then some .folder else d.nodes.lookup loc

/-- Replace what stands at a place in a list of nodes, or add it at the end. -/
def putNode (loc : Location) (node : Node) : List (Location × Node) → List (Location × Node)
  | [] => [(loc, node)]
  | (l, n) :: rest => if l = loc then (loc, node) :: rest else (l, n) :: putNode loc node rest

def put (d : Disk) (loc : Location) (node : Node) : Disk :=
  { d with nodes := putNode loc node d.nodes }

/-- Take away what stands at a place, with everything below it. -/
def erase (d : Disk) (loc : Location) : Disk :=
  { d with nodes := d.nodes.filter fun (l, _) => !loc.isPrefixOf l }

def childName? (folder loc : Location) : Option Name :=
  match afterStart? folder loc with
  | some [n] => some n
  | _ => none

def children (d : Disk) (folder : Location) : List Name :=
  d.nodes.filterMap fun (l, _) => childName? folder l

end Disk

end InkServer
