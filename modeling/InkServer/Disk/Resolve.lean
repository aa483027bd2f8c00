import InkServer.Disk.Basic

/-!
This module contains the way from a path to a place on the disk, along folders and links.
-/

namespace InkServer.Disk

open Text

inductive Target where
  | found (loc : Location) (node : Node)
  /-- Nothing stands there, but the folder around it does. -/
  | missing (loc : Location)
  /-- Nothing stands there, and the way ends in a slash: it could only be a folder. -/
  | missingFolder (loc : Location)
deriving DecidableEq

def maxLinks : Nat := 40

def maxName : Nat := 255

def maxPath : Nat := 4095

/-- Walk on from a folder along the pieces of a path. With `follow` a link at the end is followed too.
`jump` goes on at a link, from the folder around it, with its target and the pieces behind it. -/
def walkTo (d : Disk) (follow : Bool) (jump : Location → Path → List Bytes → Except DiskError Target)
    (loc : Location) : List Bytes → Except DiskError Target
  | [] => .ok (.found loc .folder)
  | p :: rest =>
    if p = [] ∨ p = [dot] then
      d.walkTo follow jump loc rest
    else if p = [dot, dot] then
      d.walkTo follow jump loc.dropLast rest
    else if p.length > maxName then
      .error .nameTooLong
    else
      let next := loc ++ [p]
      match d.node? next with
      | none =>
        if rest = [] then .ok (.missing next)
        else if rest.all (· = []) then .ok (.missingFolder next)
        else .error .notFound
      | some .folder => d.walkTo follow jump next rest
      | some (.link target) =>
        if rest = [] ∧ !follow then .ok (.found next (.link target)) else jump loc target rest
      | some node => if rest = [] then .ok (.found next node) else .error .notDirectory

/-- Walk along the pieces of a path and at most `links` links. -/
def walk (d : Disk) (follow : Bool) : Nat → Location → List Bytes → Except DiskError Target
  | 0 => d.walkTo follow fun _ _ _ => .error .tooManyLinks
  | links + 1 => d.walkTo follow fun loc target rest =>
    if target.bytes = [] then .error .notFound
    else
      d.walk follow links (if target.isAbsolute then [] else loc) (pieces slash target.bytes ++ rest)

theorem walk_nil {d : Disk} {follow : Bool} {links : Nat} {loc : Location} :
    d.walk follow links loc [] = .ok (.found loc .folder) := by
  cases links <;> rfl

theorem walk_cons {d : Disk} {follow : Bool} {links : Nat} {loc : Location} {p : Bytes}
    {rest : List Bytes} :
    d.walk follow links loc (p :: rest)
      =
    if p = [] ∨ p = [dot] then
      d.walk follow links loc rest
    else if p = [dot, dot] then
      d.walk follow links loc.dropLast rest
    else if p.length > maxName then
      .error .nameTooLong
    else
      match d.node? (loc ++ [p]) with
      | none =>
        if rest = [] then .ok (.missing (loc ++ [p]))
        else if rest.all (· = []) then .ok (.missingFolder (loc ++ [p]))
        else .error .notFound
      | some .folder => d.walk follow links (loc ++ [p]) rest
      | some (.link target) =>
        if rest = [] ∧ !follow then
          .ok (.found (loc ++ [p]) (.link target))
        else
          match links with
          | 0 => .error .tooManyLinks
          | links + 1 =>
            if target.bytes = [] then .error .notFound
            else
              d.walk follow links (if target.isAbsolute then [] else loc)
                (pieces slash target.bytes ++ rest)
      | some node => if rest = [] then .ok (.found (loc ++ [p]) node) else .error .notDirectory := by
  cases links <;> rfl

-- A walk is opened by the two lemmas, and otherwise only evaluated.
attribute [irreducible] walk

/-- Where a path leads. With `follow` a link at its end is followed too. -/
def locate (d : Disk) (follow : Bool) (p : Path) : Except DiskError Target :=
  if p.bytes = [] then .error .notFound
  else if p.bytes.contains 0 then .error .containsNul
  else if p.bytes.length > maxPath then .error .nameTooLong
  else walk d follow maxLinks (if p.isAbsolute then [] else d.current) (pieces slash p.bytes)

def find (d : Disk) (follow : Bool) (p : Path) : Except DiskError (Location × Node) :=
  match d.locate follow p with
  | .ok (.found loc node) => .ok (loc, node)
  | .ok _ => .error .notFound
  | .error e => .error e

def pathExists (d : Disk) (p : Path) : Bool :=
  match d.find true p with
  | .ok _ => true
  | .error _ => false

/-- A folder stands at the path, perhaps at the end of links. -/
def isFolder (d : Disk) (p : Path) : Bool :=
  match d.find true p with
  | .ok (_, .folder) => true
  | _ => false

/-- A regular file stands at the path, perhaps at the end of links. -/
def isFile (d : Disk) (p : Path) : Bool :=
  match d.find true p with
  | .ok (_, .file _ _) => true
  | _ => false

def isLink (d : Disk) (p : Path) : Bool :=
  match d.find false p with
  | .ok (_, .link _) => true
  | _ => false

def isExecutable (d : Disk) (p : Path) : Bool :=
  match d.find true p with
  | .ok (_, .file _ executable) => executable
  | _ => false

end InkServer.Disk
