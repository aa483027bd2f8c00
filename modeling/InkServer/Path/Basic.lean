import InkServer.Text.Split
import InkServer.Text.Utf8

/-!
This module contains file paths: byte strings cut into components at slashes, with the operations
that take them apart and put them together.
-/

namespace InkServer

open Text

abbrev Name := Bytes

def slash : UInt8 := 47

def dot : UInt8 := 46

structure Path where
  bytes : Bytes
deriving DecidableEq, Inhabited

inductive Component where
  | root
  | here
  | up
  | name (n : Name)
deriving DecidableEq

namespace Component

def bytes : Component → Bytes
  | root => [slash]
  | here => [dot]
  | up => [dot, dot]
  | name n => n

def isName : Component → Bool
  | name _ => true
  | _ => false

/-- The step that a piece between slashes stands for, if it is one at all. -/
def ofPiece? (piece : Bytes) : Option Component :=
  if piece = [] ∨ piece = [dot] then none
  else if piece = [dot, dot] then some up
  else some (name piece)

end Component

namespace Path

def empty : Path := ⟨[]⟩

def rootDir : Path := ⟨[slash]⟩

def ofString (s : String) : Path := ⟨bytesOf s⟩

/-- The text of a path, with U+FFFD for bytes that are no text. -/
def text (p : Path) : String := stringOfLossy p.bytes

def isAbsolute (p : Path) : Bool :=
  p.bytes.head? = some slash

/-- A relative path that begins with a step to the same directory. -/
def startsHere (bytes : Bytes) : Bool :=
  bytes = [dot] || [dot, slash].isPrefixOf bytes

/-- The part of a path before its ordinary pieces (a root or a leading dot), and the rest. -/
def splitLead (bytes : Bytes) : Option Component × Bytes :=
  match bytes with
  | [] => (none, [])
  | b :: rest =>
    if b = slash then (some .root, rest)
    else if startsHere bytes then (some .here, rest)
    else (none, bytes)

/-- The steps of a path. Empty pieces and dots count for nothing, but for a leading dot. -/
def components (p : Path) : List Component :=
  let (lead, body) := splitLead p.bytes
  lead.toList ++ (pieces slash body).filterMap Component.ofPiece?

def ofComponents : List Component → Path
  | .root :: cs => ⟨slash :: joined slash (cs.map Component.bytes)⟩
  | cs => ⟨joined slash (cs.map Component.bytes)⟩

/-- `q` as seen from `p`. -/
def join (p q : Path) : Path :=
  if q.isAbsolute || p.bytes = [] then q
  else if p.bytes.getLast? = some slash then ⟨p.bytes ++ q.bytes⟩
  else ⟨p.bytes ++ slash :: q.bytes⟩

def child (p : Path) (n : Name) : Path :=
  p.join ⟨n⟩

def trimPieces (ps : List Bytes) : List Bytes :=
  (ps.reverse.dropWhile fun p => (Component.ofPiece? p).isNone).reverse

/-- The path without its last step, when it has one other than the root. -/
def parent? (p : Path) : Option Path :=
  let (lead, body) := splitLead p.bytes
  let leadBytes := (lead.map Component.bytes).getD []
  match (trimPieces (pieces slash body)).reverse with
  | _ :: before => some ⟨leadBytes ++ joined slash (trimPieces before.reverse)⟩
  | [] => if lead = some .here then some empty else none

/-- The last step, when it is an ordinary name. -/
def fileName? (p : Path) : Option Name :=
  match p.components.getLast? with
  | some (.name n) => some n
  | _ => none

/-- What follows the last dot of the last name, when something stands before that dot. -/
def extension? (p : Path) : Option Bytes :=
  match p.fileName? with
  | none => none
  | some n =>
    match splitLast? dot n with
    | some (before, after) => if before = [] then none else some after
    | none => none

/-- The steps of `p` begin with the steps of `q`. -/
def startsWith (p q : Path) : Bool :=
  q.components.isPrefixOf p.components

def sameSteps (p q : Path) : Bool :=
  p.components = q.components

end Path

end InkServer
