import InkServer.Path.Basic

/-!
This module contains a view of path texts that does not depend on the style of the separator: an
anchor (a drive, a root, both or none) and the segments below it. It decides which workspace owns a
document.
-/

namespace InkServer

open Text

def isLetter (c : Char) : Bool :=
  (65 ≤ c.toNat && c.toNat ≤ 90) || (97 ≤ c.toNat && c.toNat ≤ 122)

/-- The lower-case form of an ASCII letter, and any other character as it is. -/
def lowerLetter (c : Char) : Char :=
  if 65 ≤ c.toNat ∧ c.toNat ≤ 90 then Char.ofNat (c.toNat + 32) else c

/-- The text begins with a drive: a letter and a colon, then the end or a separator. -/
def hasDrive : List Char → Bool
  | [c, ':'] => isLetter c
  | c :: ':' :: d :: _ => isLetter c && (d = '\\' || d = '/')
  | _ => false

structure Anchor where
  /-- The drive letter in lower case. -/
  drive : Option Char
  rooted : Bool
deriving DecidableEq

def Anchor.isNone (a : Anchor) : Bool :=
  a.drive.isNone && !a.rooted

/-- A path text with its separators, drive and dots resolved. -/
structure LexicalPath where
  anchor : Anchor
  segments : List (List Char)
deriving DecidableEq

namespace LexicalPath

def upSegment : List Char := ['.', '.']

/-- Add one segment to the resolved ones before it, which are kept innermost first. -/
def addSegment (anchored : Bool) (resolved : List (List Char)) (segment : List Char) :
    List (List Char) :=
  if segment = [] ∨ segment = ['.'] then
    resolved
  else if segment = upSegment then
    match resolved with
    | last :: before =>
      if last ≠ upSegment then before
      else if anchored then resolved
      else segment :: resolved
    | [] => if anchored then [] else [segment]
  else
    segment :: resolved

def ofText (text : List Char) : LexicalPath :=
  let unified := text.map fun c => if c = '\\' then '/' else c
  let drive := if hasDrive unified then unified.head?.map lowerLetter else none
  let rest := if hasDrive unified then unified.drop 2 else unified
  let anchor := ⟨drive, rest.head? = some '/'⟩
  ⟨anchor, ((pieces '/' rest).foldl (addSegment !anchor.isNone) []).reverse⟩

def ofPath (p : Path) : LexicalPath :=
  ofText (decodeLossy p.bytes)

/-- `p` lies strictly inside `base`. -/
def isInside (p base : LexicalPath) : Bool :=
  p.anchor = base.anchor && !base.segments.contains upSegment &&
    match afterStart? base.segments p.segments with
    | some (first :: _) => first ≠ upSegment
    | _ => false

end LexicalPath

namespace Path

/-- `p` lies strictly inside `base`, by the lexical forms of their texts. -/
def isInside (p base : Path) : Bool :=
  (LexicalPath.ofPath p).isInside (LexicalPath.ofPath base)

end Path

def findOwner? {α : Type} (root : α → Path) (items : List α) (p : Path) : Option α :=
  items.find? fun item => p.isInside (root item)

end InkServer
