import InkServer.Disk.Operations
import InkServer.Text.Raw
import InkServer.Text.Split

/-!
This module contains the patterns of the shell, the texts that have them, and the files with such
names.
-/

namespace InkServer.Shell

open Text

/-- A pattern: characters, each with whether it is quoted and so stands for itself only. -/
abbrev Pattern := List (Char × Bool)

namespace Pattern

def text (p : Pattern) : Raw :=
  p.map Prod.fst

def quoted (t : Raw) : Pattern :=
  t.map fun c => (c, true)

def isSpecial (p : Pattern) : Bool :=
  p.any fun (c, quoted) => !quoted && (c == '*' || c == '?' || c == '[')

/-- The members of a set up to its closing bracket, and the pattern after it. A bracket may come first
as one of the set. -/
def readMembers : Bool → Pattern → Option (Pattern × Pattern)
  | _, [] => none
  | first, (c, quoted) :: rest =>
    if c = ']' ∧ !quoted ∧ !first then some ([], rest)
    else (readMembers false rest).map fun (members, rest) => ((c, quoted) :: members, rest)

def ranges : Pattern → List (Char × Char)
  | (c, _) :: ('-', false) :: (d, _) :: rest => (c, d) :: ranges rest
  | (c, _) :: rest => (c, c) :: ranges rest
  | [] => []

/-- A set after its opening bracket: whether it is negated, its ranges, and the pattern after it. -/
def readBracket (p : Pattern) : Option (Bool × List (Char × Char) × Pattern) :=
  match p with
  | ('!', false) :: rest => (readMembers true rest).map fun (ms, rest) => (true, ms.ranges, rest)
  | p => (readMembers true p).map fun (ms, rest) => (false, ms.ranges, rest)

def isOf : Nat → Pattern → Raw → Bool
  | 0, _, _ => false
  | _ + 1, [], t => t.isEmpty
  | fuel + 1, ('*', false) :: p, t =>
    isOf fuel p t ||
    match t with
    | _ :: t => isOf fuel (('*', false) :: p) t
    | [] => false
  | fuel + 1, (c, quoted) :: p, d :: t =>
    if c = '?' ∧ !quoted then isOf fuel p t
    else if c = '[' ∧ !quoted then
      match readBracket p with
      | some (negated, ranges, p) =>
        (ranges.any fun (low, high) => low ≤ d && d ≤ high) != negated && isOf fuel p t
      | none => d == '[' && isOf fuel p t
    else
      c == d && isOf fuel p t
  | _ + 1, _ :: _, [] => false

def describes (p : Pattern) (t : Raw) : Bool :=
  isOf (p.length + t.length + 1) p t

def dropStart (p : Pattern) (longest : Bool) (t : Raw) : Raw :=
  let lengths := List.range (t.length + 1)
  match (if longest then lengths.reverse else lengths).find? fun n => p.describes (t.take n) with
  | some n => t.drop n
  | none => t

def dropEnd (p : Pattern) (longest : Bool) (t : Raw) : Raw :=
  let lengths := List.range (t.length + 1)
  match (if longest then lengths else lengths.reverse).find? fun n => p.describes (t.drop n) with
  | some n => t.take n
  | none => t

def segments : Pattern → List Pattern
  | [] => [[]]
  | (c, quoted) :: p =>
    if c = '/' then [] :: segments p
    else
      match segments p with
      | [] => [[(c, quoted)]]
      | s :: ss => ((c, quoted) :: s) :: ss

/-- The names in a folder that a pattern describes, in order. A point in front has to be written out. -/
def namesIn (d : Disk) (folder : Path) (p : Pattern) : List Raw :=
  let names :=
    match d.list folder with
    | .ok names => names.map rawOf
    | .error _ => []
  let chosen := names.filter fun n => (n.head? ≠ some '.' ∨ p.head?.any (·.1 == '.')) && p.describes n
  chosen.mergeSort fun a b => !decide (b < a)

/-- The paths below what was found `before` that go on with names of the given patterns. -/
def pathsBelow (d : Disk) (folder : Path) : Raw → List Pattern → List Raw
  | before, [] => [before]
  | before, p :: ps =>
    let goOn (name : Raw) : List Raw :=
      if ps.isEmpty then [before ++ name] else pathsBelow d folder (before ++ name ++ ['/']) ps
    if p.isSpecial then
      (namesIn d (folder.join ⟨rawBytes before⟩) p).flatMap goOn
    else
      (goOn p.text).filter fun t => d.pathExists (folder.join ⟨rawBytes t⟩)

/-- The files with names that a pattern describes, or its text alone when there are none. -/
def files (d : Disk) (folder : Path) (p : Pattern) : List Raw :=
  if p.isSpecial then
    match pathsBelow d folder [] p.segments with
    | [] => [p.text]
    | found => found
  else
    [p.text]

end Pattern

end InkServer.Shell
