import InkServer.Path.Basic

/-!
This module contains the choice of the files that belong to a story, by their extensions.
-/

namespace InkServer

open Text

/-- The extensions of story sources, in ascending order. -/
structure SourceFilter where
  extensions : List String
deriving DecidableEq

namespace SourceFilter

/-- Put an extension into its place in an ascending list. -/
def insertSorted (e : String) : List String → List String
  | [] => [e]
  | x :: xs =>
    if e = x then x :: xs
    else if e < x then e :: x :: xs
    else x :: insertSorted e xs

def ofList (extensions : List String) : SourceFilter :=
  let bare := extensions.map fun e => String.ofList (e.toList.dropWhile (· = '.'))
  ⟨(bare.filter (· ≠ "")).foldl (fun es e => insertSorted e es) []⟩

def standard : SourceFilter :=
  ofList ["ink", "ink2"]

def hasSourceExtension (f : SourceFilter) (p : Path) : Bool :=
  match p.extension?.bind stringOf? with
  | some e => f.extensions.contains e
  | none => false

end SourceFilter

end InkServer
