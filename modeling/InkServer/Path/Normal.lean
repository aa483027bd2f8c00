import InkServer.Path.Basic

/-!
This module contains the normal form of a path, in which `.` and `..` are resolved without looking
at any file, and the relative location of one path below another.
-/

namespace InkServer.Path

open Text

/-- Add one step to the resolved steps before it, which are kept innermost first. -/
def resolveStep (resolved : List Component) (c : Component) : List Component :=
  match c, resolved with
  | .here, rs => rs
  | .up, .name _ :: rs => rs
  | .up, .root :: rs => .root :: rs
  | c, rs => c :: rs

/-- The steps with `.` and `..` resolved as far as possible. -/
def resolve (cs : List Component) : List Component :=
  (cs.foldl resolveStep []).reverse

def normalize (p : Path) : Path :=
  ofComponents (resolve p.components)

/-- The location of `p` below `base`, when it lies strictly inside. -/
def relativeTo? (p base : Path) : Option Path :=
  match afterStart? base.normalize.components p.normalize.components with
  | none => none
  | some [] => none
  | some rest => some (ofComponents rest)

end InkServer.Path
