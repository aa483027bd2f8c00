import InkServer.Text.Split
import InkServer.Text.Utf8

/-!
This module contains the expansion of variables, written `${NAME}`, in configuration values. It is
one pass from left to right, so a value that is put in is not expanded again.
-/

namespace InkServer

open Text

/-- The variables of the environment whose values are texts. One with other bytes counts as unset. -/
abbrev Environment := List (String × String)

namespace Environment

/-- The variables in a block of entries `NAME=value` with a zero byte after each. -/
def ofBlock (block : Bytes) : Environment :=
  (pieces 0 block).filterMap fun entry => do
    let (name, value) ← splitFirst? 61 entry
    let name ← stringOf? name
    let value ← stringOf? value
    pure (name, value)

/-- The value of a variable, empty when it is unset. Nothing is looked up for an empty name. -/
def value (env : Environment) (name : List Char) : List Char :=
  if name = [] then
    []
  else
    match env.lookup (String.ofList name) with
    | some v => v.toList
    | none => []

/-- Put the value of each variable in its place. An opening without an end stays as it is. -/
def expand (env : Environment) (cs : List Char) : List Char :=
  match cs with
  | [] => []
  | '$' :: '\x7b' :: rest =>
    match _h : splitFirst? '\x7d' rest with
    | none => cs
    | some (name, after) => env.value name ++ expand env after
  | c :: rest => c :: expand env rest
termination_by cs.length
decreasing_by
  . have := length_after_lt _h
    simp
    omega
  . simp

def expandText (env : Environment) (s : String) : String :=
  String.ofList (env.expand s.toList)

end Environment

end InkServer
