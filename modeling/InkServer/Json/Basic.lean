import InkServer.Number.Binary64

/-!
This module contains JSON values. The members of an object stand in ascending order of their keys,
with one member for each key.
-/

namespace InkServer

/-- A number as it is kept: a whole number of 64 bits, or else a binary64 number. -/
inductive Number where
  | natural (n : Nat)
  /-- The number `-(n + 1)`. -/
  | negative (n : Nat)
  | float (x : Binary64)
deriving DecidableEq

inductive Json where
  | null
  | bool (b : Bool)
  | number (n : Number)
  | string (s : String)
  | array (items : List Json)
  | object (members : List (String × Json))

namespace Json

instance : Inhabited Json := ⟨.null⟩

/-- Put a member into its place. A member with the same key is replaced. -/
def insertMember (key : String) (value : Json) : List (String × Json) → List (String × Json)
  | [] => [(key, value)]
  | (k, v) :: rest =>
    if key = k then (key, value) :: rest
    else if key < k then (key, value) :: (k, v) :: rest
    else (k, v) :: insertMember key value rest

/-- The object with the given members. Of two with one key the later counts. -/
def ofMembers (members : List (String × Json)) : Json :=
  .object (members.foldl (fun ms (k, v) => insertMember k v ms) [])

def ofNat (n : Nat) : Json :=
  .number (.natural n)

def ofStrings (ss : List String) : Json :=
  .array (ss.map .string)

def get? (v : Json) (key : String) : Option Json :=
  match v with
  | .object members => members.lookup key
  | _ => none

def item? (v : Json) (i : Nat) : Option Json :=
  match v with
  | .array items => items[i]?
  | _ => none

def string? : Json → Option String
  | .string s => some s
  | _ => none

def natural? : Json → Option Nat
  | .number (.natural n) => some n
  | _ => none

def isNull : Json → Bool
  | .null => true
  | _ => false

end Json

end InkServer
