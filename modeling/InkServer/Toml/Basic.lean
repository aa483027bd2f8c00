import InkServer.Json.Basic

/-!
This module contains TOML values and the building of a document from its lines: the descent along a
dotted key, and the rules on what may be defined twice.
-/

namespace InkServer.Toml

/-- How a table came to be, which decides what may be added to it. -/
inductive Origin where
  /-- It stands on the way to a table with a header of its own. -/
  | implied
  /-- It stands on the way of a dotted key. -/
  | dotted
  /-- It has a header. -/
  | header
  /-- It was written in one place between braces. -/
  | inline
deriving DecidableEq

/-- A TOML value. Only the text of strings and the shape of the rest matter here. -/
inductive Value where
  | string (s : String)
  | integer
  | float
  | bool (b : Bool)
  | datetime
  | array (items : List Value)
  /-- Tables that were given one after the other under one header, last first. -/
  | tables (items : List (List (String × Value)))
  | table (origin : Origin) (entries : List (String × Value))

abbrev Entries := List (String × Value)

/-- Replace the entry of a key, or add it at the end. -/
def setEntry (key : String) (value : Value) : Entries → Entries
  | [] => [(key, value)]
  | (k, v) :: rest => if k = key then (key, value) :: rest else (k, v) :: setEntry key value rest

/-- Change the table that a header stands in, creating what is missing on the way. -/
def underHeader? (change : Entries → Option Entries) : List String → Entries → Option Entries
  | [], entries => change entries
  | key :: keys, entries =>
    match entries.lookup key with
    | none =>
      (underHeader? change keys []).map fun inner => setEntry key (.table .implied inner) entries
    | some (.table origin inner) =>
      if origin = .inline then none
      else
        (underHeader? change keys inner).map fun inner => setEntry key (.table origin inner) entries
    | some (.tables (last :: before)) =>
      (underHeader? change keys last).map fun last => setEntry key (.tables (last :: before)) entries
    | some _ => none

/-- Open the table with the given header, which may have been implied but not defined before. -/
def openTable? (keys : List String) (entries : Entries) : Option Entries :=
  match keys.getLast? with
  | none => none
  | some key =>
    underHeader? (fun parent =>
      match parent.lookup key with
      | none => some (setEntry key (.table .header []) parent)
      | some (.table .implied inner) => some (setEntry key (.table .header inner) parent)
      | some _ => none) keys.dropLast entries

/-- Begin one more of the tables under the given header. -/
def openItem? (keys : List String) (entries : Entries) : Option Entries :=
  match keys.getLast? with
  | none => none
  | some key =>
    underHeader? (fun parent =>
      match parent.lookup key with
      | none => some (setEntry key (.tables [[]]) parent)
      | some (.tables items) => some (setEntry key (.tables ([] :: items)) parent)
      | some _ => none) keys.dropLast entries

/-- Give a value to a dotted key inside one table. -/
def assign? (value : Value) : List String → Entries → Option Entries
  | [], _ => none
  | [key], entries =>
    match entries.lookup key with
    | none => some (setEntry key value entries)
    | some _ => none
  | key :: keys, entries =>
    match entries.lookup key with
    | none => (assign? value keys []).map fun inner => setEntry key (.table .dotted inner) entries
    | some (.table origin inner) =>
      if origin = .dotted ∨ (origin = .implied ∧ keys.length ≥ 2) then
        (assign? value keys inner).map fun inner => setEntry key (.table origin inner) entries
      else
        none
    | some _ => none

/-- Change the table that was opened last: the one at `keys`, or the last of those there. -/
def inCurrent? (change : Entries → Option Entries) : List String → Entries → Option Entries
  | [], entries => change entries
  | key :: keys, entries =>
    match entries.lookup key with
    | some (.table origin inner) =>
      (inCurrent? change keys inner).map fun inner => setEntry key (.table origin inner) entries
    | some (.tables (last :: before)) =>
      (inCurrent? change keys last).map fun last => setEntry key (.tables (last :: before)) entries
    | _ => none

mutual

/-- The JSON value of the same shape. A date becomes an object, and numbers lose their value. -/
def Value.toJson : Value → Json
  | .string s => .string s
  | .integer => .ofNat 0
  | .float => .ofNat 0
  | .bool b => .bool b
  | .datetime => .object [("datetime", .null)]
  | .array items => .array (itemsToJson items)
  | .tables items => .array (tablesToJson items).reverse
  | .table _ entries => .ofMembers (entriesToJson entries)

def itemsToJson : List Value → List Json
  | [] => []
  | v :: vs => v.toJson :: itemsToJson vs

def tablesToJson : List (List (String × Value)) → List Json
  | [] => []
  | t :: ts => .ofMembers (entriesToJson t) :: tablesToJson ts

def entriesToJson : List (String × Value) → List (String × Json)
  | [] => []
  | (k, v) :: es => (k, v.toJson) :: entriesToJson es

end

end InkServer.Toml
