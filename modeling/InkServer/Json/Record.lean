import InkServer.Json.Basic

/-!
This module contains the reading of records: values with a fixed list of fields, given as an object
with the fields under their names or as an array with the fields in their order.
-/

namespace InkServer.Json

structure Field where
  /-- The names that the field goes by. -/
  names : List String
  /-- An object may leave the field out. -/
  optional : Bool
  /-- An array may end before the field. -/
  trailing : Bool

def Field.required (name : String) : Field :=
  ⟨[name], false, false⟩

def Field.defaulted (names : List String) : Field :=
  ⟨names, true, true⟩

/-- A field that an object may leave out, but an array may not. -/
def Field.nullable (name : String) : Field :=
  ⟨[name], true, false⟩

/-- The values of the fields in an object. A field given under two names is a fault. -/
def objectFields? (members : List (String × Json)) : List Field → Option (List (Option Json))
  | [] => some []
  | f :: fs =>
    match members.filter fun m => f.names.contains m.1 with
    | [] => if f.optional then (objectFields? members fs).map (none :: ·) else none
    | [(_, v)] => (objectFields? members fs).map (some v :: ·)
    | _ => none

/-- The values of the fields in an array. Items beyond the last field are a fault. -/
def arrayFields? : List Json → List Field → Option (List (Option Json))
  | [], [] => some []
  | _ :: _, [] => none
  | v :: vs, _ :: fs => (arrayFields? vs fs).map (some v :: ·)
  | [], f :: fs => if f.trailing then (arrayFields? [] fs).map (none :: ·) else none

/-- The values of the fields of a record, `none` for each one that is left out. -/
def fields? (fields : List Field) : Json → Option (List (Option Json))
  | .object members => objectFields? members fields
  | .array items => arrayFields? items fields
  | _ => none

/-- Read a field that may be absent: `null` stands for absence. -/
def readOption? {α : Type} (read : Json → Option α) : Option Json → Option (Option α)
  | none => some none
  | some .null => some none
  | some v => (read v).map some

def readDefault? {α : Type} (default : α) (read : Json → Option α) : Option Json → Option α
  | none => some default
  | some v => read v

def bool? : Json → Option Bool
  | .bool b => some b
  | _ => none

def list? {α : Type} (read : Json → Option α) : Json → Option (List α)
  | .array items => items.mapM read
  | _ => none

end InkServer.Json
