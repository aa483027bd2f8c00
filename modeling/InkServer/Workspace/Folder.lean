import InkServer.Json.Record

/-!
This module contains what an editor says about the folders and files of its workspace.
-/

namespace InkServer

structure Folder where
  uri : String
  name : String
deriving DecidableEq

namespace Folder

/-- The folder that a JSON value describes. The name may be left out. -/
def ofJson? (v : Json) : Option Folder :=
  match Json.fields? [.required "uri", .defaulted ["name"]] v with
  | some [some uri, name] => do
    let uri ← uri.string?
    let name ← Json.readDefault? "" Json.string? name
    some ⟨uri, name⟩
  | _ => none

def toJson (f : Folder) : Json :=
  .ofMembers [("uri", .string f.uri), ("name", .string f.name)]

end Folder

inductive ChangeKind where
  | created
  | changed
  | deleted
deriving DecidableEq

def ChangeKind.ofCode? : Nat → Option ChangeKind
  | 1 => some created
  | 2 => some changed
  | 3 => some deleted
  | _ => none

structure FileChange where
  uri : String
  kind : ChangeKind
deriving DecidableEq

end InkServer
