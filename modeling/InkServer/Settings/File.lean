import InkServer.Disk.Operations
import InkServer.Settings.Decode
import InkServer.Settings.Expansion
import InkServer.Toml.Reader
import InkServer.Workspace.Copy

/-!
This module contains the configuration file of the user: the lowest tier of settings, and the rules
for the copies of workspaces.
-/

namespace InkServer

open Text

structure CopySection where
  extensions : Option (List String)
  scratchFolder : Option String

structure Configuration where
  defaults : Option SettingsTier
  copies : Option CopySection

inductive ConfigurationError where
  | read (path : Path) (cause : DiskError)
  | parse (path : Path)

def CopySection.ofJson? (v : Json) : Option CopySection :=
  match Json.fields? [.nullable "extensions", .nullable "scratch_dir"] v with
  | some [extensions, folder] => do
    let extensions ← Json.readOption? (Json.list? Json.string?) extensions
    let folder ← Json.readOption? Json.string? folder
    some ⟨extensions, folder⟩
  | _ => none

namespace Configuration

def empty : Configuration := ⟨none, none⟩

def ofEntries? (entries : Toml.Entries) : Option Configuration :=
  match Json.fields? [.nullable "defaults", .nullable "mirror"]
    (Toml.Value.table .header entries).toJson with
  | some [defaults, copies] => do
    let defaults ← Json.readOption? SettingsTier.ofJson? defaults
    let copies ← Json.readOption? CopySection.ofJson? copies
    some ⟨defaults, copies⟩
  | _ => none

def load (d : Disk) (path : Path) : Except ConfigurationError (Option Configuration) :=
  if !d.pathExists path then
    .ok none
  else
    match d.contentText path with
    | .error cause => .error (.read path cause)
    | .ok text =>
      match (Toml.document? text.toList).bind ofEntries? with
      | some c => .ok (some c)
      | none => .error (.parse path)

def pathIn (home : Path) : Path :=
  (home.join (.ofString ".ink-ls")).join (.ofString "config.toml")

def expandTier (env : Environment) (t : SettingsTier) : SettingsTier :=
  ⟨t.mainStory.map env.expandText, t.inklecate.map env.expandText,
   t.shim.map fun s =>
    match s with
    | .through command => .through (env.expandText command)
    | s => s⟩

def settings (c : Configuration) (env : Environment) : Settings :=
  match c.defaults with
  | some t => (expandTier env t).resolve .platform
  | none => .platform

def filter (c : Configuration) : SourceFilter :=
  match c.copies.bind CopySection.extensions with
  | some (e :: es) => .ofList (e :: es)
  | _ => .standard

/-- The folder for scratch folders, which is `temporary` unless the file names one. -/
def scratchBase (c : Configuration) (env : Environment) (temporary : Path) : Path :=
  match c.copies.bind CopySection.scratchFolder with
  | some folder =>
    let folder := env.expandText folder
    if isBlankText folder then temporary else .ofString folder
  | none => temporary

def rules (c : Configuration) (env : Environment) (temporary : Path) : CopyRules :=
  ⟨c.scratchBase env temporary, c.filter⟩

end Configuration

end InkServer
