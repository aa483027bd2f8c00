import InkServer.Json.Record
import InkServer.Settings.Basic

/-!
This module contains the JSON form of a settings tier.
-/

namespace InkServer

def Shim.ofJson? : Json → Option Shim
  | .bool false => some disabled
  | .bool true => some enabled
  | .string command => some (through command)
  | _ => none

def Shim.toJson : Shim → Json
  | disabled => .bool false
  | enabled => .bool true
  | through command => .string command

namespace SettingsTier

def fields : List Json.Field :=
  [.defaulted ["mainStoryPath", "main_story_path"],
   .defaulted ["inklecatePath", "inklecate_path", "inklecateExecutablePath"],
   .defaulted ["runThroughShim", "run_through_shim", "runThroughMono"]]

def ofJson? (v : Json) : Option SettingsTier :=
  match Json.fields? fields v with
  | some [mainStory, inklecate, shim] => do
    let mainStory ← Json.readOption? Json.string? mainStory
    let inklecate ← Json.readOption? Json.string? inklecate
    let shim ← Json.readOption? Shim.ofJson? shim
    some ⟨mainStory, inklecate, shim⟩
  | _ => none

/-- The JSON form of a tier, without the open fields. -/
def toJson (t : SettingsTier) : Json :=
  .ofMembers <|
    (t.mainStory.map fun s => ("mainStoryPath", Json.string s)).toList ++
    (t.inklecate.map fun s => ("inklecatePath", Json.string s)).toList ++
    (t.shim.map fun s => ("runThroughShim", s.toJson)).toList

end SettingsTier

end InkServer
