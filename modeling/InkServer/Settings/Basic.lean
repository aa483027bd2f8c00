import InkServer.Text.Blank

/-!
This module contains the settings of a compiler run. They come in tiers, each of which may leave
fields open; a field takes its value from the first tier that says something about it.
-/

namespace InkServer

open Text

/-- Whether the compiler is started through another program. -/
inductive Shim where
  | disabled
  /-- Through the usual program. -/
  | enabled
  | through (command : String)
deriving DecidableEq

namespace Shim

/-- The usual program to start the compiler through. -/
def usual : String := "mono"

/-- A blank command says nothing. -/
def isInformative : Shim → Bool
  | through command => !isBlankText command
  | _ => true

def command? : Shim → Option String
  | disabled => none
  | enabled => some usual
  | through command => some command

end Shim

structure SettingsTier where
  mainStory : Option String
  inklecate : Option String
  shim : Option Shim
deriving DecidableEq

structure Settings where
  /-- The main story, relative to the root of the workspace. -/
  mainStory : String
  /-- The compiler. -/
  inklecate : String
  /-- The command that the compiler is started through, if any. -/
  shim : Option String
deriving DecidableEq

def informative? (text : Option String) : Option String :=
  text.filter fun t => !isBlankText t

namespace SettingsTier

def empty : SettingsTier := ⟨none, none, none⟩

def informativeShim? (t : SettingsTier) : Option Shim :=
  t.shim.filter Shim.isInformative

/-- The fields of `upper` that say something, and those of `lower` for the others. -/
def or (upper lower : SettingsTier) : SettingsTier :=
  ⟨(informative? upper.mainStory).or lower.mainStory,
   (informative? upper.inklecate).or lower.inklecate,
   upper.informativeShim?.or lower.shim⟩

/-- Fill the open fields. -/
def resolve (t : SettingsTier) (defaults : Settings) : Settings :=
  ⟨(informative? t.mainStory).getD defaults.mainStory,
   (informative? t.inklecate).getD defaults.inklecate,
   match t.informativeShim? with
   | some shim => shim.command?
   | none => defaults.shim⟩

end SettingsTier

namespace Settings

/-- The settings that hold when no tier says anything. -/
def platform : Settings := ⟨"main.ink", "inklecate", none⟩

/-- The settings for a resource: its own tier, then the tier given at the start of the session, then
the defaults. -/
def merge (resource initial : Option SettingsTier) (defaults : Settings) : Settings :=
  ((resource.getD .empty).or (initial.getD .empty)).resolve defaults

end Settings

end InkServer
