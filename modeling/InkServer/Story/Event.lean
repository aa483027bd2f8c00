import InkServer.Json.Basic

/-!
This module contains the events of a story that is being played and the notices that carry them to
the editor.
-/

namespace InkServer

inductive Mode where
  | compile
  | play
deriving DecidableEq

def Mode.word : Mode → String
  | compile => "compile"
  | play => "play"

structure Choice where
  index : Nat
  text : String
deriving DecidableEq

inductive PlayEvent where
  | text (text : String)
  | tags (tags : List String)
  | choice (choice : Choice)
  | prompt
  | endOfStory
  | error (message : String)
deriving DecidableEq

/-- A message to the editor that expects no reply. -/
structure Notice where
  method : String
  params : Json

namespace PlayEvent

def method : PlayEvent → String
  | text _ => "runtime/text"
  | tags _ => "runtime/tag"
  | choice _ => "runtime/choice"
  | prompt => "runtime/prompt"
  | endOfStory => "runtime/endOfStory"
  | error _ => "runtime/error"

def params : PlayEvent → Json
  | text t => .ofMembers [("text", .string t)]
  | tags ts => .ofMembers [("tags", .ofStrings ts)]
  | choice c =>
    .ofMembers [("choice", .ofMembers [("index", .ofNat c.index), ("text", .string c.text)])]
  | prompt | endOfStory => .ofMembers []
  | error m => .ofMembers [("error", .string m)]

def notice (e : PlayEvent) : Notice :=
  ⟨e.method, e.params⟩

end PlayEvent

def Notice.compiled (workspace story : String) : Notice :=
  ⟨"didCompileStory",
    .ofMembers [("storyUri", .string story), ("workspaceUri", .string workspace)]⟩

end InkServer
