import InkServer.Settings.Decode
import InkServer.Workspace.Folder

/-!
This module contains the parameters of the messages that the server understands, and the values that
it sends back.
-/

namespace InkServer

open Json (Field fields? readDefault? readOption?)

structure Capabilities where
  configuration : Bool
  workspaceFolders : Bool
  watchFiles : Bool
deriving DecidableEq

namespace Capabilities

/-- The editor can do nothing beyond the basics. -/
def none : Capabilities := ⟨false, false, false⟩

def dynamicOfJson? (v : Json) : Option Bool :=
  match fields? [.defaulted ["dynamicRegistration"]] v with
  | some [dynamic] => readDefault? false Json.bool? dynamic
  | _ => Option.none

def workspaceOfJson? (v : Json) : Option Capabilities :=
  match fields?
    [.defaulted ["configuration"], .defaulted ["workspaceFolders"],
     .defaulted ["didChangeWatchedFiles"]] v with
  | some [configuration, folders, watched] => do
    let configuration ← readDefault? false Json.bool? configuration
    let folders ← readDefault? false Json.bool? folders
    let watched ← readDefault? false dynamicOfJson? watched
    some ⟨configuration, folders, watched⟩
  | _ => Option.none

def ofJson? (v : Json) : Option Capabilities :=
  match fields? [.defaulted ["workspace"]] v with
  | some [workspace] => readDefault? none workspaceOfJson? workspace
  | _ => Option.none

end Capabilities

/-- The parameters of the first request of a session. -/
structure InitializeParams where
  rootUri : Option String
  workspaceFolders : Option (List Folder)
  options : Option Json
  capabilities : Capabilities

def settingsSection : String := "ink"

namespace InitializeParams

def ofJson? (v : Json) : Option InitializeParams :=
  match fields?
    [.defaulted ["rootUri"], .defaulted ["workspaceFolders"], .defaulted ["initializationOptions"],
     .defaulted ["capabilities"]] v with
  | some [root, folders, options, capabilities] => do
    let root ← readOption? Json.string? root
    let folders ← readOption? (Json.list? Folder.ofJson?) folders
    let options ← readOption? some options
    let capabilities ← readDefault? Capabilities.none Capabilities.ofJson? capabilities
    some ⟨root, folders, options, capabilities⟩
  | _ => none

def folders (p : InitializeParams) : List Folder :=
  match p.workspaceFolders with
  | some (f :: fs) => f :: fs
  | _ => p.rootUri.toList.map fun uri => ⟨uri, ""⟩

def settings (p : InitializeParams) : Option SettingsTier :=
  match p.options with
  | some options => SettingsTier.ofJson? ((options.get? settingsSection).getD options)
  | none => none

end InitializeParams

def documentUri? (v : Json) : Option String :=
  match fields? [.required "uri"] v with
  | some [some uri] => uri.string?
  | _ => none

def openedDocument? (v : Json) : Option (String × String) :=
  match fields? [.required "uri", .required "text"] v with
  | some [some uri, some text] => do
    let uri ← uri.string?
    let text ← text.string?
    some (uri, text)
  | _ => none

def didOpen? (v : Json) : Option (String × String) :=
  match fields? [.required "textDocument"] v with
  | some [some document] => openedDocument? document
  | _ => none

def changeText? (v : Json) : Option String :=
  match fields? [.required "text"] v with
  | some [some text] => text.string?
  | _ => none

/-- The parameters of a notice that a document was changed: its URI, and the text after the last of
the changes. -/
def didChange? (v : Json) : Option (String × Option String) :=
  match fields? [.required "textDocument", .required "contentChanges"] v with
  | some [some document, some changes] => do
    let uri ← documentUri? document
    let texts ← Json.list? changeText? changes
    some (uri, texts.getLast?)
  | _ => none

def didClose? (v : Json) : Option String :=
  match fields? [.required "textDocument"] v with
  | some [some document] => documentUri? document
  | _ => none

/-- One event of a watched file. An unknown kind of change is no fault. -/
def fileEvent? (v : Json) : Option (Option FileChange) :=
  match fields? [.required "uri", .required "type"] v with
  | some [some uri, some code] => do
    let uri ← uri.string?
    let code ← code.natural?
    if code < 256 then some ((ChangeKind.ofCode? code).map fun kind => ⟨uri, kind⟩) else none
  | _ => none

def watchedFiles? (v : Json) : Option (List (Option FileChange)) :=
  match fields? [.required "changes"] v with
  | some [some changes] => Json.list? fileEvent? changes
  | _ => none

structure FoldersChange where
  added : List Folder
  removed : List Folder

def foldersEvent? (v : Json) : Option FoldersChange :=
  match fields? [.defaulted ["added"], .defaulted ["removed"]] v with
  | some [added, removed] => do
    let added ← readDefault? [] (Json.list? Folder.ofJson?) added
    let removed ← readDefault? [] (Json.list? Folder.ofJson?) removed
    some ⟨added, removed⟩
  | _ => none

def foldersChange? (v : Json) : Option FoldersChange :=
  match fields? [.required "event"] v with
  | some [some event] => foldersEvent? event
  | _ => none

/-- The parameters of a request to carry out a command: its name and arguments. -/
def executeCommand? (v : Json) : Option (String × List Json) :=
  match fields? [.required "command", .defaulted ["arguments"]] v with
  | some [some command, arguments] => do
    let command ← command.string?
    let arguments ← readDefault? [] (Json.list? some) arguments
    some (command, arguments)
  | _ => none

/-- The answer to the first request of a session. -/
def initializeResult (commands : List String) : Json :=
  .ofMembers
    [("capabilities", .ofMembers
       [("textDocumentSync", .ofMembers [("openClose", .bool true), ("change", .ofNat 1)]),
        ("executeCommandProvider", .ofMembers [("commands", .ofStrings commands)]),
        ("workspace", .ofMembers
          [("workspaceFolders", .ofMembers
             [("supported", .bool true), ("changeNotifications", .bool true)])])]),
     ("serverInfo", .ofMembers [("name", .string "ink-ls"), ("version", .string "0.1.0")])]

def configurationParams (scope : String) : Json :=
  .ofMembers
    [("items", .array
       [.ofMembers [("scopeUri", .string scope), ("section", .string settingsSection)]])]

def watchedGlob (extensions : List String) : String :=
  match extensions with
  | [extension] => "**/*." ++ extension
  | _ => "**/*.\x7b" ++ String.intercalate "," extensions ++ "\x7d"

/-- The registration that asks the editor to watch the story sources. -/
def watchRegistration (extensions : List String) : Json :=
  .ofMembers
    [("registrations", .array
       [.ofMembers
         [("id", .string "ink-ls-watched-files"),
          ("method", .string "workspace/didChangeWatchedFiles"),
          ("registerOptions", .ofMembers
            [("watchers", .array
               [.ofMembers [("globPattern", .string (watchedGlob extensions))]])])]])]

end InkServer
