import InkServer.Json.Basic
import InkServer.Path.Basic
import InkServer.Text.Numeral
import InkServer.Text.Quoted

/-!
This module contains the diagnostics of the story compiler: their kinds, how severe each kind is,
and the form in which an editor receives them.
-/

namespace InkServer

open Text

inductive Severity where
  | error
  | warning
  | information
  | hint
deriving DecidableEq

namespace Severity

def code : Severity → Nat
  | error => 1
  | warning => 2
  | information => 3
  | hint => 4

def label : Severity → String
  | error => "error"
  | warning => "warning"
  | information => "info"
  | hint => "hint"

end Severity

inductive Kind where
  | error
  | warning
  | runtimeError
  | runtimeWarning
  | todo
deriving DecidableEq

namespace Kind

def all : List Kind :=
  [error, warning, runtimeError, runtimeWarning, todo]

def marker : Kind → String
  | error => "ERROR"
  | warning => "WARNING"
  | runtimeError => "RUNTIME ERROR"
  | runtimeWarning => "RUNTIME WARNING"
  | todo => "TODO"

def severity : Kind → Severity
  | error | runtimeError => .error
  | warning | runtimeWarning => .warning
  | todo => .information

def isRuntime : Kind → Bool
  | runtimeError | runtimeWarning => true
  | _ => false

def ofMarker? (text : List Char) : Option Kind :=
  all.find? fun k => k.marker.toList = text

/-- The message about words that mark no kind. -/
def unknownMessage (text : String) : String :=
  "unrecognized diagnostic kind: " ++ quoted text

end Kind

structure Diagnostic where
  kind : Kind
  path : Path
  /-- The number of the line, counted from 1. -/
  line : Nat
  message : String
deriving DecidableEq

namespace Diagnostic

def shownMessage (d : Diagnostic) : String :=
  if d.kind = .todo then "Todo: " ++ d.message else d.message

def display (d : Diagnostic) : String :=
  d.path.text ++ ":" ++ numeral d.line ++ ": " ++ d.kind.severity.label ++ ": " ++ d.shownMessage

end Diagnostic

/-- A diagnostic as an editor shows it, over the whole of a line. -/
structure EditorDiagnostic where
  /-- The number of the line, counted from 0. -/
  line : Nat
  severity : Severity
  message : String
deriving DecidableEq

namespace EditorDiagnostic

/-- The form that a diagnostic of the compiler takes in the editor. -/
def ofDiagnostic (d : Diagnostic) : EditorDiagnostic :=
  ⟨d.line - 1, d.kind.severity, d.shownMessage⟩

def source : String := "inklecate"

/-- A column beyond the end of every line. -/
def lastColumn : Nat := bound32 - 1

def positionJson (line character : Nat) : Json :=
  .ofMembers [("character", .ofNat character), ("line", .ofNat line)]

def toJson (d : EditorDiagnostic) : Json :=
  .ofMembers
    [("message", .string d.message),
     ("range", .ofMembers
        [("start", positionJson d.line 0), ("end", positionJson d.line lastColumn)]),
     ("severity", .ofNat d.severity.code),
     ("source", .string source)]

end EditorDiagnostic

end InkServer
