import InkServer.Text.Raw

/-!
This module contains shell scripts: words with their quoting and expansions, redirections, and
commands.
-/

namespace InkServer.Shell

open Text

/-- What is taken from a parameter. With `orEmpty` an empty value counts as none. -/
inductive ParameterForm where
  | value
  | length
  /-- The value, or else a text. -/
  | orElse (orEmpty : Bool) (source : Raw)
  /-- A text in place of a value, and else nothing. -/
  | ifGiven (orEmpty : Bool) (source : Raw)
  /-- The value, or else a text that becomes the value. -/
  | orAssign (orEmpty : Bool) (source : Raw)
  /-- The value, or else an end of the script with a message. -/
  | orFail (orEmpty : Bool) (source : Raw)
  /-- The value without what has a pattern at one of its ends. -/
  | without (atEnd longest : Bool) (source : Raw)
  /-- What stands between the braces means nothing. -/
  | unknown
deriving DecidableEq

/-- A piece of a word. What is quoted is not split into fields. -/
inductive Part where
  | text (s : Raw) (quoted : Bool)
  | parameter (name : Raw) (form : ParameterForm) (quoted : Bool)
  | arithmetic (source : Raw) (quoted : Bool)
  /-- What a command prints. -/
  | output (source : Raw) (quoted : Bool)
deriving DecidableEq

def Part.isQuoted : Part → Bool
  | text _ quoted => quoted
  | parameter _ _ quoted => quoted
  | arithmetic _ quoted => quoted
  | output _ quoted => quoted

def Part.isText : Part → Bool
  | text _ _ => true
  | _ => false

abbrev Word := List Part

/-- A change of where a command reads from or writes to. -/
inductive Redirection where
  | toFile (channel : Nat) (appending : Bool) (target : Word)
  | fromFile (source : Word)
  | fromText (body : Word)
  /-- Use one channel for another, or close it. -/
  | duplicate (channel : Nat) (source : Word)
deriving DecidableEq

inductive Command where
  | skip
  | simple (line : Nat) (assignments : List (Raw × Word)) (words : List Word)
      (redirections : List Redirection)
  | sequence (first second : Command)
  | both (first second : Command)
  | either (first second : Command)
  | negated (c : Command)
  | pipe (left right : Command)
  | conditional (test yes no : Command)
  /-- Repeat the body while the test succeeds or, with `stopping`, until it does. -/
  | loop (stopping : Bool) (test body : Command)
  | each (name : Raw) (words : Option (List Word)) (body : Command)
  /-- The body if the word has one of the patterns, and else the rest. -/
  | choice (word : Word) (patterns : List Word) (body rest : Command)
  | group (body : Command) (redirections : List Redirection)
  | subshell (body : Command) (redirections : List Redirection)
  | function (name : Raw) (body : Command)

end InkServer.Shell
