import InkServer.Process.Act
import InkServer.Shell.Arithmetic

/-!
This module contains the state of a running shell, and its reading and writing.
-/

namespace InkServer.Shell

open Text

inductive Source where
  /-- The input of the process. -/
  | inherited
  | text (rest : Raw)
  | closed
deriving DecidableEq

inductive Target where
  | channel (c : Channel)
  /-- The text that is kept for a word or for the next command. -/
  | capture
  | file (p : Path)
  | closed
deriving DecidableEq

structure State where
  /-- The name under which it reports errors. -/
  name : Raw
  arguments : List Raw
  /-- The folder that relative paths start from. -/
  folder : Path
  /-- The folders that programs are looked for in. -/
  search : List Path
  bindings : Bindings
  /-- The variables that other programs see. -/
  exported : List Raw := []
  /-- The variables of the function that is running, with the values they had before it. -/
  locals : Option (List (Raw × Option Raw)) := none
  functions : List (Raw × Command) := []
  /-- The exit code of the last command. -/
  status : Nat := 0
  input : Source := .inherited
  output : Target := .channel .output
  errors : Target := .channel .errors
  captured : Raw := []
  /-- What is done at signals, and at the end under the name `EXIT`. -/
  traps : List (Raw × Raw) := []
  /-- A command that fails ends the script. -/
  stopsOnError : Bool := false
  /-- A parameter without a value ends the script. -/
  refusesUnset : Bool := false
  /-- The success of the current command decides on others, so that it may fail. -/
  tested : Bool := false
  /-- A word could not be expanded. -/
  failed : Bool := false
  /-- The number of loops around the current command. -/
  loops : Nat := 0
  /-- The line of the current command. -/
  line : Nat := 1

namespace State

def folderVariable : Raw := "PWD".toList

def start (name : Raw) (arguments : List Raw) (folder : Path) (search : List Path) : State :=
  { name, arguments, folder, search, bindings := [(folderVariable, rawOf folder.bytes)] }

def value? (s : State) (name : Raw) : Option Raw :=
  s.bindings.lookup name

def setVariable (s : State) (name value : Raw) : State :=
  { s with bindings := s.bindings.set name value }

def unsetVariable (s : State) (name : Raw) : State :=
  { s with bindings := s.bindings.filter fun (n, _) => n ≠ name }

def restoreVariable (s : State) (name : Raw) (value : Option Raw) : State :=
  match value with
  | some v => s.setVariable name v
  | none => s.unsetVariable name

def makeLocal (s : State) (name : Raw) : State :=
  match s.locals with
  | some names =>
    if names.any fun (n, _) => n == name then s
    else { s with locals := some ((name, s.value? name) :: names) }
  | none => s

def enter (s : State) (folder : Path) : State :=
  { s with folder }.setVariable folderVariable (rawOf folder.bytes)

def separators (s : State) : Raw :=
  (s.value? "IFS".toList).getD [' ', '\t', '\n']

def place (s : State) (t : Raw) : Path :=
  s.folder.join ⟨rawBytes t⟩

def write (s : State) (target : Target) (text : Raw) : Act State :=
  match target with
  | .channel c => do
    Act.print c (rawBytes text)
    pure s
  | .capture => pure { s with captured := s.captured ++ text }
  | .file p => do
    Act.modify fun d =>
      let before :=
        match d.content p with
        | .ok bytes => bytes
        | .error _ => []
      match d.store p (before ++ rawBytes text) false with
      | .ok d => d
      | .error _ => d
    pure s
  | .closed => pure s

def print (s : State) (text : Raw) : Act State :=
  s.write s.output text

def complain (s : State) (text : Raw) : Act State :=
  s.write s.errors (text ++ ['\n'])

def report (s : State) (text : Raw) : Act State :=
  s.complain (s.name ++ rawOfString (": " ++ numeral s.line ++ ": ") ++ text)

def fail (s : State) (text : Raw) : Act State := do
  let s ← s.report text
  pure { s with failed := true, status := 2 }

def readChar (s : State) : Act (State × Option Char) :=
  match s.input with
  | .inherited => .read fun b => .done (s, b.map fun b => Char.ofNat b.toNat)
  | .text (c :: rest) => pure ({ s with input := .text rest }, some c)
  | .text [] => pure (s, none)
  | .closed => pure (s, none)

/-- Read a line without its end, and say whether there was one. -/
def readLine : Nat → State → Raw → Act (State × Raw × Bool)
  | 0, s, line => pure (s, line.reverse, true)
  | fuel + 1, s, line => do
    let (s, c) ← s.readChar
    match c with
    | none => pure (s, line.reverse, false)
    | some '\n' => pure (s, line.reverse, true)
    | some c => readLine fuel s (c :: line)

def readAll : Nat → State → Raw → Act (State × Raw)
  | 0, s, text => pure (s, text.reverse)
  | fuel + 1, s, text => do
    let (s, c) ← s.readChar
    match c with
    | none => pure (s, text.reverse)
    | some c => readAll fuel s (c :: text)

def copyInput : Nat → State → Act State
  | 0, s => pure s
  | fuel + 1, s => do
    let (s, c) ← s.readChar
    match c with
    | none => pure s
    | some c =>
      let s ← s.print [c]
      copyInput fuel s

/-- How many characters a command reads at most. -/
def readLimit : Nat := 1000000

end State

end InkServer.Shell
