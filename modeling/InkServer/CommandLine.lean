import InkServer.Process.Supervision
import InkServer.Session.Turn
import InkServer.Settings.File

/-!
This module contains the server as a program: its log and its configuration, and one session on its
input and output.
-/

namespace InkServer.CommandLine

open Text

def home? (env : Environment) : Option Path :=
  match env.lookup "HOME" with
  | some home => if home = "" then none else some (.ofString home)
  | none => none

def temporaryFolder (env : Environment) : Path :=
  match env.lookup "TMPDIR" with
  | some folder => .ofString folder
  | none => .ofString "/tmp"

def logIn (folder : Path) : Path :=
  (folder.join (.ofString "logs")).join (.ofString "ink-ls.log")

/-- Where the log may be kept: beside the configuration, or else in the current folder. -/
def logCandidates (env : Environment) : List Path :=
  ((home? env).map fun home => logIn (home.join (.ofString ".ink-ls"))).toList ++
  [logIn (.ofString ".ink-ls")]

def openLog (d : Disk) (p : Path) : Except DiskError Disk :=
  match d.content p with
  | .ok content => d.store p content false
  | .error .notFound => d.store p [] false
  | .error e => .error e

def openFirstLog (d : Disk) : List Path → Option Path × Disk
  | [] => (none, d)
  | p :: ps =>
    match d.makeFolders (p.parent?.getD .empty) with
    | .error _ => openFirstLog d ps
    | .ok d =>
      match openLog d p with
      | .ok d => (some p, d)
      | .error _ => openFirstLog d ps

/-- The configuration. One that cannot be read counts as empty. -/
def configuration (env : Environment) (d : Disk) : Configuration :=
  match home? env with
  | none => .empty
  | some home =>
    match Configuration.load d (Configuration.pathIn home) with
    | .ok (some c) => c
    | _ => .empty

def start (env : Environment) (d : Disk) : Session Processes :=
  let (_, d) := openFirstLog d (logCandidates env)
  let c := configuration env d
  let world := World.start d (c.rules env (temporaryFolder env)) (c.settings env)
  .start world (.start env.searchPath)

def receive (s : Session Processes) (bytes : Bytes) : Session Processes :=
  (s.receive bytes).settle Processes.machine

/-- Let time go by until the session is at its end. -/
def awaitEnd : Nat → Session Processes → Session Processes
  | 0, s => s
  | fuel + 1, s => if s.final.isSome then s else awaitEnd fuel (s.tick Processes.machine)

/-- How long the end of a session is waited for, in milliseconds. -/
def endLimit : Nat := 100000000

def close (s : Session Processes) : Session Processes :=
  awaitEnd endLimit (s.close.settle Processes.machine)

def code (s : Session Processes) : Nat :=
  match s.final with
  | some final => final.code
  | none => 1

end InkServer.CommandLine
