import InkServer.Run.Launch
import InkServer.Shell.Evaluation

/-!
This module contains the start of processes.
-/

namespace InkServer

open Text

/-- A process between two stretches of its work. -/
structure Process where
  next : Act ExitStatus
  /-- The input that it has not read yet. -/
  input : Bytes
  /-- It gave up its input. -/
  inputClosed : Bool
  /-- The time until which it sleeps. -/
  wake : Nat

namespace Process

/-- The file at a path can be executed, by itself or through interpreters. -/
def check (d : Disk) (folder : Path) : Nat → Path → Except DiskError Unit
  | 0, _ => .error .tooManyLinks
  | fuel + 1, p =>
    match d.content p with
    | .error e => .error e
    | .ok content =>
      match Image.ofContent content with
      | .program _ => .ok ()
      | .script interpreter _ => check d folder fuel (folder.join interpreter)
      | .unknown => .error .notExecutable

def ofLaunch (d : Disk) (search : List Path) (folder : Path) (l : Launch) : Except DiskError Process :=
  match d.find true folder with
  | .error e => .error e
  | .ok (loc, .folder) =>
    let folder := Path.ofComponents (.root :: loc.map .name)
    match check d folder Shell.interpreterLimit l.program with
    | .error e => .error e
    | .ok () =>
      let args := l.arguments.map rawOf
      let name := rawOf l.program.bytes
      let s := Shell.State.start name args folder search
      .ok ⟨.look fun _ => Shell.processOf l.program args s, [], false, 0⟩
  | .ok _ => .error .notDirectory

end Process

end InkServer
