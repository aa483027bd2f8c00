/-!
This module contains the waiting for the end of a process. Whoever waits listens for the process and,
over a line that the slot holds, for the wish that it be killed.
-/

namespace InkServer

/-- The line over which it can be asked that a process be killed. -/
inductive KillLine where
  /-- It can be used. -/
  | free
  /-- It was asked that the process be killed. -/
  | used
  /-- Nobody can use it any more. -/
  | cut
deriving DecidableEq

def KillLine.drop : KillLine → KillLine
  | free => cut
  | line => line

/-- How far the waiting for the end of a process has come. -/
inductive Vigil where
  /-- It listens for the process and for the line. -/
  | watching
  /-- It heard from the line, killed the process if that was asked for, and waits for its end. -/
  | awaiting (killed : Bool)
  /-- The process came to its end. -/
  | ended (code : Option Int) (killed : Bool)
  /-- The slot was told. -/
  | released (code : Option Int) (killed : Bool)
  /-- The end was reported. -/
  | reported (code : Option Int) (killed : Bool)
deriving DecidableEq

namespace Vigil

/-- Listen to the line. A line that was cut means that the run was displaced, and not that it is to
be killed. -/
def hear (line : KillLine) : Vigil → Vigil
  | watching =>
    match line with
    | .free => watching
    | .used => awaiting true
    | .cut => awaiting false
  | v => v

def finish (code : Option Int) : Vigil → Vigil
  | watching => ended code false
  | awaiting killed => ended code killed
  | v => v

def release : Vigil → Vigil
  | ended code killed => released code killed
  | v => v

def report : Vigil → Vigil
  | released code killed => reported code killed
  | v => v

end Vigil

end InkServer
