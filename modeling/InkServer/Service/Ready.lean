import InkServer.Service.Job
import InkServer.Workspace.Caller

/-!
This module contains the waiting for the copies of workspaces.
-/

namespace InkServer

namespace World

/-- Carry out a pass, settle it, and tell those who wait. -/
def copyPass (w : World) (c : Caller) (root : Path) (generation : Nat) : World × Caller :=
  let (disk, result) := w.rules.createCopy (scratchName w.draws) root w.disk
  let (c, registry) := c.settle generation result w.registry
  ({ w with disk, registry, draws := w.draws + 1, settles := w.settles + 1 }, c.tell)

def work (w : World) (c : Caller) : World × Caller :=
  match c.phase with
  | .checking ws =>
    let c := c.check ws (ws.scratch.any w.disk.isFolder)
    match c.phase with
    | .missing scratch =>
      let (c, registry) := c.giveUp scratch w.registry
      ({ w with registry }, c)
    | _ => (w, c)
  | .copying root generation => w.copyPass c root generation
  | _ => (w, c)

/-- Register a workspace for one more caller. A caller whose URI is not valid ends at once. -/
def enroll (w : World) (cs : List Caller) (uri : String) : World × List Caller :=
  match w.registry.register uri with
  | .ok (_, registry) => ({ w with registry }, cs ++ [.start uri])
  | .error _ => (w, cs ++ [⟨uri, false, .done (.error (.notRegistered uri))⟩])

def workFirst (w : World) : List Caller → World × List Caller
  | [] => (w, [])
  | c :: cs =>
    if c.isWorking then
      let (w, c) := w.work c
      (w, c :: cs)
    else
      let (w, cs) := w.workFirst cs
      (w, c :: cs)

def workAll (w : World) : List Caller → World × List Caller
  | [] => (w, [])
  | c :: cs =>
    let (w, c) := w.work c
    let (w, cs) := w.workAll cs
    (w, c :: cs)

end World

namespace Job

/-- Let callers go on until each has its result. Passes that were begun are carried out in any
case. -/
def attend : Nat → List Caller → Job (List Caller)
  | 0, cs => update fun w => w.workAll cs
  | fuel + 1, cs => do
    let cs ← update fun w =>
      let (cs, registry) := Caller.moveAll w.settles cs w.registry
      ({ w with registry }, cs)
    if cs.any Caller.isWorking then
      rest .upkeep
      let cs ← update fun w => w.workFirst cs
      attend fuel cs
    else if cs.any Caller.isParked then
      let w ← get
      query (.settled w.settles)
      attend fuel cs
    else
      pure cs

/-- How often callers are let go on. While nobody else removes scratch folders, each waits at most
once, and looks, checks and copies a few times at most, so that all come to an end before. There is no
such bound otherwise: a caller whose copy is taken away again and again would look for ever, and here
it is told in the end that it was superseded. -/
def attendFuel (n : Nat) : Nat :=
  8 * n + 8

def ensureAll (uris : List String) : Job (List (Except CopyError Workspace)) := do
  let cs ← attend (attendFuel uris.length) (uris.map Caller.start)
  pure (cs.map Caller.result)

def ensureReady (uri : String) : Job (Except CopyError Workspace) := do
  let rs ← ensureAll [uri]
  pure (rs.headD (.error (.superseded uri)))

def copyWorkspaces (uris : List String) :
    Job (List (String × Except CopyError Workspace)) := do
  let callers ← update fun w => uris.foldl (fun (w, cs) uri => w.enroll cs uri) (w, [])
  let callers ← attend (attendFuel uris.length) callers
  pure (callers.map fun c => (c.uri, c.result))

/-- Forget a workspace. Those who wait for it are told. -/
def forget (uri : String) : Job Bool :=
  update fun w =>
    if (w.registry.get? uri).isSome then
      ({ w with registry := w.registry.forget uri, settles := w.settles + 1 }, true)
    else
      (w, false)

end Job

end InkServer
