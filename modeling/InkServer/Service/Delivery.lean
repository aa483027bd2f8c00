import InkServer.Service.Publication

/-!
This module contains the delivery of the results of a run: play events and the first error at once,
diagnostics and the announcement of a compiled story when everything has come in.
-/

namespace InkServer

/-- What the user is told when the compiler reports an error. -/
def toolErrorMessage : String :=
  "inklecate reported an error. See the ink-ls log for details."

namespace Delivery

/-- A run of which nothing has come in yet. -/
def start (workspace : Workspace) (mode : Mode) : Delivery :=
  ⟨workspace, mode, false, none, none⟩

def receive (d : Delivery) : RunEvent → List Effect × Delivery
  | .play e => ([.notify e.notice], d)
  | .toolError _ =>
    if d.reported then ([], d) else ([.message .error toolErrorMessage], { d with reported := true })
  | .finished diagnostics artifact => ([], { d with finished := some (diagnostics, artifact) })
  | .exited code killed => ([], { d with exit := some (code, killed) })

def succeeded (d : Delivery) : Bool :=
  d.exit = some (some 0, false)

/-- The announcement of the compiled story, when the run compiled one without a fault. -/
def announcement? (d : Delivery) : Option Notice :=
  match d.mode, d.finished with
  | .compile, some ([], some artifact) =>
    if d.succeeded then (Uri.ofPath? artifact).map (Notice.compiled d.workspace.uri) else none
  | _, _ => none

end Delivery

namespace World

def receive (w : World) (generation : Nat) (e : RunEvent) : World :=
  match w.deliveries.lookup generation with
  | none => w
  | some d =>
    let (effects, d) := d.receive e
    { w with deliveries := setKey generation d w.deliveries }.emitAll effects

/-- Everything of a run has come in: the state in which this is recorded, and what the editor is to be
told. -/
def conclude (w : World) (d : Delivery) : World × List Effect :=
  match d.finished with
  | none => (w, [])
  | some (diagnostics, _) =>
    let (w, lists) := w.renew d.workspace diagnostics
    (w, lists.messages ++ d.announcement?.toList.map .notify)

/-- No more events of a run will come in. What the editor is to be told may be sent later. -/
def endRun (w : World) (generation : Nat) : World × List Effect :=
  match w.deliveries.lookup generation with
  | none => (w, [])
  | some d => { w with deliveries := eraseKey generation w.deliveries }.conclude d

/-- No more events of a run will come in, and the editor is told at once. -/
def closeRun (w : World) (generation : Nat) : World :=
  let (w, effects) := w.endRun generation
  w.emitAll effects

end World

end InkServer
