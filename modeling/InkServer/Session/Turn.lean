import InkServer.Session.Basic

/-!
This module contains the work of a session. Messages are handled one after the other, other jobs go
on beside them, and the results of runs are delivered in between.
-/

namespace InkServer

/-- How long a request to the editor waits for its reply, in milliseconds. -/
def requestTimeout : Nat := 10000

def repliedFolders? (result : Option Json) : Option (List Folder) :=
  match result with
  | none => none
  | some .null => none
  | some v => Json.list? Folder.ofJson? v

/-- The settings that a reply of the editor holds, of which only the first item was asked for. -/
def repliedSettings? (result : Option Json) : Option SettingsTier :=
  match result.bind (·.item? 0) with
  | none => none
  | some .null => none
  | some v => SettingsTier.ofJson? v

namespace Session

variable {σ : Type}

/-- What becomes of a query: an answer at once, or a wait. -/
inductive Posed (σ : Type) (q : Query) where
  | answered (a : q.Answer) (s : Session σ)
  | waiting (request : Nat) (s : Session σ)

/-- Send a request to the editor. When there is no connection any more, it is `refused` at once. -/
def poseRequest (s : Session σ) (q : Query) (refused : q.Answer) (method : String) (params : Json) :
    Posed σ q :=
  let (id, pending) := s.pending.register (s.clock + requestTimeout)
  if s.final.isSome then
    .answered refused { s with pending := pending.abandon id }
  else
    .waiting id ({ s with pending }.emit (.send (requestJson id method (some params))))

def pose (m : Machine σ) (s : Session σ) : (q : Query) → Posed σ q
  | .folders =>
    if s.terms.capabilities.workspaceFolders then
      s.poseRequest .folders none "workspace/workspaceFolders" .null
    else
      .answered none s
  | .settings scope =>
    if s.terms.capabilities.configuration then
      s.poseRequest (.settings scope) none "workspace/configuration" (configurationParams scope)
    else
      .answered none s
  | .register params => s.poseRequest (.register params) () "client/registerCapability" params
  | .checkTool settings =>
    let (found, machine) := m.checkTool settings s.world.disk s.machine
    .answered found { s with machine }
  | .start mode request =>
    let (started, disk, machine) := m.start mode request s.world.disk s.machine
    .answered started { s with machine, world := { s.world with disk } }
  | .submit index =>
    let (taken, machine) := m.submit index s.machine
    .answered taken { s with machine }
  | .stop =>
    let (stopped, machine) := m.stop s.machine
    .answered stopped { s with machine }
  | .rest => .waiting 0 s
  | .settled _ => .waiting 0 s

/-- The result of a request, if it has come to its end. -/
def result? (s : Session σ) (request : Nat) : Option (Option Json × Session σ) :=
  (s.pending.complete? request s.clock).map fun (completion, pending) =>
    (completion.result?, { s with pending })

/-- The answer to a query that waits, if it can be given by now. -/
def answer? (s : Session σ) (request : Nat) : (q : Query) → Option (q.Answer × Session σ)
  | .folders => (s.result? request).map fun (result, s) => (repliedFolders? result, s)
  | .settings _ => (s.result? request).map fun (result, s) => (repliedSettings? result, s)
  | .register _ => (s.result? request).map fun (_, s) => ((), s)
  | .rest => some ((), s)
  | .settled seen => if seen < s.world.settles then some ((), s) else none
  | .checkTool _ => none
  | .start _ _ => none
  | .submit _ => none
  | .stop => none

/-- Carry a job on until it ends or waits. -/
def advance (m : Machine σ) : Step (Option Json) → Session σ → Session σ × Option Blocked
  | .done w frame, s => ({ s with world := w.emitAll (frame.toList.map .send) }, none)
  | .ask w q k, s =>
    match pose m { s with world := w } q with
    | .answered a s => advance m (k a s.world) s
    | .waiting request s => (s, some ⟨q, request, k⟩)

def resume (m : Machine σ) (b : Blocked) (s : Session σ) : Session σ × Option Blocked :=
  match s.answer? b.request b.query with
  | some (a, s) => advance m (b.next a s.world) s
  | none => (s, some b)

def canResume (s : Session σ) (b : Blocked) : Bool :=
  (s.answer? b.request b.query).isSome

def waitingToBegin (job : Job Unit) : Blocked :=
  ⟨@Query.rest .upkeep, 0, fun _ w => (job w).bind fun _ w => .done w none⟩

/-- End the session: the current run is ended, and the connection is closed. -/
def finish (m : Machine σ) (final : SessionEnd) (s : Session σ) : Session σ :=
  let (_, machine) := m.stop s.machine
  let s := { s with machine, final := some final, queue := [], handler := none }
  (s.emit .stop).emit .hangUp

def handle (m : Machine σ) (message : Incoming) (s : Session σ) : Session σ :=
  let (terms, reaction) := s.terms.react message
  let s := { s with terms }
  match reaction with
  | .answer id job =>
    let step := (job s.world).bind fun reply w => .done w (some (reply.toJson id))
    let (s, handler) := advance m step s
    { s with handler }
  | .work job beside =>
    let step := (job s.world).bind fun _ w => .done w none
    let (s, handler) := advance m step s
    { s with handler, beside := s.beside ++ beside.map waitingToBegin }
  | .finish final => s.finish m final

/-- Handle messages until one has to wait. When there are none left and nothing more can be read, the
session is at its end. -/
def handleAll (m : Machine σ) : List Incoming → Session σ → Session σ
  | [], s =>
    let s := { s with queue := [] }
    if s.deaf then s.finish m .inputClosed else s
  | message :: messages, s =>
    let s := { s with queue := messages }.handle m message
    if s.final.isSome || s.handler.isSome then s else handleAll m messages s

def work (m : Machine σ) (s : Session σ) : Session σ :=
  if s.final.isSome then
    s
  else
    match s.handler with
    | none => handleAll m s.queue s
    | some b =>
      match resume m b s with
      | (s, some b) => { s with handler := some b }
      | (s, none) => handleAll m s.queue { s with handler := none }

/-- Go on with jobs that are done beside the messages. -/
def workBeside (m : Machine σ) : List Blocked → Session σ → Session σ
  | [], s => s
  | b :: bs, s =>
    let (s, b?) := resume m b s
    workBeside m bs { s with beside := s.beside ++ b?.toList }

/-- Send the messages about runs that are ready, and keep the others. -/
def post : List Posting → Session σ → Session σ
  | [], s => s
  | p :: ps, s =>
    let (effects, rest) := p.ready
    let postings := if rest.isEmpty then s.postings else s.postings ++ [rest]
    post ps { s with world := s.world.emitAll effects, postings }

def deliver (m : Machine σ) : Nat → Session σ → Session σ
  | 0, s => s
  | fuel + 1, s =>
    let (next, disk, machine) := m.next s.world.disk s.machine
    let world := { s.world with disk }
    match next with
    | none => { s with world, machine }
    | some (generation, some e) =>
      deliver m fuel { s with world := world.receive generation e, machine }
    | some (generation, none) =>
      let (world, effects) := world.endRun generation
      deliver m fuel (post [.start m.pace effects] { s with world, machine })

/-- A message from the editor was read. A malformed one is refused at once. -/
def take (s : Session σ) (frame : Json) : Session σ :=
  match Incoming.ofJson? frame with
  | some (.reply id body) => { s with pending := s.pending.resolve id body }
  | some message => { s with queue := s.queue ++ [message] }
  | none =>
    match Incoming.id? frame with
    | some id =>
      s.emit (.send (Reply.toJson id
        (.refuse .invalidRequest "message has neither a method nor a result")))
    | none => s

def read : Nat → Session σ → Session σ
  | 0, s => s
  | fuel + 1, s =>
    match readFrame s.closed s.input with
    | .frame body rest => read fuel ({ s with input := rest }.take body)
    | .pending => s
    | .ended => { s with input := [], deaf := true }
    | .error _ => { s with input := [], deaf := true }

def isIdle (m : Machine σ) (s : Session σ) : Bool :=
  let quiet :=
    match s.handler with
    | some b => !s.canResume b
    | none => s.final.isSome || (s.queue.isEmpty && !s.deaf)
  quiet && !s.beside.any s.canResume && s.postings.isEmpty
    && (m.next s.world.disk s.machine).1.isNone

/-- How many events of runs are delivered at a time. -/
def deliveryLimit : Nat := 100000

/-- Let everyone go on once: the messages, the other jobs, the runs. -/
def turn (m : Machine σ) (s : Session σ) : Session σ :=
  let s := post (s.postings.map Posting.elapse) { s with postings := [] }
  let s := s.work m
  let s := workBeside m s.beside { s with beside := [] }
  deliver m deliveryLimit s

/-- Let everyone go on until nothing can be done any more. -/
def turns (m : Machine σ) : Nat → Session σ → Session σ
  | 0, s => s
  | fuel + 1, s => if s.isIdle m then s else turns m fuel (s.turn m)

/-- How many turns are taken at most without new input. -/
def turnLimit : Nat := 1000000

/-- Read what has come in, and go on until nothing can be done any more. -/
def settle (m : Machine σ) (s : Session σ) : Session σ :=
  let s := if s.deaf ∨ s.final.isSome then s else read (s.input.length + 1) s
  turns m turnLimit s

def tick (m : Machine σ) (s : Session σ) : Session σ :=
  let s := { s with clock := s.clock + 1, machine := m.tick s.machine }
  turns m turnLimit (deliver m deliveryLimit s)

def pass (m : Machine σ) : Nat → Session σ → Session σ
  | 0, s => s
  | n + 1, s => pass m n (s.tick m)

end Session

end InkServer
