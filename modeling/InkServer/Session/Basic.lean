import InkServer.Rpc.Frame
import InkServer.Rpc.Pending
import InkServer.Session.Terms

/-!
This module contains the state of a session with an editor, and the machine that the compiler is
started on.
-/

namespace InkServer

open Text

/-- What the compiler is looked up and started on, with a state of its own. -/
structure Machine (σ : Type) where
  checkTool : Settings → Disk → σ → Bool × σ
  start : Mode → RunRequest → Disk → σ → Except StartError Nat × Disk × σ
  /-- Hand in a choice, and say whether there is a run to take it. -/
  submit : Nat → σ → Bool × σ
  /-- End the current run, and say whether there is one. -/
  stop : σ → Bool × σ
  /-- The next event of a run or its end, if there is any. -/
  next : Disk → σ → Option (Nat × Option RunEvent) × Disk × σ
  /-- Let a millisecond pass. -/
  tick : σ → σ
  /-- How many diagnostics are put into a message in a turn, unless messages are made at once. The
  server sets no such pace: this is how fast the machine is, which decides the order in which messages
  of runs that end together are sent. -/
  pace : Option Nat := none

/-- A job that waits for the answer to a query. Its end is a frame for the editor, if any. -/
structure Blocked where
  query : Query
  /-- The id of the request to the editor, if the query is one. -/
  request : Nat
  next : query.Answer → World → Step (Option Json)

def Effect.turns (pace : Option Nat) : Effect → Nat
  | publish _ diagnostics =>
    match pace with
    | some n => diagnostics.length / n
    | none => 0
  | _ => 0

/-- Messages that are made one after the other, each with the turns that are left for it. -/
abbrev Posting := List (Nat × Effect)

namespace Posting

def start (pace : Option Nat) (effects : List Effect) : Posting :=
  effects.map fun e => (e.turns pace, e)

def ready : Posting → List Effect × Posting
  | (0, e) :: rest =>
    let (effects, rest) := ready rest
    (e :: effects, rest)
  | posting => ([], posting)

def elapse : Posting → Posting
  | (n + 1, e) :: rest => (n, e) :: rest
  | posting => posting

end Posting

structure Session (σ : Type) where
  world : World
  machine : σ
  terms : Terms
  pending : Pending
  /-- The time in milliseconds. -/
  clock : Nat
  /-- The bytes that were received and not yet read. -/
  input : Bytes
  /-- The editor closed the input. -/
  closed : Bool
  /-- Nothing more can be read. -/
  deaf : Bool
  /-- The messages that were read and not yet handled. -/
  queue : List Incoming
  /-- The message that is being handled. -/
  handler : Option Blocked
  /-- The jobs that are done beside the messages. -/
  beside : List Blocked
  /-- The messages about runs that are still being made, for each run by itself. -/
  postings : List Posting
  final : Option SessionEnd

def Effect.frame? : Effect → Option Json
  | publish uri diagnostics =>
    some (noticeJson "textDocument/publishDiagnostics"
      (.ofMembers
        [("uri", .string uri), ("diagnostics", .array (diagnostics.map EditorDiagnostic.toJson))]))
  | notify notice => some (noticeJson notice.method notice.params)
  | message level text =>
    some (noticeJson "window/showMessage"
      (.ofMembers [("type", .ofNat level.code), ("message", .string text)]))
  | send frame => some frame
  | _ => none

/-- The frames that reach the editor: those before the end of the connection. -/
def sentFrames : List Effect → List Json
  | [] => []
  | .hangUp :: _ => []
  | e :: es => e.frame?.toList ++ sentFrames es

namespace Session

variable {σ : Type}

def start (world : World) (machine : σ) : Session σ :=
  ⟨world, machine, .start, .empty, 0, [], false, false, [], none, [], [], none⟩

def frames (s : Session σ) : List Json :=
  sentFrames s.world.trace

def emit (s : Session σ) (e : Effect) : Session σ :=
  { s with world := s.world.emit e }

/-- Bytes come in from the editor. After the end of the input there are none. -/
def receive (s : Session σ) (bytes : Bytes) : Session σ :=
  if s.closed ∨ s.final.isSome then s else { s with input := s.input ++ bytes }

def close (s : Session σ) : Session σ :=
  { s with closed := true }

end Session

end InkServer
