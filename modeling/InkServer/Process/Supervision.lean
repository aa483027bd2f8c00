import InkServer.Process.Basic
import InkServer.Run.Output
import InkServer.Run.Slot
import InkServer.Run.Vigil
import InkServer.Session.Basic

/-!
This module contains the supervision of processes: runs are started, fed with choices, read and
stopped, while time goes by.
-/

namespace InkServer

open Text

structure Run where
  generation : Nat
  mode : Mode
  /-- The process, until it came to its end. -/
  process : Option Process
  output : RunOutput
  /-- The lines that were queued for its input. -/
  queued : List Bytes
  /-- A line could not be written any more. -/
  broken : Bool
  vigil : Vigil
  line : KillLine
  /-- The events that were not received yet. -/
  events : List RunEvent

structure Processes where
  /-- The folders that programs are looked for in. -/
  search : List Path
  tools : ToolMemory
  slot : Slot
  runs : List Run
  /-- The time in milliseconds. -/
  clock : Nat

def readSize : Nat := 8 * 1024

/-- Bytes in pieces of the size that is read at a time. -/
def chunks : Nat → Bytes → List Bytes
  | 0, _ => []
  | _ + 1, [] => []
  | fuel + 1, bytes => bytes.take readSize :: chunks fuel (bytes.drop readSize)

/-- How many lines may be queued for the input of a run. -/
def queueLimit : Nat := 16

namespace Run

/-- Write the queued lines to the input of the process. -/
def feed (r : Run) (p : Process) : Run × Process :=
  match r.queued with
  | [] => (r, p)
  | lines =>
    if p.inputClosed then
      ({ r with queued := [], broken := true }, p)
    else
      ({ r with queued := [] }, { p with input := p.input ++ lines.flatten })

/-- Listen to the line over which the end of the process can be asked for. -/
def hear (r : Run) : Run :=
  { r with vigil := r.vigil.hear r.line }

/-- Nobody can ask for the end of the process any more. -/
def drop (r : Run) : Run :=
  { r with line := r.line.drop }

def finish (status : ExitStatus) (r : Run) : Run :=
  let code : Option Int :=
    match status with
    | .code n => some n
    | .signal => none
  { r with
    process := none
    vigil := r.vigil.finish code
    events := r.events ++ r.output.close .closed }

def release (r : Run) : Run :=
  { r.drop with vigil := r.vigil.release }

def report (r : Run) : Run :=
  match r.vigil with
  | .released code killed =>
    { r with vigil := r.vigil.report, events := r.events ++ [.exited code killed] }
  | _ => r

def takeOutput (r : Run) (output errors : Bytes) : Run :=
  let (events, out) := r.output.pushAll (chunks (output.length + 1) output)
  let faults := (chunks (errors.length + 1) errors).filterMap errorOutput?
  { r with output := out, events := r.events ++ events ++ faults }

/-- The run has come to its end and everything about it was received. -/
def isOver (r : Run) : Bool :=
  r.process.isNone && r.events.isEmpty

end Run

namespace Processes

def start (search : List Path) : Processes :=
  ⟨search, .empty, .empty, [], 0⟩

def run? (s : Processes) (generation : Nat) : Option Run :=
  s.runs.find? fun r => r.generation == generation

def updateRun (s : Processes) (generation : Nat) (f : Run → Run) : Processes :=
  { s with runs := s.runs.map fun r => if r.generation = generation then f r else r }

/-- The current run can be addressed no more. -/
def displace (s : Processes) : Processes :=
  match s.slot.current? with
  | some generation => s.updateRun generation Run.drop
  | none => s

/-- Start a run. It displaces the current one. -/
def launch (s : Processes) (mode : Mode) (request : RunRequest) (d : Disk) :
    Except StartError Nat × Processes :=
  match Launch.ofRequest d s.search mode request with
  | .error e => (.error e, s)
  | .ok l =>
    let folder := request.scratchMain.parent?.getD .empty
    match Process.ofLaunch d s.search folder l with
    | .error e => (.error (l.failure e), s)
    | .ok process =>
      let (generation, slot) := s.slot.start (mode = .play)
      let run : Run :=
        ⟨generation, mode, some process, .start mode request, [], false, .watching, .free, []⟩
      (.ok generation, { s.displace with slot, runs := s.displace.runs ++ [run] })

def submit (s : Processes) (index : Nat) : Bool × Processes :=
  match s.slot.addressee? with
  | none => (false, s)
  | some generation =>
    match s.run? generation with
    | none => (false, s)
    | some r =>
      if r.broken ∨ queueLimit ≤ r.queued.length then
        (false, s)
      else
        let line := bytesOf (numeral index) ++ [10]
        (true, s.updateRun generation fun r => { r with queued := r.queued ++ [line] })

/-- Take the current run out of the slot, and ask that its process be killed. -/
def stop (s : Processes) : Bool × Processes :=
  match s.slot.stop with
  | (none, slot) => (false, { s with slot })
  | (some generation, slot) =>
    (true, { s with slot }.updateRun generation fun r => { r with line := .used })

/-- The slot is told that a process came to its end. -/
def release (s : Processes) (generation : Nat) : Processes :=
  { s with slot := s.slot.release generation }.updateRun generation Run.release

/-- A process came to its end: the slot is told first, then the end is reported. -/
def conclude (s : Processes) (generation : Nat) (status : ExitStatus) : Processes :=
  ((s.updateRun generation (Run.finish status)).release generation).updateRun generation Run.report

def advanceProcess (s : Processes) (d : Disk) (r : Run) (p : Process) : Processes × Disk :=
  let (r, p) := r.feed p
  if s.clock < p.wake then
    (s.updateRun r.generation fun _ => { r with process := some p }, d)
  else
    let fed := s.slot.holds r.generation ∧ r.mode = .play
    let (pause, stretch) := p.next.run ⟨p.input, fed, p.inputClosed, [], [], d⟩
    let r := r.takeOutput stretch.output.reverse.flatten stretch.errors.reverse.flatten
    match pause with
    | .ended status =>
      ((s.updateRun r.generation fun _ => r).conclude r.generation status, stretch.disk)
    | .reading next =>
      let process := ⟨.read next, stretch.input, stretch.inputClosed, 0⟩
      (s.updateRun r.generation fun _ => { r with process := some process }, stretch.disk)
    | .sleeping ms next =>
      let process := ⟨.look fun _ => next (), stretch.input, stretch.inputClosed, s.clock + ms⟩
      (s.updateRun r.generation fun _ => { r with process := some process }, stretch.disk)

def advanceRun (s : Processes) (d : Disk) (generation : Nat) : Processes × Disk :=
  let s := s.updateRun generation Run.hear
  match s.run? generation with
  | none => (s, d)
  | some r =>
    match r.process with
    | none => (s, d)
    | some p =>
      if r.vigil = .awaiting true then (s.conclude generation .signal, d)
      else s.advanceProcess d r p

def advanceAll : List Nat → Processes → Disk → Processes × Disk
  | [], s, d => (s, d)
  | generation :: generations, s, d =>
    let (s, d) := s.advanceRun d generation
    advanceAll generations s d

/-- Let all runs go on as far as they can. -/
def advance (s : Processes) (d : Disk) : Processes × Disk :=
  advanceAll (s.runs.map Run.generation) s d

def tick (s : Processes) : Processes :=
  { s with clock := s.clock + 1 }

/-- Some process will go on by itself after a while. -/
def isSleeping (s : Processes) : Bool :=
  s.runs.any fun r =>
    match r.process with
    | some p => s.clock < p.wake
    | none => false

/-- The next event of a run, when there is one, and else the end of its events. -/
def take? (s : Processes) (generation : Nat) : Option (Option RunEvent × Processes) :=
  match s.run? generation with
  | none => none
  | some r =>
    match r.events with
    | e :: rest => some (some e, s.updateRun generation fun r => { r with events := rest })
    | [] =>
      if r.isOver then
        some (none, { s with runs := s.runs.filter fun r => r.generation ≠ generation })
      else
        none

/-- Wait for the next event of a run, while time goes by. The fuel is the time to wait at most. -/
def await (generation : Nat) : Nat → Processes → Disk → Option (Option RunEvent) × Processes × Disk
  | 0, s, d => (none, s, d)
  | fuel + 1, s, d =>
    match s.take? generation with
    | some (e, s) => (some e, s, d)
    | none =>
      let (s, d) := s.advance d
      match s.take? generation with
      | some (e, s) => (some e, s, d)
      | none => if s.isSleeping then await generation fuel s.tick d else (none, s, d)

/-- How long the next event of a run is waited for, in milliseconds. -/
def patience : Nat := 1000000

/-- Read the events of a run up to the first one that is wanted, or else up to the end. -/
def readRun (wanted : RunEvent → Bool) (generation : Nat) :
    Nat → Processes → Disk → List RunEvent × Processes × Disk
  | 0, s, d => ([], s, d)
  | fuel + 1, s, d =>
    match await generation patience s d with
    | (some (some e), s, d) =>
      if wanted e then
        ([e], s, d)
      else
        let (es, s, d) := readRun wanted generation fuel s d
        (e :: es, s, d)
    | (_, s, d) => ([], s, d)

def next (s : Processes) (d : Disk) : Option (Nat × Option RunEvent) × Disk × Processes :=
  let (s, d) := s.advance d
  let found := s.runs.findSome? fun r => (s.take? r.generation).map fun (e, s) => (r.generation, e, s)
  match found with
  | some (generation, e, s) => (some (generation, e), d, s)
  | none => (none, d, s)

def machine : Machine Processes where
  checkTool settings d s :=
    let (found, tools) := s.tools.check d s.search settings
    (found, { s with tools })
  start mode request d s :=
    let (started, s) := s.launch mode request d
    (started, d, s)
  submit index s := s.submit index
  stop s := s.stop
  next d s := s.next d
  tick := tick
  -- Only that long lists take longer than short ones matters, not the number.
  pace := some 100

end Processes

end InkServer
