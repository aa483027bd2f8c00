import InkServer.Disk.Operations

/-!
This module contains what processes do: they write, read their input, sleep, and look at and change
the disk, until they are done.
-/

namespace InkServer

open Text

inductive Channel where
  | output
  | errors
deriving DecidableEq

inductive ExitStatus where
  | code (n : Nat)
  | signal
deriving DecidableEq

/-- What a process does, with a result at its end. -/
inductive Act (α : Type) where
  | done (a : α)
  | write (channel : Channel) (bytes : Bytes) (next : Unit → Act α)
  /-- Read a byte of the input, or find its end. -/
  | read (next : Option UInt8 → Act α)
  /-- Give up the input. -/
  | closeInput (next : Unit → Act α)
  | sleep (milliseconds : Nat) (next : Unit → Act α)
  | look (next : Disk → Act α)
  | change (f : Disk → Disk) (next : Unit → Act α)

namespace Act

variable {α β : Type}

protected def bind (f : α → Act β) : Act α → Act β
  | done a => f a
  | write channel bytes next => write channel bytes fun u => (next u).bind f
  | read next => read fun b => (next b).bind f
  | closeInput next => closeInput fun u => (next u).bind f
  | sleep ms next => sleep ms fun u => (next u).bind f
  | look next => look fun d => (next d).bind f
  | change g next => change g fun u => (next u).bind f

instance : Monad Act where
  pure := done
  bind t f := t.bind f

def print (channel : Channel) (bytes : Bytes) : Act Unit :=
  write channel bytes done

def disk : Act Disk :=
  look done

def modify (f : Disk → Disk) : Act Unit :=
  change f done

end Act

/-- The surroundings of a process while it runs, and what it wrote. -/
structure Stretch where
  input : Bytes
  /-- More input may come. -/
  fed : Bool
  /-- The process gave up its input. -/
  inputClosed : Bool
  /-- What was written, the last piece first. -/
  output : List Bytes
  errors : List Bytes
  disk : Disk

inductive Pause where
  | ended (status : ExitStatus)
  | reading (next : Option UInt8 → Act ExitStatus)
  | sleeping (milliseconds : Nat) (next : Unit → Act ExitStatus)

/-- Let a process run until it ends, sleeps or has to wait for input. -/
def Act.run : Act ExitStatus → Stretch → Pause × Stretch
  | done status, s => (.ended status, s)
  | write .output bytes next, s => (next ()).run { s with output := bytes :: s.output }
  | write .errors bytes next, s => (next ()).run { s with errors := bytes :: s.errors }
  | read next, s =>
    if s.inputClosed then
      (next none).run s
    else
      match s.input with
      | b :: rest => (next (some b)).run { s with input := rest }
      | [] => if s.fed then (.reading next, s) else (next none).run s
  | closeInput next, s => (next ()).run { s with inputClosed := true, input := [] }
  | sleep ms next, s => (.sleeping ms next, s)
  | look next, s => (next s.disk).run s
  | change f next, s => (next ()).run { s with disk := f s.disk }

end InkServer
