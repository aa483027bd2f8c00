import InkServer.CommandLine
import InkServer.Process.Installation

/-!
This module contains the program. It serves an editor on the standard input and output, on a machine
whose disk is kept in memory.
-/

namespace InkServer

open Text

def ownVariables : List String := ["HOME", "PATH", "TMPDIR"]

/-- The environment of the program. On a system that does not list the variables only those are known
that the program asks for by itself, and the value of any other `${NAME}` is empty. -/
def readEnvironment : IO Environment := do
  try
    let block ← IO.FS.readBinFile "/proc/self/environ"
    pure (.ofBlock block.toList)
  catch _ =>
    let pairs ← ownVariables.mapM fun name => do
      let value ← IO.getEnv name
      pure (value.map fun v => (name, v))
    pure (pairs.filterMap fun p => p)

def sendFrames (output : IO.FS.Stream) (sent : Nat) (s : Session Processes) : IO Nat := do
  let frames := s.frames
  output.write ⟨((frames.drop sent).flatMap writeFrame).toArray⟩
  output.flush
  pure frames.length

partial def serve (input output : IO.FS.Stream) (sent : Nat) (s : Session Processes) : IO Nat := do
  let bytes ← input.read 65536
  let s := if bytes.isEmpty then CommandLine.close s else CommandLine.receive s bytes.toList
  let sent ← sendFrames output sent s
  if s.final.isSome ∨ bytes.isEmpty then pure (CommandLine.code s) else serve input output sent s

end InkServer

open InkServer in
def main : IO UInt32 := do
  let environment ← readEnvironment
  let input ← IO.getStdin
  let output ← IO.getStdout
  let code ← serve input output 0 (CommandLine.start environment Disk.installed)
  pure code.toUInt32
