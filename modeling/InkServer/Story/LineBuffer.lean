import InkServer.Story.Line
import InkServer.Text.Utf8

/-!
This module contains the cutting of a byte stream, which arrives in chunks, into lines.
-/

namespace InkServer

open Text

def byteOrderMark : Bytes := [0xEF, 0xBB, 0xBF]

/-- The text without a byte order mark at its start. -/
def dropMark (cs : List Char) : List Char :=
  match cs with
  | c :: rest => if c = '\uFEFF' then rest else cs
  | [] => []

def lineFeed : UInt8 := 10

def carriageReturn : UInt8 := 13

def decodeLine (raw : Bytes) : List Char :=
  decodeLossy (dropFinal carriageReturn raw)

/-- The bytes of the line that is not complete yet. -/
structure LineBuffer where
  pending : Bytes
deriving DecidableEq

namespace LineBuffer

def empty : LineBuffer := ⟨[]⟩

def addBytes (b : LineBuffer) (bytes : Bytes) : List Bytes × LineBuffer :=
  let all := pieces lineFeed (b.pending ++ bytes)
  (all.dropLast, ⟨all.getLast?.getD []⟩)

/-- Add a chunk, of which a byte order mark at the start does not count. -/
def push (b : LineBuffer) (chunk : Bytes) : List (List Char) × LineBuffer :=
  let chunk := (afterStart? byteOrderMark chunk).getD chunk
  let (lines, rest) := b.addBytes chunk
  (lines.map decodeLine, rest)

/-- Release the pending bytes when they ask for a choice, since no line end follows then. -/
def takePrompt (b : LineBuffer) : Option (List Char) × LineBuffer :=
  if (encode promptMark).isPrefixOf b.pending then (some (decodeLine b.pending), empty)
  else (none, b)

/-- Release the pending bytes at the end of the stream. -/
def finish (b : LineBuffer) : Option (List Char) × LineBuffer :=
  if b.pending = [] then (none, b) else (some (decodeLine b.pending), empty)

end LineBuffer

end InkServer
