import InkServer.Json.Reader
import InkServer.Json.Writer
import InkServer.Path.Lexical
import InkServer.Text.Blank
import InkServer.Text.Quoted

/-!
This module contains the framing of messages on the connection: header lines, of which one gives the
length, a blank line, and a body of that many bytes.
-/

namespace InkServer

open Text

inductive FrameError where
  | headerNotText
  | invalidLength (text : String)
  | endInHeader
  | noLength
  | tooLong (length : Nat)
  | endInBody
  | bodyNotJson
deriving DecidableEq

def maxBodyLength : Nat := 16 * 1024 * 1024

def FrameError.message : FrameError → String
  | headerNotText => "reading message header"
  | invalidLength text => "invalid Content-Length " ++ quoted text
  | endInHeader => "stream ended inside a message header"
  | noLength => "message header has no Content-Length"
  | tooLong length =>
    "message of " ++ numeral length ++ " bytes exceeds the " ++ numeral maxBodyLength ++ " byte limit"
  | endInBody => "reading message body"
  | bodyNotJson => "message body is not valid JSON"

/-- What the bytes received so far amount to. -/
inductive FrameRead where
  | frame (body : Json) (rest : Bytes)
  /-- The stream ended between two frames. -/
  | ended
  /-- More bytes are needed. -/
  | pending
  | error (e : FrameError)

/-- What a header line says about the length. -/
inductive HeaderLine where
  | blank
  | length (n : Nat)
  | other
  | error (e : FrameError)

def HeaderLine.ofBytes (line : Bytes) : HeaderLine :=
  match decode? line with
  | none => .error .headerNotText
  | some cs =>
    let cs := trim cs
    if cs = [] then
      .blank
    else
      match splitFirst? ':' cs with
      | none => .other
      | some (name, value) =>
        if (trim name).map lowerLetter = "content-length".toList then
          match readUnsigned? bound64 (trim value) with
          | some n => .length n
          | none => .error (.invalidLength (String.ofList (trim value)))
        else
          .other

inductive HeaderRead where
  /-- The header is complete; the length that it gave, and what follows it. -/
  | done (length : Option Nat) (rest : Bytes)
  | ended
  | pending
  | error (e : FrameError)

/-- Read the rest of a header, of which `first` says that no line was read yet. With `closed` no more
bytes will come, and the last line needs no end. -/
def readHeader (closed : Bool) : Nat → Bool → Option Nat → Bytes → HeaderRead
  | 0, _, _, _ => .pending
  | fuel + 1, first, length, bytes =>
    if bytes = [] then
      if !closed then .pending
      else if first then .ended
      else .error .endInHeader
    else
      let line? :=
        match splitFirst? 10 bytes with
        | some (line, rest) => some (line, rest)
        | none => if closed then some (bytes, []) else none
      match line? with
      | none => .pending
      | some (line, rest) =>
        match HeaderLine.ofBytes line with
        | .blank => .done length rest
        | .length n => readHeader closed fuel false (some n) rest
        | .other => readHeader closed fuel false length rest
        | .error e => .error e

/-- How many arrays and objects may stand inside each other in a body. -/
def bodyDepth : Nat := 127

def bodyOf? (bytes : Bytes) : Option Json :=
  (decode? bytes).bind (Json.ofChars? bodyDepth)

def readFrame (closed : Bool) (bytes : Bytes) : FrameRead :=
  match readHeader closed (bytes.length + 1) true none bytes with
  | .ended => .ended
  | .pending => .pending
  | .error e => .error e
  | .done none _ => .error .noLength
  | .done (some length) rest =>
    if length > maxBodyLength then
      .error (.tooLong length)
    else if rest.length < length then
      if closed then .error .endInBody else .pending
    else
      match bodyOf? (rest.take length) with
      | some body => .frame body (rest.drop length)
      | none => .error .bodyNotJson

inductive FramesEnd where
  | ended
  | pending
  | error (e : FrameError)

def readFrames (closed : Bool) : Nat → Bytes → List Json × FramesEnd
  | 0, _ => ([], .pending)
  | fuel + 1, bytes =>
    match readFrame closed bytes with
    | .frame body rest =>
      let (bodies, final) := readFrames closed fuel rest
      (body :: bodies, final)
    | .ended => ([], .ended)
    | .pending => ([], .pending)
    | .error e => ([], .error e)

def readStream (bytes : Bytes) : List Json × FramesEnd :=
  readFrames true (bytes.length + 1) bytes

def writeFrame (message : Json) : Bytes :=
  let body := encode message.text
  bytesOf ("Content-Length: " ++ numeral body.length ++ "\r\n\r\n") ++ body

end InkServer
