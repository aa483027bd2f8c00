import InkServer.Path.Lexical
import InkServer.Text.Quoted
import InkServer.Uri.Host

/-!
This module contains the two ways between document URIs and paths: reading a `file:` URI (or a plain
path in its place), and writing the `file:` URI of a path.
-/

namespace InkServer

open Text

namespace Uri

inductive Fault where
  | empty
  | malformed
  | notLocal
  | unsupportedScheme
deriving DecidableEq

def Fault.reason : Fault → String
  | empty => "empty"
  | malformed => "malformed URI"
  | notLocal => "not a local file path"
  | unsupportedScheme => "unsupported scheme"

structure Invalid where
  uri : String
  fault : Fault
deriving DecidableEq

def Invalid.message (e : Invalid) : String :=
  "invalid document URI " ++ quoted e.uri ++ ": " ++ e.fault.reason

/-- The scheme in front of the first colon, if it is well-formed. -/
def scheme? (uri : List Char) : Option (List Char) :=
  match splitFirst? ':' uri with
  | some (c :: cs, _) =>
    if isLetter c && cs.all fun d => isLetter d || isAsciiDigit d || d = '+' || d = '-' || d = '.'
    then some (c :: cs)
    else none
  | _ => none

def isSeparator (c : Char) : Bool :=
  c = '/' || c = '\\'

def endsPath (c : Char) : Bool :=
  c = '?' || c = '#'

def isDriveLetter : List Char → Bool
  | [c, d] => isLetter c && (d = ':' || d = '|')
  | _ => false

def isHereSegment (segment : List Char) : Bool :=
  [".", "%2e"].contains (String.ofList (segment.map lowerLetter))

def isUpSegment (segment : List Char) : Bool :=
  ["..", ".%2e", "%2e.", "%2e%2e"].contains (String.ofList (segment.map lowerLetter))

/-- Resolve the segments of a path. `done` holds those before, innermost first. A segment that looks
like a drive is never taken back and keeps its bar, and a dot segment at the end leaves a slash. -/
def resolveSegments (done : List (List Char)) : List (List Char) → List (List Char)
  | [] => done.reverse
  | segment :: rest =>
    let before :=
      if isUpSegment segment then
        match done with
        | last :: others => if isDriveLetter last then done else others
        | [] => []
      else if isHereSegment segment then done
      else segment :: done
    match rest with
    | [] =>
      if isUpSegment segment || isHereSegment segment then ([] :: before).reverse
      else before.reverse
    | next :: more => resolveSegments before (next :: more)

/-- The segments of the path part of a URI, resolved, without the empty ones in front. -/
def pathSegments (text : List Char) : List (List Char) :=
  let body := text.takeWhile fun c => !endsPath c
  let body :=
    match body with
    | c :: rest => if isSeparator c then rest else body
    | [] => []
  let unified := body.map fun c => if c = '\\' then '/' else c
  (resolveSegments [] (pieces '/' unified)).dropWhile (· = [])

def startsWithDrive (text : List Char) : Bool :=
  match pathSegments text with
  | [c, ':'] :: _ => isLetter c
  | _ => false

/-- The path of the segments. A path that ends in a drive gets a slash behind it. -/
def pathOfSegments (segments : List (List Char)) : Path :=
  let bytes := slash :: percentDecode (encode (joined '/' segments))
  match bytes.reverse with
  | b :: c :: _ :: _ =>
    if isLetter (Char.ofNat c.toNat) && (b = 58 || b = 124) then ⟨bytes ++ [slash]⟩ else ⟨bytes⟩
  | _ => ⟨bytes⟩

def filePath (text : List Char) : Except Fault Path :=
  match text with
  | a :: b :: rest =>
    if isSeparator a && isSeparator b then
      let host := rest.takeWhile fun c => !isSeparator c && !endsPath c
      let path := rest.dropWhile fun c => !isSeparator c && !endsPath c
      if host = [] then
        .ok (pathOfSegments (pathSegments path))
      else if isDriveLetter host then
        .ok (pathOfSegments (pathSegments rest))
      else
        match Host.ofText? host with
        | none => .error .malformed
        | some .thisMachine => .ok (pathOfSegments (pathSegments path))
        | some .elsewhere =>
          if startsWithDrive path then .ok (pathOfSegments (pathSegments path))
          else .error .notLocal
    else
      .ok (pathOfSegments (pathSegments text))
  | _ => .ok (pathOfSegments (pathSegments text))

/-- The text without tabs and line ends anywhere, and without controls and spaces at its end. -/
def strip (text : List Char) : List Char :=
  ((text.reverse.dropWhile fun c => c.toNat ≤ 32).reverse).filter fun c =>
    c ≠ '\t' && c ≠ '\n' && c ≠ '\r'

/-- The path that a document URI stands for. Text without a scheme, and text that begins with a
drive, is a path already. -/
def toPath (uri : String) : Except Invalid Path :=
  let text := uri.toList
  if text = [] then
    .error ⟨uri, .empty⟩
  else if hasDrive text then
    .ok (Path.ofString uri)
  else
    match scheme? text with
    | none => .ok (Path.ofString uri)
    | some scheme =>
      if scheme.map lowerLetter = "file".toList then
        (filePath ((strip text).drop 5)).mapError (Invalid.mk uri)
      else
        .error ⟨uri, .unsupportedScheme⟩

/-- The bytes of a name that are written as percent codes. -/
def isSpecialInName (b : UInt8) : Bool :=
  b < 32 || b ≥ 127 || (bytesOf " \"#<>?`\x7b\x7d%/\\").contains b

def ofPath? (p : Path) : Option String :=
  match p.components with
  | .root :: steps =>
    let names := steps.map fun c => percentEncode isSpecialInName c.bytes
    some ("file:///" ++ String.ofList ((joined slash names).map fun b => Char.ofNat b.toNat))
  | _ => none

def noUriMessage (p : Path) : String :=
  "cannot convert path to file URI: " ++ p.text

end Uri

end InkServer
