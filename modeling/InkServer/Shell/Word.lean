import InkServer.Shell.Script
import InkServer.Text.Digit
import InkServer.Text.Numeral
import InkServer.Text.Split

/-!
This module contains the reading of the words of shell scripts, with their quotes and expansions.
-/

namespace InkServer.Shell

open Text

structure Fault where
  message : String
  /-- The number of line ends that are left where it shows. -/
  left : Nat

/-- The line of a script with `total` line ends on which a fault shows. -/
def Fault.line (total : Nat) (f : Fault) : Nat :=
  total + 1 - f.left

def Fault.atEnd (message : String) : Fault := ⟨message, 0⟩

def Fault.tooLong : Fault := .atEnd "script too long"

def Fault.openQuote : Fault := .atEnd "Unterminated quoted string"

abbrev Reading := Except Fault

def quote : Char := '\x27'

def backQuote : Char := '\x60'

def openBrace : Char := '\x7b'

def closeBrace : Char := '\x7d'

def isMeta (c : Char) : Bool :=
  [' ', '\t', '\n', ';', '&', '|', '<', '>', '(', ')'].contains c

def isNameStart (c : Char) : Bool :=
  c.isAlpha || c == '_'

def isNameChar (c : Char) : Bool :=
  isNameStart c || isAsciiDigit c

def isName : Raw → Bool
  | c :: cs => isNameStart c && cs.all isNameChar
  | [] => false

def isSpecialName (c : Char) : Bool :=
  ['@', '*', '#', '?', '$', '!', '-'].contains c || isAsciiDigit c

/-- The text up to the bracket that closes `depth` open ones, and what follows it. Brackets in quotes
do not count; `mode` is the quote that is open, or a blank. -/
def inside (opening closing : Char) : Nat → Char → List Char → Option (Raw × List Char)
  | _, _, [] => none
  | depth, mode, '\\' :: c :: cs =>
    if mode = quote then
      (inside opening closing depth (if c = quote then ' ' else mode) cs).map fun (t, r) =>
        ('\\' :: c :: t, r)
    else
      (inside opening closing depth mode cs).map fun (t, r) => ('\\' :: c :: t, r)
  | depth, mode, c :: cs =>
    if mode ≠ ' ' then
      (inside opening closing depth (if c = mode then ' ' else mode) cs).map fun (t, r) => (c :: t, r)
    else if c = quote ∨ c = '"' then
      (inside opening closing depth c cs).map fun (t, r) => (c :: t, r)
    else if c = closing then
      if depth ≤ 1 then some ([], cs)
      else (inside opening closing (depth - 1) mode cs).map fun (t, r) => (c :: t, r)
    else if c = opening then
      (inside opening closing (depth + 1) mode cs).map fun (t, r) => (c :: t, r)
    else
      (inside opening closing depth mode cs).map fun (t, r) => (c :: t, r)

/-- The text between parentheses that is itself in parentheses. -/
def doubled? (t : Raw) : Option Raw :=
  match t with
  | '(' :: rest => if rest.getLast? = some ')' then some rest.dropLast else none
  | _ => none

def parameterName (t : Raw) : Raw :=
  match t with
  | c :: _ =>
    if isNameStart c then t.takeWhile isNameChar
    else if isAsciiDigit c then t.takeWhile isAsciiDigit
    else if isSpecialName c then [c]
    else []
  | [] => []

/-- What the text after the name of a parameter takes from it. -/
def parameterForm (t : Raw) : ParameterForm :=
  match t with
  | [] => .value
  | ':' :: '-' :: source => .orElse true source
  | '-' :: source => .orElse false source
  | ':' :: '+' :: source => .ifGiven true source
  | '+' :: source => .ifGiven false source
  | ':' :: '=' :: source => .orAssign true source
  | '=' :: source => .orAssign false source
  | ':' :: '?' :: source => .orFail true source
  | '?' :: source => .orFail false source
  | '%' :: '%' :: source => .without true true source
  | '%' :: source => .without true false source
  | '#' :: '#' :: source => .without false true source
  | '#' :: source => .without false false source
  | _ => .unknown

def bracedPart (t : Raw) (quoted : Bool) : Part :=
  match t with
  | '#' :: c :: cs =>
    if parameterName (c :: cs) = c :: cs then .parameter (c :: cs) .length quoted
    else .parameter ['#'] (parameterForm (c :: cs)) quoted
  | _ =>
    let name := parameterName t
    .parameter name (if name = [] then .unknown else parameterForm (t.drop name.length)) quoted

def readDollar (quoted : Bool) (cs : List Char) : Reading (Part × List Char) :=
  match cs with
  | '(' :: rest =>
    match inside '(' ')' 1 ' ' rest with
    | some (t, rest) =>
      match doubled? t with
      | some source => .ok (.arithmetic source quoted, rest)
      | none => .ok (.output t quoted, rest)
    | none => .error (.atEnd "end of file unexpected (expecting \")\")")
  | c :: rest =>
    if c = openBrace then
      match inside openBrace closeBrace 1 ' ' rest with
      | some (t, rest) => .ok (bracedPart t quoted, rest)
      | none => .error (.atEnd "Missing \x27\x7d\x27")
    else if isNameStart c then
      .ok (.parameter (cs.takeWhile isNameChar) .value quoted, cs.dropWhile isNameChar)
    else if isSpecialName c then
      .ok (.parameter [c] .value quoted, rest)
    else
      .ok (.text ['$'] quoted, cs)
  | [] => .ok (.text ['$'] quoted, [])

def readBackQuoted : List Char → Reading (Raw × List Char)
  | [] => .error (.atEnd "EOF in backquote substitution")
  | '\\' :: c :: cs => do
    let (t, cs) ← readBackQuoted cs
    pure (if c = backQuote ∨ c = '\\' ∨ c = '$' then c :: t else '\\' :: c :: t, cs)
  | c :: cs =>
    if c = backQuote then .ok ([], cs)
    else do
      let (t, cs) ← readBackQuoted cs
      pure (c :: t, cs)

/-- The characters that a backslash quotes between double quotes. -/
def isEscapable (c : Char) : Bool :=
  c == '$' || c == backQuote || c == '"' || c == '\\'

def startingWith (p : Part) : Reading (Word × List Char) → Reading (Word × List Char)
  | .ok (ps, cs) => .ok (p :: ps, cs)
  | .error f => .error f

/-- Read text between double quotes. With `closed` it goes up to the closing one, and else up to the
end. -/
def readQuoted (closed : Bool) : Nat → List Char → Reading (Word × List Char)
  | 0, _ => .error .tooLong
  | _ + 1, [] => if closed then .error .openQuote else .ok ([], [])
  | fuel + 1, c :: cs =>
    if c = '"' ∧ closed then
      .ok ([], cs)
    else if c = '\\' then
      match cs with
      | '\n' :: cs => readQuoted closed fuel cs
      | e :: cs =>
        let text := if isEscapable e ∧ (e ≠ '"' ∨ closed) then [e] else ['\\', e]
        startingWith (.text text true) (readQuoted closed fuel cs)
      | [] => startingWith (.text ['\\'] true) (readQuoted closed fuel [])
    else if c = '$' then do
      let (p, cs) ← readDollar true cs
      startingWith p (readQuoted closed fuel cs)
    else if c = backQuote then do
      let (t, cs) ← readBackQuoted cs
      startingWith (.output t true) (readQuoted closed fuel cs)
    else
      let isPlain (x : Char) : Bool :=
        !(x == '\\' || x == '$' || x == backQuote || (closed && x == '"'))
      startingWith (.text (c :: cs.takeWhile isPlain) true)
        (readQuoted closed fuel (cs.dropWhile isPlain))

/-- Read a word. With `whole` it goes up to the end of the text. -/
def readWord (whole : Bool) : Nat → List Char → Reading (Word × List Char)
  | 0, _ => .error .tooLong
  | _ + 1, [] => .ok ([], [])
  | fuel + 1, c :: cs =>
    if isMeta c ∧ !whole then
      .ok ([], c :: cs)
    else if c = quote then
      match splitFirst? quote cs with
      | some (t, cs) => startingWith (.text t true) (readWord whole fuel cs)
      | none => .error .openQuote
    else if c = '"' then do
      let (qs, cs) ← readQuoted true (cs.length + 1) cs
      let (ps, cs) ← readWord whole fuel cs
      pure ((if qs = [] then [.text [] true] else qs) ++ ps, cs)
    else if c = '\\' then
      match cs with
      | '\n' :: cs => readWord whole fuel cs
      | e :: cs => startingWith (.text [e] true) (readWord whole fuel cs)
      | [] => .ok ([.text ['\\'] true], [])
    else if c = '$' then do
      let (p, cs) ← readDollar false cs
      startingWith p (readWord whole fuel cs)
    else if c = backQuote then do
      let (t, cs) ← readBackQuoted cs
      startingWith (.output t false) (readWord whole fuel cs)
    else
      let isPlain (x : Char) : Bool :=
        !((isMeta x && !whole) || x == quote || x == '"' || x == '\\' || x == '$' || x == backQuote)
      startingWith (.text (c :: cs.takeWhile isPlain) false)
        (readWord whole fuel (cs.dropWhile isPlain))

/-- The parts of a text as it would stand between double quotes. -/
def quotedParts (source : Raw) : Word :=
  match readQuoted false (source.length + 1) source with
  | .ok (parts, _) => parts
  | .error _ => [.text source true]

/-- The parts of a text as it would stand without quotes. -/
def plainParts (source : Raw) : Word :=
  match readWord true (source.length + 1) source with
  | .ok (parts, _) => parts
  | .error _ => [.text source false]

def plainText (w : Word) : Raw :=
  w.flatMap fun p =>
    match p with
    | .text s _ => s
    | _ => []

end InkServer.Shell
