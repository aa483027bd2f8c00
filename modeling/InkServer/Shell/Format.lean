import InkServer.Shell.Arithmetic

/-!
This module contains the text that is printed: escapes, and formats with their arguments.
-/

namespace InkServer.Shell

open Text

def isOctal (c : Char) : Bool :=
  isAsciiDigit c && c != '8' && c != '9'

def octalChar (ds : Raw) : Char :=
  Char.ofNat (valueInBase 8 ds % 256)

def escapeLetter? (c : Char) : Option Char :=
  [('\\', '\\'), ('a', '\x07'), ('b', '\x08'), ('f', '\x0c'), ('n', '\n'), ('r', '\r'),
    ('t', '\t'), ('v', '\x0b')].lookup c

/-- Text with its escapes carried out, and whether printing ends with it. -/
def unescape : Nat → Raw → Raw × Bool
  | 0, cs => (cs, false)
  | _ + 1, [] => ([], false)
  | fuel + 1, '\\' :: cs =>
    match cs with
    | [] => (['\\'], false)
    | 'c' :: _ => ([], true)
    | '0' :: rest =>
      let ds := (rest.take 3).takeWhile isOctal
      let (t, stops) := unescape fuel (rest.drop ds.length)
      (octalChar ds :: t, stops)
    | c :: rest =>
      if isOctal c then
        let ds := (cs.take 3).takeWhile isOctal
        let (t, stops) := unescape fuel (cs.drop ds.length)
        (octalChar ds :: t, stops)
      else
        match escapeLetter? c with
        | some e =>
          let (t, stops) := unescape fuel rest
          (e :: t, stops)
        | none =>
          let (t, stops) := unescape fuel cs
          ('\\' :: t, stops)
  | fuel + 1, c :: cs =>
    let (t, stops) := unescape fuel cs
    (c :: t, stops)

def echoText (args : List Raw) : Raw :=
  let (newline, args) :=
    match args with
    | ['-', 'n'] :: args => (false, args)
    | args => (true, args)
  let text := joined ' ' args
  let (text, stops) := unescape (text.length + 1) text
  if stops ∨ !newline then text else text ++ ['\n']

structure Directive where
  flags : Raw
  width : Nat
  precision : Option Nat
  conversion : Char

def readDirective (cs : List Char) : Option (Directive × List Char) :=
  let flags := cs.takeWhile fun c => ['-', '+', ' ', '#', '0'].contains c
  let cs := cs.drop flags.length
  let width := cs.takeWhile isAsciiDigit
  let cs := cs.drop width.length
  let (precision, cs) :=
    match cs with
    | '.' :: cs =>
      let ds := cs.takeWhile isAsciiDigit
      (some (numeralValue ds), cs.drop ds.length)
    | cs => (none, cs)
  match cs with
  | c :: cs => some (⟨flags, numeralValue width, precision, c⟩, cs)
  | [] => none

def Directive.pad (d : Directive) (sign text : Raw) : Raw :=
  let fill := d.width - (sign.length + text.length)
  if d.flags.contains '-' then sign ++ text ++ List.replicate fill ' '
  else if d.flags.contains '0' then sign ++ List.replicate fill '0' ++ text
  else List.replicate fill ' ' ++ sign ++ text

/-- The number that an argument stands for: a number, or the code of a character after a quote. -/
def argumentNumber? (arg : Raw) : Option Int :=
  match arg with
  | [] => some 0
  | c :: rest =>
    if c = '"' ∨ c = quote then
      match rest with
      | e :: _ => some e.toNat
      | [] => some 0
    else
      number? arg

/-- Put an argument into its place. The second part says that it should have been a number. -/
def Directive.apply (d : Directive) (arg : Raw) : Raw × Bool :=
  let textual (t : Raw) : Raw :=
    let t :=
      match d.precision with
      | some n => t.take n
      | none => t
    { d with flags := d.flags.filter (· ≠ '0') }.pad [] t
  let number := (argumentNumber? arg).getD 0
  let isFault := (argumentNumber? arg).isNone
  let signed : Raw × Bool :=
    let sign : Raw := if number < 0 then ['-'] else if d.flags.contains '+' then ['+'] else []
    (d.pad sign (numeral number.natAbs).toList, isFault)
  let unsigned (digits : Nat → Raw) : Raw × Bool := (d.pad [] (digits (bits number)), isFault)
  match d.conversion with
  | 's' => (textual arg, false)
  | 'b' => (textual (unescape (arg.length + 1) arg).1, false)
  | 'c' => (textual (arg.take 1), false)
  | 'd' => signed
  | 'i' => signed
  | 'u' => unsigned fun n => (numeral n).toList
  | 'o' => unsigned fun n => Nat.toDigits 8 n
  | 'x' => unsigned fun n => Nat.toDigits 16 n
  | 'X' => unsigned fun n => (Nat.toDigits 16 n).map Char.toUpper
  | _ => ([], false)

/-- What came of one pass through a format. -/
structure Formatted where
  text : Raw
  /-- The arguments that are left. -/
  rest : List Raw
  /-- The arguments that should have been numbers. -/
  faults : List Raw
  /-- Some directive took an argument. -/
  took : Bool
  /-- Printing ends here. -/
  stops : Bool

def formatOnce : Nat → List Char → List Raw → Formatted
  | 0, _, args => ⟨[], args, [], false, true⟩
  | _ + 1, [], args => ⟨[], args, [], false, false⟩
  | fuel + 1, '%' :: '%' :: cs, args =>
    let f := formatOnce fuel cs args
    { f with text := '%' :: f.text }
  | fuel + 1, '%' :: cs, args =>
    match readDirective cs with
    | none => ⟨['%'], args, [], false, false⟩
    | some (d, cs) =>
      let arg := args.headD []
      let (t, fault) := d.apply arg
      let f := formatOnce fuel cs args.tail
      { f with
        text := t ++ f.text
        faults := if fault then arg :: f.faults else f.faults
        took := true }
  | fuel + 1, '\\' :: cs, args =>
    match cs with
    | 'c' :: _ => ⟨[], args, [], false, true⟩
    | c :: rest =>
      let (t, cs) : Raw × List Char :=
        if isOctal c then
          let ds := (cs.take 3).takeWhile isOctal
          ([octalChar ds], cs.drop ds.length)
        else
          match escapeLetter? c with
          | some e => ([e], rest)
          | none => (['\\'], cs)
      let f := formatOnce fuel cs args
      { f with text := t ++ f.text }
    | [] => ⟨['\\'], args, [], false, false⟩
  | fuel + 1, c :: cs, args =>
    let f := formatOnce fuel cs args
    { f with text := c :: f.text }

/-- Go through a format until no arguments are left. -/
def formatAll (format : Raw) : Nat → List Raw → Formatted
  | 0, args => ⟨[], args, [], false, true⟩
  | fuel + 1, args =>
    let f := formatOnce (format.length + 1) format args
    if f.stops ∨ !f.took ∨ f.rest = [] then
      f
    else
      let g := formatAll format fuel f.rest
      { g with text := f.text ++ g.text, faults := f.faults ++ g.faults }

end InkServer.Shell
