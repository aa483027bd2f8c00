import InkServer.Path.Basic
import InkServer.Text.Raw
import InkServer.Text.Split

/-!
This module contains what executable files hold: a program of the machine, or a script that names its
interpreter.
-/

namespace InkServer

open Text

inductive Image where
  /-- A program of the machine, by its name. -/
  | program (name : Raw)
  | script (interpreter : Path) (argument : Option Raw)
  /-- Nothing that can be executed. -/
  | unknown
deriving DecidableEq

namespace Image

/-- The bytes at the beginning of a program of the machine. Its name follows them. -/
def mark : Bytes := [0x7f, 0x45, 0x4c, 0x46]

def ofProgram (name : String) : Bytes :=
  mark ++ bytesOf name

def isGap (c : Char) : Bool :=
  c == ' ' || c == '\t'

def stripGaps (t : Raw) : Raw :=
  ((t.dropWhile isGap).reverse.dropWhile isGap).reverse

def ofFirstLine (line : Raw) : Image :=
  let line := stripGaps line
  let interpreter := line.takeWhile fun c => !isGap c
  if interpreter = [] then
    .unknown
  else
    let argument := stripGaps (line.drop interpreter.length)
    .script ⟨rawBytes interpreter⟩ (if argument = [] then none else some argument)

def ofContent (content : Bytes) : Image :=
  match afterStart? mark content with
  | some name => .program (rawOf name)
  | none =>
    match rawOf content with
    | '#' :: '!' :: rest => ofFirstLine (rest.takeWhile (· ≠ '\n'))
    | _ => .unknown

end Image

end InkServer
