import InkServer.Disk.Operations
import InkServer.Shell.Arithmetic

/-!
This module contains the conditions that scripts test: on texts, numbers and files.
-/

namespace InkServer.Shell

open Text

def isUnaryOperator (w : Raw) : Bool :=
  match w with
  | ['-', c] => "rwxefdcbpugkstznhOGLS".toList.contains c
  | _ => false

def isBinaryOperator (w : Raw) : Bool :=
  ["=", "!=", "<", ">", "-eq", "-ne", "-gt", "-ge", "-lt", "-le", "-nt", "-ot", "-ef"].any fun k =>
    k.toList == w

def unaryCondition (d : Disk) (place : Raw → Path) (operator operand : Raw) : Bool :=
  match operator with
  | ['-', 'n'] => operand ≠ []
  | ['-', 'z'] => operand = []
  | ['-', 'e'] => d.pathExists (place operand)
  | ['-', 'f'] => d.isFile (place operand)
  | ['-', 'd'] => d.isFolder (place operand)
  | ['-', 'r'] => d.pathExists (place operand)
  | ['-', 'w'] => d.pathExists (place operand)
  | ['-', 'x'] => d.isExecutable (place operand) || d.isFolder (place operand)
  | ['-', 'h'] => d.isLink (place operand)
  | ['-', 'L'] => d.isLink (place operand)
  | ['-', 's'] =>
    match d.content (place operand) with
    | .ok content => content ≠ []
    | .error _ => d.isFolder (place operand)
  | _ => false

/-- What comes of testing: whether it holds and what is left of the words, or why there is no
condition. -/
abbrev Tested := Except Raw (Bool × List Raw)

def comparedNumber (t : Raw) : Except Raw Int :=
  match decimal? t with
  | some n => .ok n
  | none => .error ("Illegal number: ".toList ++ t)

def binaryCondition (a operator b : Raw) : Except Raw Bool :=
  let compare (holds : Int → Int → Bool) : Except Raw Bool := do
    let m ← comparedNumber a
    let n ← comparedNumber b
    pure (holds m n)
  match String.ofList operator with
  | "=" => .ok (a == b)
  | "!=" => .ok (a != b)
  | "<" => .ok (a < b)
  | ">" => .ok (b < a)
  | "-eq" => compare fun m n => m == n
  | "-ne" => compare fun m n => m != n
  | "-lt" => compare fun m n => m < n
  | "-le" => compare fun m n => m ≤ n
  | "-gt" => compare fun m n => m > n
  | "-ge" => compare fun m n => m ≥ n
  | _ => .ok false

/-- The operator at the beginning is a text like others, because of what follows it. -/
def isOperand (rest : List Raw) : Bool :=
  match rest with
  | [] => true
  | [_] => false
  | operator :: b :: _ => isBinaryOperator operator && b ≠ [')']

mutual

def anyOf (d : Disk) (place : Raw → Path) : Nat → List Raw → Tested
  | 0, ws => .ok (false, ws)
  | fuel + 1, ws => do
    let (a, ws) ← allOf d place fuel ws
    match ws with
    | ['-', 'o'] :: ws =>
      let (b, ws) ← anyOf d place fuel ws
      pure (a || b, ws)
    | ws => pure (a, ws)

def allOf (d : Disk) (place : Raw → Path) : Nat → List Raw → Tested
  | 0, ws => .ok (false, ws)
  | fuel + 1, ws => do
    let (a, ws) ← single d place fuel ws
    match ws with
    | ['-', 'a'] :: ws =>
      let (b, ws) ← allOf d place fuel ws
      pure (a && b, ws)
    | ws => pure (a, ws)

def single (d : Disk) (place : Raw → Path) : Nat → List Raw → Tested
  | 0, ws => .ok (false, ws)
  | fuel + 1, ws =>
    match ws with
    | [] => .ok (false, [])
    | ['!'] :: ws => do
      let (a, ws) ← single d place fuel ws
      pure (!a, ws)
    | w :: rest =>
      if w = ['('] ∧ rest ≠ [] then
        if rest.head? = some [')'] then .ok (false, rest.tail)
        else do
          let (a, ws) ← anyOf d place fuel rest
          match ws with
          | [')'] :: ws => pure (a, ws)
          | _ => .error "closing paren expected".toList
      else if isUnaryOperator w ∧ !isOperand rest then
        .ok (unaryCondition d place w (rest.headD []), rest.tail)
      else
        operand w rest
where
  /-- A text, alone or compared with another one. -/
  operand (w : Raw) (rest : List Raw) : Tested :=
    match rest with
    | operator :: more =>
      if isBinaryOperator operator then
        match more with
        | b :: ws => (binaryCondition w operator b).map fun a => (a, ws)
        | [] => .error (operator ++ ": argument expected".toList)
      else
        .ok (w ≠ [], rest)
    | [] => .ok (w ≠ [], [])

end

/-- The words make a condition that holds, or why they make none. -/
def condition (d : Disk) (place : Raw → Path) (words : List Raw) : Except Raw Bool := do
  let fuel := 3 * words.length + 3
  let (a, rest) ←
    match words with
    | [w, operator, b] =>
      if isBinaryOperator operator then single.operand w [operator, b]
      else anyOf d place fuel words
    | words => anyOf d place fuel words
  if rest = [] then pure a
  else
    let last := (words.take (words.length - rest.length)).getLast?.getD []
    .error (last ++ ": unexpected operator".toList)

end InkServer.Shell
