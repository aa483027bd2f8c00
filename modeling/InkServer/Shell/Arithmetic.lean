import InkServer.Shell.Word

/-!
This module contains the whole numbers of the shell: reading them, and working out expressions.
-/

namespace InkServer.Shell

open Text

/-- A number at the beginning: decimal, or octal or hexadecimal after its mark. -/
def readNumber (cs : Raw) : Nat × Raw :=
  let digitsOf (base : Nat) (digit : Char → Bool) (cs : Raw) : Nat × Raw :=
    (valueInBase base (cs.takeWhile digit), cs.dropWhile digit)
  match cs with
  | '0' :: 'x' :: d :: rest =>
    if isHexDigit d then digitsOf 16 isHexDigit (d :: rest) else (0, 'x' :: d :: rest)
  | '0' :: rest => digitsOf 8 (fun c => isAsciiDigit c && c != '8' && c != '9') rest
  | cs => digitsOf 10 isAsciiDigit cs

/-- The text after a sign, and whether the sign is a minus. -/
def readSign : Raw → Bool × Raw
  | '-' :: cs => (true, cs)
  | '+' :: cs => (false, cs)
  | cs => (false, cs)

def isNumberBlank (c : Char) : Bool :=
  [' ', '\t', '\n', '\r', '\x0b', '\x0c'].contains c

/-- A whole number with nothing after it: decimal, or octal or hexadecimal after its mark. -/
def number? (cs : Raw) : Option Int :=
  let (negative, cs) := readSign cs
  match cs with
  | c :: _ =>
    if isAsciiDigit c then
      match readNumber cs with
      | (n, []) => some (if negative then -n else n)
      | _ => none
    else
      none
  | [] => none

/-- A decimal whole number with blanks around it, as comparisons take them. -/
def decimal? (cs : Raw) : Option Int :=
  let (negative, cs) := readSign (cs.dropWhile isNumberBlank)
  let digits := cs.takeWhile isAsciiDigit
  if digits ≠ [] ∧ (cs.drop digits.length).all isNumberBlank then
    some (if negative then -(numeralValue digits) else numeralValue digits)
  else
    none

def numberText (n : Int) : Raw :=
  if n < 0 then '-' :: (numeral n.natAbs).toList else (numeral n.natAbs).toList

/-- The number that is left of another one in 64 bits. -/
def wrap (n : Int) : Int :=
  n.bmod bound64

def bits (n : Int) : Nat :=
  (n % bound64).toNat

inductive ArithmeticError where
  | fault (what : String)
  | badNumber (text : Raw)

def ArithmeticError.message (source : Raw) : ArithmeticError → Raw
  | fault what => rawOfString ("arithmetic expression: " ++ what ++ ": \"") ++ source ++ ['"']
  | badNumber text => "Illegal number: ".toList ++ text

inductive Token where
  | number (n : Int)
  | name (x : Raw)
  | operator (s : String)
deriving DecidableEq

/-- The operators of several characters, of which none begins with one after it. -/
def longOperators : List String :=
  ["<<=", ">>=", "||", "&&", "==", "!=", "<=", ">=", "<<", ">>", "+=", "-=", "*=", "/=", "%=", "&=",
    "^=", "|="]

def tokens : Nat → List Char → List Token
  | 0, _ => []
  | _ + 1, [] => []
  | fuel + 1, c :: cs =>
    if c = ' ' ∨ c = '\t' ∨ c = '\n' then
      tokens fuel cs
    else if isAsciiDigit c then
      let (n, rest) := readNumber (c :: cs)
      .number n :: tokens fuel rest
    else if isNameStart c then
      .name ((c :: cs).takeWhile isNameChar) :: tokens fuel ((c :: cs).dropWhile isNameChar)
    else
      match longOperators.find? fun o => o.toList.isPrefixOf (c :: cs) with
      | some o => .operator o :: tokens fuel ((c :: cs).drop o.toList.length)
      | none => .operator (String.singleton c) :: tokens fuel cs

inductive Expression where
  | number (n : Int)
  | name (x : Raw)
  | unary (operator : String) (a : Expression)
  | binary (operator : String) (a b : Expression)
  | choice (test yes no : Expression)
  /-- A new value for a name: that of an expression, joined to the old value by an operator. -/
  | assign (x : Raw) (operator : Option String) (a : Expression)

def strength? (s : String) : Option Nat :=
  [("||", 1), ("&&", 2), ("|", 3), ("^", 4), ("&", 5), ("==", 6), ("!=", 6), ("<", 7), ("<=", 7),
    (">", 7), (">=", 7), ("<<", 8), (">>", 8), ("+", 9), ("-", 9), ("*", 10), ("/", 10),
    ("%", 10)].lookup s

def assignmentOperator? (s : String) : Option (Option String) :=
  if s = "=" then some none
  else
    ["<<", ">>", "+", "-", "*", "/", "%", "&", "^", "|"].find? (fun o => o ++ "=" == s)
      |>.map some

/-- What comes of reading a part of an expression. -/
abbrev Parsed := Except ArithmeticError (Expression × List Token)

mutual

def readAssignment : Nat → List Token → Parsed
  | 0, _ => .error (.fault "expecting primary")
  | fuel + 1, ts =>
    match ts with
    | .name x :: .operator s :: rest =>
      match assignmentOperator? s with
      | some operator => do
        let (a, rest) ← readAssignment fuel rest
        pure (.assign x operator a, rest)
      | none => readChoice fuel ts
    | ts => readChoice fuel ts

def readChoice : Nat → List Token → Parsed
  | 0, _ => .error (.fault "expecting primary")
  | fuel + 1, ts => do
    let (test, ts) ← readBinary fuel 1 ts
    match ts with
    | .operator "?" :: ts =>
      let (yes, ts) ← readAssignment fuel ts
      match ts with
      | .operator ":" :: ts =>
        let (no, ts) ← readChoice fuel ts
        pure (.choice test yes no, ts)
      | _ => .error (.fault "expecting \x27:\x27")
    | ts => pure (test, ts)

/-- Read an expression whose operators bind at least as strongly as `least`. -/
def readBinary : Nat → Nat → List Token → Parsed
  | 0, _, _ => .error (.fault "expecting primary")
  | fuel + 1, least, ts => do
    let (a, ts) ← readUnary fuel ts
    readBinaryRest fuel least a ts

def readBinaryRest : Nat → Nat → Expression → List Token → Parsed
  | 0, _, _, _ => .error (.fault "expecting primary")
  | fuel + 1, least, a, ts =>
    match ts with
    | .operator s :: rest =>
      match strength? s with
      | some n =>
        if n < least then
          .ok (a, ts)
        else do
          let (b, rest) ← readBinary fuel (n + 1) rest
          readBinaryRest fuel least (.binary s a b) rest
      | none => .ok (a, ts)
    | _ => .ok (a, ts)

def readUnary : Nat → List Token → Parsed
  | 0, _ => .error (.fault "expecting primary")
  | fuel + 1, ts =>
    match ts with
    | .number n :: ts => .ok (.number n, ts)
    | .name x :: ts => .ok (.name x, ts)
    | .operator "(" :: ts => do
      let (a, ts) ← readAssignment fuel ts
      match ts with
      | .operator ")" :: ts => pure (a, ts)
      | _ => .error (.fault "expecting \x27)\x27")
    | .operator s :: ts =>
      if ["-", "+", "!", "~"].contains s then do
        let (a, ts) ← readUnary fuel ts
        pure (.unary s a, ts)
      else
        .error (.fault "expecting primary")
    | [] => .error (.fault "expecting primary")

end

def Expression.ofSource (source : Raw) : Except ArithmeticError Expression := do
  let ts := tokens (source.length + 1) source
  let (e, rest) ← readAssignment (6 * ts.length + 8) ts
  if rest = [] then pure e else .error (.fault "expecting EOF")

def truth (b : Bool) : Int :=
  if b then 1 else 0

def operate (s : String) (a b : Int) : Except ArithmeticError Int :=
  let ofBits (n : Nat) : Except ArithmeticError Int := .ok (wrap n)
  match s with
  | "|" => ofBits (bits a ||| bits b)
  | "^" => ofBits (bits a ^^^ bits b)
  | "&" => ofBits (bits a &&& bits b)
  | "==" => .ok (truth (a == b))
  | "!=" => .ok (truth (a != b))
  | "<" => .ok (truth (a < b))
  | "<=" => .ok (truth (a ≤ b))
  | ">" => .ok (truth (a > b))
  | ">=" => .ok (truth (a ≥ b))
  | "<<" => .ok (wrap (a * (1 <<< (bits b % 64) : Nat)))
  | ">>" => .ok (a.fdiv (1 <<< (bits b % 64) : Nat))
  | "+" => .ok (wrap (a + b))
  | "-" => .ok (wrap (a - b))
  | "*" => .ok (wrap (a * b))
  | "/" => if b = 0 then .error (.fault "division by zero") else .ok (wrap (a.tdiv b))
  | "%" => if b = 0 then .error (.fault "division by zero") else .ok (a.tmod b)
  | _ => .error (.fault "expecting EOF")

abbrev Bindings := List (Raw × Raw)

def Bindings.set (bs : Bindings) (name value : Raw) : Bindings :=
  (name, value) :: bs.filter fun (n, _) => n ≠ name

def nameValue (bs : Bindings) (x : Raw) : Except ArithmeticError Int :=
  let text := ((bs.lookup x).getD []).dropWhile isNumberBlank
  if text = [] then .ok 0
  else
    match number? (text.reverse.dropWhile isNumberBlank).reverse with
    | some n => .ok (wrap n)
    | none => .error (.badNumber ((bs.lookup x).getD []))

def Expression.value : Expression → Bindings → Except ArithmeticError (Int × Bindings)
  | number n, bs => .ok (wrap n, bs)
  | name x, bs => do
    let n ← nameValue bs x
    pure (n, bs)
  | unary s a, bs => do
    let (n, bs) ← a.value bs
    match s with
    | "-" => pure (wrap (-n), bs)
    | "!" => pure (truth (n == 0), bs)
    | "~" => pure (-n - 1, bs)
    | _ => pure (n, bs)
  | binary s a b, bs => do
    let (m, bs) ← a.value bs
    if s = "&&" ∧ m = 0 then pure (0, bs)
    else if s = "||" ∧ m ≠ 0 then pure (1, bs)
    else
      let (n, bs) ← b.value bs
      if s = "&&" ∨ s = "||" then pure (truth (n != 0), bs)
      else
        let r ← operate s m n
        pure (r, bs)
  | choice test yes no, bs => do
    let (n, bs) ← test.value bs
    if n ≠ 0 then yes.value bs else no.value bs
  | assign x operator a, bs => do
    let (n, bs) ← a.value bs
    match operator with
    | none => pure (n, bs.set x (numberText n))
    | some s =>
      let old ← nameValue bs x
      let r ← operate s old n
      pure (r, bs.set x (numberText r))

def arithmetic (bs : Bindings) (source : Raw) : Except ArithmeticError (Int × Bindings) := do
  let e ← Expression.ofSource source
  e.value bs

end InkServer.Shell
