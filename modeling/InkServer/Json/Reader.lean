import InkServer.Json.Basic
import InkServer.Text.Numeral

/-!
This module contains the reading of JSON texts. The reader is strict, bounds the nesting of arrays
and objects, and lets the later of two members with one key count.
-/

namespace InkServer.Json

open Text

def isSpace (c : Char) : Bool :=
  c = ' ' || c = '\n' || c = '\t' || c = '\r'

def skipSpace (cs : List Char) : List Char :=
  cs.dropWhile isSpace

def hex4? : List Char → Option (Nat × List Char)
  | a :: b :: c :: d :: rest =>
    if [a, b, c, d].all isHexDigit then some (valueInBase 16 [a, b, c, d], rest) else none
  | _ => none

/-- The character after `\u`, which may take a second code for its other half. -/
def unicode? (cs : List Char) : Option (Char × List Char) :=
  match hex4? cs with
  | none => none
  | some (n, rest) =>
    if 0xDC00 ≤ n ∧ n ≤ 0xDFFF then
      none
    else if 0xD800 ≤ n ∧ n ≤ 0xDBFF then
      match rest with
      | '\\' :: 'u' :: rest =>
        match hex4? rest with
        | some (m, rest) =>
          if 0xDC00 ≤ m ∧ m ≤ 0xDFFF then
            some (Char.ofNat (0x10000 + (n - 0xD800) * 0x400 + (m - 0xDC00)), rest)
          else
            none
        | none => none
      | _ => none
    else
      some (Char.ofNat n, rest)

def escape? : List Char → Option (Char × List Char)
  | '"' :: rest => some ('"', rest)
  | '\\' :: rest => some ('\\', rest)
  | '/' :: rest => some ('/', rest)
  | 'b' :: rest => some ('\x08', rest)
  | 'f' :: rest => some ('\x0c', rest)
  | 'n' :: rest => some ('\n', rest)
  | 'r' :: rest => some ('\r', rest)
  | 't' :: rest => some ('\t', rest)
  | 'u' :: rest => unicode? rest
  | _ => none

/-- The text up to the closing quote, and what follows it. `before` holds the characters read so
far, last first. -/
def stringBody? : Nat → List Char → List Char → Option (String × List Char)
  | 0, _, _ => none
  | _ + 1, _, [] => none
  | fuel + 1, before, c :: rest =>
    if c = '"' then
      some (String.ofList before.reverse, rest)
    else if c = '\\' then
      match escape? rest with
      | some (d, rest) => stringBody? fuel (d :: before) rest
      | none => none
    else if c.toNat < 0x20 then
      none
    else
      stringBody? fuel (c :: before) rest

/-- Digits added to a significand of 64 bits until one would not fit; what is left of the digits, and
how many were taken. -/
def takeDigits (significand taken : Nat) : List Char → Nat × Nat × List Char
  | [] => (significand, taken, [])
  | c :: rest =>
    if 10 * significand + digitValue c < bound64 then
      takeDigits (10 * significand + digitValue c) (taken + 1) rest
    else
      (significand, taken, c :: rest)

def powerOfTen? (n : Nat) : Option Binary64 :=
  Binary64.ofNat? (Nat.pow 10 n)

/-- `x` divided by `10 ^ n`, in steps of at most 308 places. -/
def divideByPower : Nat → Binary64 → Nat → Option Binary64
  | 0, x, _ => some x
  | fuel + 1, x, n =>
    if n ≤ 308 then
      (powerOfTen? n).bind x.div?
    else if x.isZero then
      some x
    else
      match (powerOfTen? 308).bind x.div? with
      | some y => divideByPower fuel y (n - 308)
      | none => none

/-- The number with the given significand of 64 bits and decimal exponent. -/
def floatOf? (negative : Bool) (significand : Nat) (exponent : Int) : Option Number :=
  let magnitude :=
    match Binary64.ofNat? significand with
    | none => none
    | some x =>
      if 0 ≤ exponent then
        if exponent ≤ 308 then (powerOfTen? exponent.toNat).bind x.mul?
        else if x.isZero then some x
        else none
      else if exponent < -2000 then some (Binary64.zero false)
      else divideByPower 8 x (-exponent).toNat
  magnitude.map fun x => .float { x with negative }

def exponentPart? (cs : List Char) : Option (Int × List Char) :=
  let (negative, cs) :=
    match cs with
    | '+' :: rest => (false, rest)
    | '-' :: rest => (true, rest)
    | _ => (false, cs)
  let digits := cs.takeWhile isAsciiDigit
  if digits = [] then none
  else
    let n : Int := numeralValue digits
    some (if negative then -n else n, cs.dropWhile isAsciiDigit)

def floatEnd? (negative : Bool) (significand : Nat) (exponent : Int) (cs : List Char) :
    Option (Number × List Char) :=
  match cs with
  | c :: rest =>
    if c = 'e' ∨ c = 'E' then
      match exponentPart? rest with
      | some (e, rest) => (floatOf? negative significand (exponent + e)).map fun x => (x, rest)
      | none => none
    else
      (floatOf? negative significand exponent).map fun x => (x, cs)
  | [] => (floatOf? negative significand exponent).map fun x => (x, [])

/-- A number, and what follows it. Digits beyond the 64 bits of the significand only count by their
place. -/
def number? (cs : List Char) : Option (Number × List Char) :=
  let negative := cs.head? = some '-'
  let cs := if negative then cs.drop 1 else cs
  let whole := cs.takeWhile isAsciiDigit
  let rest := cs.dropWhile isAsciiDigit
  if whole = [] || (whole.length > 1 && whole.head? = some '0') then
    none
  else
    let (significand, _, excess) := takeDigits 0 0 whole
    let exponent : Int := excess.length
    match rest with
    | '.' :: tail =>
      let digits := tail.takeWhile isAsciiDigit
      if digits = [] then
        none
      else
        let (significand, taken, _) := takeDigits significand 0 digits
        floatEnd? negative significand (exponent - taken) (tail.dropWhile isAsciiDigit)
    | c :: _ =>
      if c = 'e' ∨ c = 'E' then floatEnd? negative significand exponent rest
      else wholeEnd negative significand excess rest
    | [] => wholeEnd negative significand excess rest
where
  wholeEnd (negative : Bool) (significand : Nat) (excess rest : List Char) :
      Option (Number × List Char) :=
    if excess ≠ [] then
      floatEnd? negative significand excess.length rest
    else if !negative then
      some (.natural significand, rest)
    else if significand = 0 ∨ significand > 1 <<< 63 then
      (floatOf? true significand 0).map fun x => (x, rest)
    else
      some (.negative (significand - 1), rest)

mutual

def value? : Nat → Nat → List Char → Option (Json × List Char)
  | 0, _, _ => none
  | fuel + 1, depth, cs =>
    match skipSpace cs with
    | 'n' :: 'u' :: 'l' :: 'l' :: rest => some (.null, rest)
    | 't' :: 'r' :: 'u' :: 'e' :: rest => some (.bool true, rest)
    | 'f' :: 'a' :: 'l' :: 's' :: 'e' :: rest => some (.bool false, rest)
    | '"' :: rest => (stringBody? (rest.length + 1) [] rest).map fun (s, rest) => (.string s, rest)
    | '[' :: rest =>
      match depth with
      | 0 => none
      | depth + 1 =>
        match skipSpace rest with
        | ']' :: rest => some (.array [], rest)
        | rest => (items? fuel depth [] rest).map fun (vs, rest) => (.array vs, rest)
    | '\x7b' :: rest =>
      match depth with
      | 0 => none
      | depth + 1 =>
        match skipSpace rest with
        | '\x7d' :: rest => some (.object [], rest)
        | rest => (members? fuel depth [] rest).map fun (ms, rest) => (ofMembers ms, rest)
    | c :: rest => (number? (c :: rest)).map fun (n, rest) => (.number n, rest)
    | [] => none

/-- The items of an array that is not empty, up to its end. -/
def items? : Nat → Nat → List Json → List Char → Option (List Json × List Char)
  | 0, _, _, _ => none
  | fuel + 1, depth, before, cs =>
    match value? fuel depth cs with
    | none => none
    | some (v, rest) =>
      match skipSpace rest with
      | ',' :: rest => items? fuel depth (v :: before) rest
      | ']' :: rest => some ((v :: before).reverse, rest)
      | _ => none

/-- The members of an object that is not empty, up to its end. -/
def members? : Nat → Nat → List (String × Json) → List Char →
    Option (List (String × Json) × List Char)
  | 0, _, _, _ => none
  | fuel + 1, depth, before, cs =>
    match skipSpace cs with
    | '"' :: rest =>
      match stringBody? (rest.length + 1) [] rest with
      | none => none
      | some (key, rest) =>
        match skipSpace rest with
        | ':' :: rest =>
          match value? fuel depth rest with
          | none => none
          | some (v, rest) =>
            match skipSpace rest with
            | ',' :: rest => members? fuel depth ((key, v) :: before) rest
            | '\x7d' :: rest => some (((key, v) :: before).reverse, rest)
            | _ => none
        | _ => none
    | _ => none

end

/-- The value of a text in which at most `depth` arrays and objects stand inside each other. -/
def ofChars? (depth : Nat) (cs : List Char) : Option Json :=
  match value? (2 * cs.length + 2) depth cs with
  | some (v, rest) => if skipSpace rest = [] then some v else none
  | none => none

end InkServer.Json
