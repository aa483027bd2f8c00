import InkServer.Text.Numeral
import InkServer.Text.Split
import InkServer.Toml.Basic

/-!
This module contains the scalars of TOML: strings in their four spellings, numbers, and dates.
-/

namespace InkServer.Toml

open Text

def isSpace (c : Char) : Bool :=
  c = ' ' || c = '\t'

def skipSpace (cs : List Char) : List Char :=
  cs.dropWhile isSpace

/-- A character that may stand in a string or a comment as itself. -/
def isPlain (c : Char) : Bool :=
  c = '\t' || (c.toNat ≥ 0x20 && c.toNat ≠ 0x7F)

def lineEnd? : List Char → Option (List Char)
  | '\n' :: rest => some rest
  | '\r' :: '\n' :: rest => some rest
  | _ => none

/-- The character with a code of `n` hexadecimal digits, and what follows it. -/
def codePoint? (n : Nat) (cs : List Char) : Option (Char × List Char) :=
  let digits := cs.take n
  if digits.length = n ∧ digits.all isHexDigit then
    let v := valueInBase 16 digits
    if v < 0xD800 ∨ (0xE000 ≤ v ∧ v ≤ 0x10FFFF) then some (Char.ofNat v, cs.drop n) else none
  else
    none

def escape? : List Char → Option (Char × List Char)
  | 'b' :: rest => some ('\x08', rest)
  | 't' :: rest => some ('\t', rest)
  | 'n' :: rest => some ('\n', rest)
  | 'f' :: rest => some ('\x0c', rest)
  | 'r' :: rest => some ('\r', rest)
  | 'e' :: rest => some ('\x1b', rest)
  | '"' :: rest => some ('"', rest)
  | '\\' :: rest => some ('\\', rest)
  | 'x' :: rest => codePoint? 2 rest
  | 'u' :: rest => codePoint? 4 rest
  | 'U' :: rest => codePoint? 8 rest
  | _ => none

def basicBody? : Nat → List Char → List Char → Option (String × List Char)
  | 0, _, _ => none
  | _ + 1, _, [] => none
  | fuel + 1, before, c :: rest =>
    if c = '"' then some (String.ofList before.reverse, rest)
    else if c = '\\' then
      match escape? rest with
      | some (d, rest) => basicBody? fuel (d :: before) rest
      | none => none
    else if isPlain c then basicBody? fuel (c :: before) rest
    else none

def literalBody? (cs : List Char) : Option (String × List Char) :=
  match splitFirst? '\x27' cs with
  | some (body, rest) => if body.all isPlain then some (String.ofList body, rest) else none
  | none => none

/-- After a backslash at the end of a line: the text at the next character that is no blank. -/
def continuation? (cs : List Char) : Option (List Char) :=
  match lineEnd? (skipSpace cs) with
  | some rest => some (rest.dropWhile fun c => isSpace c || c = '\n' || c = '\r')
  | none => none

/-- Quotes at the end of a string that spans lines: up to two belong to the string itself. -/
def closing? (quote : Char) (cs : List Char) : Option (List Char × List Char) :=
  let n := (cs.takeWhile (· = quote)).length
  if n < 3 then none
  else if n ≤ 5 then some (List.replicate (n - 3) quote, cs.drop n)
  else some (List.replicate 2 quote, cs.drop 5)

def basicLines? : Nat → List Char → List Char → Option (String × List Char)
  | 0, _, _ => none
  | _ + 1, _, [] => none
  | fuel + 1, before, c :: rest =>
    match closing? '"' (c :: rest) with
    | some (quotes, rest) => some (String.ofList (before.reverse ++ quotes), rest)
    | none =>
      if c = '\\' then
        match escape? rest with
        | some (d, rest) => basicLines? fuel (d :: before) rest
        | none =>
          match continuation? rest with
          | some rest => basicLines? fuel before rest
          | none => none
      else
        match lineEnd? (c :: rest) with
        | some rest => basicLines? fuel ('\n' :: before) rest
        | none => if isPlain c then basicLines? fuel (c :: before) rest else none

def literalLines? : Nat → List Char → List Char → Option (String × List Char)
  | 0, _, _ => none
  | _ + 1, _, [] => none
  | fuel + 1, before, c :: rest =>
    match closing? '\x27' (c :: rest) with
    | some (quotes, rest) => some (String.ofList (before.reverse ++ quotes), rest)
    | none =>
      match lineEnd? (c :: rest) with
      | some rest => literalLines? fuel ('\n' :: before) rest
      | none => if isPlain c then literalLines? fuel (c :: before) rest else none

/-- A string of one line, as it may also stand for a key. -/
def quotedText? : List Char → Option (String × List Char)
  | '"' :: rest => basicBody? (rest.length + 1) [] rest
  | '\x27' :: rest => literalBody? rest
  | _ => none

/-- A string in any of its spellings. A line end right after three quotes does not count. -/
def string? : List Char → Option (String × List Char)
  | '"' :: '"' :: '"' :: rest =>
    let rest := (lineEnd? rest).getD rest
    basicLines? (rest.length + 1) [] rest
  | '\x27' :: '\x27' :: '\x27' :: rest =>
    let rest := (lineEnd? rest).getD rest
    literalLines? (rest.length + 1) [] rest
  | cs => quotedText? cs

/-- Digits of a class, with single underscores between them. -/
def isDigits (digit : Char → Bool) (cs : List Char) : Bool :=
  (pieces '_' cs).all fun p => p ≠ [] && p.all digit

/-- Decimal digits without needless zeros in front. -/
def isDecimal (cs : List Char) : Bool :=
  isDigits isAsciiDigit cs && (cs.length = 1 || cs.head? ≠ some '0')

def unsigned : List Char → List Char
  | '+' :: rest => rest
  | '-' :: rest => rest
  | cs => cs

def digitsValue (base : Nat) (cs : List Char) : Nat :=
  valueInBase base (cs.filter (· ≠ '_'))

def isInteger (cs : List Char) : Bool :=
  match cs with
  | '0' :: 'x' :: rest => isDigits isHexDigit rest && digitsValue 16 rest < 1 <<< 128
  | '0' :: 'o' :: rest =>
    isDigits (fun c => '0' ≤ c && c ≤ '7') rest && digitsValue 8 rest < 1 <<< 128
  | '0' :: 'b' :: rest =>
    isDigits (fun c => c = '0' || c = '1') rest && digitsValue 2 rest < 1 <<< 128
  | '-' :: rest => isDecimal rest && digitsValue 10 rest ≤ 1 <<< 127
  | _ => isDecimal (unsigned cs) && digitsValue 10 (unsigned cs) < 1 <<< 128

def isExponent (cs : List Char) : Bool :=
  isDigits isAsciiDigit (unsigned cs)

def exponentValue : List Char → Int
  | '-' :: rest => -(digitsValue 10 rest)
  | cs => digitsValue 10 (unsigned cs)

/-- Whether the digits times a power of ten round to a finite number of 64 bits. Far from the limit
the number of digits decides, so that no huge power is computed. -/
def isFinite (digits : List Char) (exponent : Int) : Bool :=
  let digits := (digits.filter (· ≠ '_')).dropWhile (· = '0')
  let places := digits.length + exponent
  let limit := 1 <<< 1024 - 1 <<< 970
  digits = [] || places < 309 ||
    (places = 309 &&
      numeralValue digits * Nat.pow 10 exponent.toNat < limit * Nat.pow 10 (-exponent).toNat)

/-- A number with a point or an exponent, or one of the special numbers. -/
def isFloat (cs : List Char) : Bool :=
  let body := unsigned cs
  if body = "inf".toList ∨ body = "nan".toList then true
  else
    let mantissa := body.takeWhile fun c => c ≠ 'e' && c ≠ 'E'
    let exponent := (body.dropWhile fun c => c ≠ 'e' && c ≠ 'E').drop 1
    let hasExponent := mantissa.length < body.length
    (!hasExponent || isExponent exponent) &&
      match splitFirst? '.' mantissa with
      | some (whole, fraction) =>
        isDecimal whole && isDigits isAsciiDigit fraction &&
          isFinite (whole ++ fraction)
            (exponentValue exponent - (fraction.filter (· ≠ '_')).length)
      | none => hasExponent && isDecimal mantissa && isFinite mantissa (exponentValue exponent)

/-- Two digits whose value lies in a range. -/
def isPair (low high : Nat) (cs : List Char) : Bool :=
  cs.length = 2 && cs.all isAsciiDigit && low ≤ numeralValue cs && numeralValue cs ≤ high

def daysOf (year month : Nat) : Nat :=
  if month = 2 then
    if (year % 4 = 0 ∧ year % 100 ≠ 0) ∨ year % 400 = 0 then 29 else 28
  else if month = 4 ∨ month = 6 ∨ month = 9 ∨ month = 11 then 30
  else 31

def isDate (cs : List Char) : Bool :=
  match pieces '-' cs with
  | [year, month, day] =>
    year.length = 4 && year.all isAsciiDigit && isPair 1 12 month &&
      isPair 1 (daysOf (numeralValue year) (numeralValue month)) day
  | _ => false

/-- A time of day. The seconds may be left out. -/
def isTime (cs : List Char) : Bool :=
  match pieces ':' cs with
  | [hour, minute] => isPair 0 23 hour && isPair 0 59 minute
  | [hour, minute, second] =>
    isPair 0 23 hour && isPair 0 59 minute &&
      match splitFirst? '.' second with
      | some (whole, fraction) => isPair 0 60 whole && fraction ≠ [] && fraction.all isAsciiDigit
      | none => isPair 0 60 second
  | _ => false

def isOffset (cs : List Char) : Bool :=
  match pieces ':' cs with
  | [hour, minute] => isPair 0 23 hour && isPair 0 59 minute
  | _ => false

def isTimeWithOffset (cs : List Char) : Bool :=
  match cs.getLast? with
  | some 'Z' => isTime cs.dropLast
  | some 'z' => isTime cs.dropLast
  | _ =>
    let time := cs.takeWhile fun c => c ≠ '+' && c ≠ '-'
    match cs.dropWhile fun c => c ≠ '+' && c ≠ '-' with
    | _ :: offset => isTime time && isOffset offset
    | [] => isTime cs

def isDatetime (cs : List Char) : Bool :=
  isDate cs || isTime cs ||
    match cs.drop 10 with
    | c :: time => (c = 'T' || c = 't' || c = ' ') && isDate (cs.take 10) && isTimeWithOffset time
    | [] => false

def isWordChar (c : Char) : Bool :=
  isAsciiDigit c || ('a' ≤ c && c ≤ 'z') || ('A' ≤ c && c ≤ 'Z') || c = '_' || c = '+' || c = '-' ||
    c = '.' || c = ':'

/-- The word at the start of a text. A date may be joined to a time by one blank. -/
def word (cs : List Char) : List Char × List Char :=
  let first := cs.takeWhile isWordChar
  let rest := cs.dropWhile isWordChar
  match rest with
  | ' ' :: d :: more =>
    if isDate first && isAsciiDigit d then
      (first ++ ' ' :: (d :: more).takeWhile isWordChar, (d :: more).dropWhile isWordChar)
    else
      (first, rest)
  | _ => (first, rest)

def ofWord? (w : List Char) : Option Value :=
  if w = "true".toList then some (.bool true)
  else if w = "false".toList then some (.bool false)
  else if isInteger w then some .integer
  else if isFloat w then some .float
  else if isDatetime w then some .datetime
  else none

end InkServer.Toml
