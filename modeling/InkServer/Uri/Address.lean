import InkServer.Text.Numeral
import InkServer.Text.Split

/-!
This module contains the numeric forms of a host: four numbers with points between them, and eight
groups of hexadecimal digits with colons between them. Only whether a text is such a form matters
here.
-/

namespace InkServer.Uri

open Text

/-- A number as it may stand in an IPv4 address: decimal, octal after `0`, or hexadecimal after
`0x`. -/
def ipv4Number? (cs : List Char) : Option Nat :=
  match cs with
  | [] => none
  | '0' :: 'x' :: rest => hexadecimal rest
  | '0' :: 'X' :: rest => hexadecimal rest
  | '0' :: c :: rest =>
    if (c :: rest).all fun d => '0' ≤ d && d ≤ '7' then some (valueInBase 8 (c :: rest)) else none
  | _ => if cs.all isAsciiDigit then some (valueInBase 10 cs) else none
where
  hexadecimal (digits : List Char) : Option Nat :=
    if digits.all isHexDigit then some (valueInBase 16 digits) else none

/-- The parts of a host between its points, without an empty last one. -/
def hostParts (host : List Char) : List (List Char) :=
  let parts := pieces '.' host
  if parts.length ≥ 2 ∧ parts.getLast? = some [] then parts.dropLast else parts

/-- The last part of the host is a number, so that the host has to be an IPv4 address. -/
def endsInNumber (host : List Char) : Bool :=
  match (hostParts host).getLast? with
  | some last => (last ≠ [] && last.all isAsciiDigit) || (ipv4Number? last).isSome
  | none => false

def isIpv4 (host : List Char) : Bool :=
  let parts := hostParts host
  match parts.mapM ipv4Number? with
  | none => false
  | some numbers =>
    match numbers.reverse with
    | [] => false
    | last :: before =>
      before.length ≤ 3 && before.all (· ≤ 255) && last < 1 <<< (8 * (4 - before.length))

/-- A decimal number from 0 to 255 without needless zeros, as it stands at the end of an IPv6
address. -/
def isOctet (cs : List Char) : Bool :=
  cs ≠ [] && cs.all isAsciiDigit && numeralValue cs ≤ 255 && (cs.length = 1 || cs.head? ≠ some '0')

/-- The number of 16-bit groups in a stretch of an IPv6 address between double colons, if it is
well-formed. Four octets with points may stand for the last two groups. -/
def ipv6Groups? (final : Bool) (stretch : List Char) : Option Nat :=
  if stretch = [] then
    some 0
  else
    go (pieces ':' stretch)
where
  go : List (List Char) → Option Nat
    | [] => some 0
    | [g] =>
      if isGroup g then some 1
      else if final && isQuad g then some 2
      else none
    | g :: gs => if isGroup g then (go gs).map (· + 1) else none
  isGroup (g : List Char) : Bool :=
    g ≠ [] && g.length ≤ 4 && g.all isHexDigit
  isQuad (g : List Char) : Bool :=
    (pieces '.' g).length = 4 && (pieces '.' g).all isOctet

def cutDoubleColon? : List Char → Option (List Char × List Char)
  | ':' :: ':' :: rest => some ([], rest)
  | c :: rest => (cutDoubleColon? rest).map fun (before, after) => (c :: before, after)
  | [] => none

def isIpv6 (text : List Char) : Bool :=
  match cutDoubleColon? text with
  | none =>
    ipv6Groups? true text = some 8
  | some (before, after) =>
    match ipv6Groups? false before, ipv6Groups? true after with
    | some m, some n => m + n ≤ 7
    | _, _ => false

end InkServer.Uri
