import InkServer.Text.Printable
import InkServer.Uri.Address
import InkServer.Uri.Percent

/-!
This module contains the host of a file URI. Only three outcomes matter: the host is this machine,
it is some other one, or it is no host at all.
-/

namespace InkServer.Uri

open Text

inductive Host where
  | thisMachine
  | elsewhere
deriving DecidableEq

def isForbiddenInHost (c : Char) : Bool :=
  c.toNat ≤ 32 || c.toNat = 127 || "%#/:<>?@[\\]^|".toList.contains c

def isIgnoredInHost (c : Char) : Bool :=
  let n := c.toNat
  n = 0xAD || n = 0x200B || n = 0x2060 || n = 0xFEFF || n = 0x34F || (0xFE00 ≤ n && n ≤ 0xFE0F) ||
    (0xE0100 ≤ n && n ≤ 0xE01EF)

/-- The form in which a character of a host name is compared: lower case for ASCII, the narrow form
for a wide one, and a point for each kind of full stop. -/
def foldHostChar (c : Char) : Char :=
  let n := c.toNat
  let narrow :=
    if 0xFF01 ≤ n ∧ n ≤ 0xFF5E then Char.ofNat (n - 0xFEE0)
    else if n = 0x3002 ∨ n = 0xFF61 then '.'
    else if n = 0xA0 ∨ n = 0x3000 then ' '
    else c
  if 65 ≤ narrow.toNat ∧ narrow.toNat ≤ 90 then Char.ofNat (narrow.toNat + 32) else narrow

/-- The value of a digit of the coding of labels outside ASCII. -/
def labelDigit? (c : Char) : Option Nat :=
  if 'a' ≤ c ∧ c ≤ 'z' then some (c.toNat - 97)
  else if '0' ≤ c ∧ c ≤ '9' then some (c.toNat - 48 + 26)
  else none

/-- The digits form generalized variable-length integers that end within the text. -/
def labelDigitsOk (bias : Nat) (cs : List Char) : Bool :=
  go bias 36 cs
where
  go (bias k : Nat) : List Char → Bool
    | [] => k = 36
    | c :: rest =>
      match labelDigit? c with
      | none => false
      | some d =>
        let t := if k ≤ bias then 1 else if k ≥ bias + 26 then 26 else k - bias
        if d < t then go bias 36 rest else go bias (k + 36) rest

/-- A label in the coding for characters outside ASCII has digits after its last hyphen. -/
def isCodedLabelOk (label : List Char) : Bool :=
  match afterStart? "xn--".toList label with
  | none => true
  | some rest =>
    let digits :=
      match splitLast? '-' rest with
      | some (_, after) => after
      | none => rest
    digits ≠ [] && labelDigitsOk 72 digits

def Host.ofText? (text : List Char) : Option Host :=
  match text with
  | '[' :: rest =>
    if rest.getLast? = some ']' && isIpv6 rest.dropLast then some elsewhere else none
  | _ =>
    match decode? (percentDecode (encode text)) with
    | none => none
    | some chars =>
      let name := (chars.filter fun c => !isIgnoredInHost c).map foldHostChar
      if name = [] || name.any isForbiddenInHost ||
          name.any (fun c => c.toNat ≥ 128 && (!isPrintable c || c = '\uFFFD')) ||
          !(pieces '.' name).all isCodedLabelOk then
        none
      else if endsInNumber name then
        if isIpv4 name then some elsewhere else none
      else if name = "localhost".toList then
        some thisMachine
      else
        some elsewhere

end InkServer.Uri
