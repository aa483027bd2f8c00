import InkServer.Text.Digit

/-!
This module contains the reading of unsigned numerals, decimal ones with an upper bound.
-/

namespace InkServer.Text

/-- The number that a string of ASCII digits stands for. -/
def numeralValue (cs : List Char) : Nat :=
  cs.foldl (fun n c => 10 * n + digitValue c) 0

/-- A non-empty string of ASCII digits whose value is below `bound`. -/
def readDigits? (bound : Nat) (cs : List Char) : Option Nat :=
  if cs ≠ [] ∧ cs.all isAsciiDigit ∧ numeralValue cs < bound then
    some (numeralValue cs)
  else
    none

/-- As `readDigits?`, with an optional plus sign in front. -/
def readUnsigned? (bound : Nat) : List Char → Option Nat
  | '+' :: cs => readDigits? bound cs
  | cs => readDigits? bound cs

def isHexDigit (c : Char) : Bool :=
  isAsciiDigit c || (65 ≤ c.toNat && c.toNat ≤ 70) || (97 ≤ c.toNat && c.toNat ≤ 102)

def hexDigitValue (c : Char) : Nat :=
  if isAsciiDigit c then digitValue c
  else if c.toNat ≤ 70 then c.toNat - 55
  else c.toNat - 87

/-- The number that digits stand for in a base up to 16. -/
def valueInBase (base : Nat) (cs : List Char) : Nat :=
  cs.foldl (fun n c => base * n + hexDigitValue c) 0

def bound32 : Nat := 1 <<< 32

def bound64 : Nat := 1 <<< 64

def numeral (n : Nat) : String :=
  String.ofList (Nat.toDigits 10 n)

end InkServer.Text
