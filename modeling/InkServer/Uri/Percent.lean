import InkServer.Text.Utf8

/-!
This module contains percent coding: a byte written as `%` and two hexadecimal digits.
-/

namespace InkServer.Uri

open Text

def percent : UInt8 := 37

/-- The value of a hexadecimal digit of either case. -/
def hexValue? (b : UInt8) : Option UInt8 :=
  if 48 ≤ b ∧ b ≤ 57 then some (b - 48)
  else if 65 ≤ b ∧ b ≤ 70 then some (b - 55)
  else if 97 ≤ b ∧ b ≤ 102 then some (b - 87)
  else none

/-- The upper-case hexadecimal digit of a value below 16. -/
def hexDigit (v : UInt8) : UInt8 :=
  if v < 10 then v + 48 else v + 55

/-- Put the byte in place of each percent code. A `%` that starts no code stays. -/
def percentDecode : Bytes → Bytes
  | [] => []
  | b :: rest =>
    if b = percent then
      match rest with
      | h :: l :: rest' =>
        match hexValue? h, hexValue? l with
        | some hv, some lv => (hv * 16 + lv) :: percentDecode rest'
        | _, _ => b :: percentDecode (h :: l :: rest')
      | [l] => b :: percentDecode [l]
      | [] => [b]
    else
      b :: percentDecode rest

def percentCode (b : UInt8) : Bytes :=
  [percent, hexDigit (b / 16), hexDigit (b % 16)]

/-- Write a percent code for each byte that `special` holds of. -/
def percentEncode (special : UInt8 → Bool) (bytes : Bytes) : Bytes :=
  bytes.flatMap fun b => if special b then percentCode b else [b]

end InkServer.Uri
