/-!
This module contains the UTF-8 coding of texts as lists of bytes: encoding, strict decoding, and
decoding that puts U+FFFD in place of each ill-formed stretch.
-/

namespace InkServer.Text

abbrev Bytes := List UInt8

def encode (cs : List Char) : Bytes :=
  cs.flatMap String.utf8EncodeChar

def bytesOf (s : String) : Bytes :=
  encode s.toList

@[simp]
theorem encode_nil : encode [] = [] := rfl

@[simp]
theorem encode_cons (c : Char) (cs : List Char) :
    encode (c :: cs) = String.utf8EncodeChar c ++ encode cs := rfl

@[simp]
theorem encode_append (cs ds : List Char) : encode (cs ++ ds) = encode cs ++ encode ds := by
  simp [encode]

/-- `b` may stand after the first byte of a character. -/
def isContinuation (b : UInt8) : Bool :=
  0x80 ≤ b && b ≤ 0xBF

/-- The bytes that may follow the lead byte `b` directly, when `b` starts a character of three or four
bytes. -/
def secondByteOk (b second : UInt8) : Bool :=
  if b = 0xE0 then 0xA0 ≤ second && second ≤ 0xBF
  else if b = 0xED then 0x80 ≤ second && second ≤ 0x9F
  else if b = 0xF0 then 0x90 ≤ second && second ≤ 0xBF
  else if b = 0xF4 then 0x80 ≤ second && second ≤ 0x8F
  else isContinuation second

def continuationBits (b : UInt8) : Nat :=
  b.toNat % 64

/-- The first character of a byte string: `some` of the character, or `none` for an ill-formed
stretch, with the number of bytes it takes beyond the first. -/
def headChar (b : UInt8) (rest : Bytes) : Option Char × Nat :=
  if b < 0x80 then (some (Char.ofNat b.toNat), 0)
  else if 0xC2 ≤ b && b ≤ 0xDF then
    match rest with
    | c :: _ =>
      if isContinuation c then
        (some (Char.ofNat ((b.toNat % 32) * 64 + continuationBits c)), 1)
      else (none, 0)
    | [] => (none, 0)
  else if 0xE0 ≤ b && b ≤ 0xEF then
    match rest with
    | c :: d :: _ =>
      if secondByteOk b c then
        if isContinuation d then
          (some (Char.ofNat
            ((b.toNat % 16) * 4096 + continuationBits c * 64 + continuationBits d)), 2)
        else (none, 1)
      else (none, 0)
    | [c] => (none, if secondByteOk b c then 1 else 0)
    | [] => (none, 0)
  else if 0xF0 ≤ b && b ≤ 0xF4 then
    match rest with
    | c :: d :: e :: _ =>
      if secondByteOk b c then
        if isContinuation d then
          if isContinuation e then
            (some (Char.ofNat ((b.toNat % 8) * 262144 + continuationBits c * 4096 +
              continuationBits d * 64 + continuationBits e)), 3)
          else (none, 2)
        else (none, 1)
      else (none, 0)
    | [c, d] =>
      (none, if secondByteOk b c then if isContinuation d then 2 else 1 else 0)
    | [c] => (none, if secondByteOk b c then 1 else 0)
    | [] => (none, 0)
  else (none, 0)

/-- The characters of a byte string, `none` for each ill-formed stretch. -/
def decodeUnits (bytes : Bytes) : List (Option Char) :=
  match bytes with
  | [] => []
  | b :: rest =>
    let (c, n) := headChar b rest
    c :: decodeUnits (rest.drop n)
termination_by bytes.length
decreasing_by
  simp only [List.length_drop, List.length_cons]
  omega

def decode? (bytes : Bytes) : Option (List Char) :=
  (decodeUnits bytes).mapM id

/-- The characters of a byte string, with U+FFFD for each ill-formed stretch. -/
def decodeLossy (bytes : Bytes) : List Char :=
  (decodeUnits bytes).map (·.getD '\uFFFD')

def stringOf? (bytes : Bytes) : Option String :=
  (decode? bytes).map String.ofList

/-- The string of a byte string, with U+FFFD for each ill-formed stretch. -/
def stringOfLossy (bytes : Bytes) : String :=
  String.ofList (decodeLossy bytes)

end InkServer.Text
