import InkServer.Text.Utf8

/-!
This module contains raw text: bytes shown as characters, each of which stands for one byte.
-/

namespace InkServer.Text

/-- Text in which each character stands for one byte. -/
abbrev Raw := List Char

def rawOf (bytes : Bytes) : Raw :=
  bytes.map fun b => Char.ofNat b.toNat

def rawOfString (s : String) : Raw :=
  rawOf (bytesOf s)

def rawBytes (r : Raw) : Bytes :=
  r.map fun c => UInt8.ofNat c.toNat

end InkServer.Text
