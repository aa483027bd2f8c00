import InkServer.Text.Printable

/-!
This module contains the quoted form of a text, as it appears inside messages: double quotes around
it, and an escape for everything that would not be seen as itself.
-/

namespace InkServer.Text

def hexText (n : Nat) : List Char :=
  Nat.toDigits 16 n

def codePointEscape (c : Char) : List Char :=
  "\\u\x7b".toList ++ hexText c.toNat ++ ['\x7d']

def quoteChar (c : Char) : List Char :=
  if c = '\x00' then ['\\', '0']
  else if c = '\t' then ['\\', 't']
  else if c = '\n' then ['\\', 'n']
  else if c = '\r' then ['\\', 'r']
  else if c = '"' then ['\\', '"']
  else if c = '\\' then ['\\', '\\']
  else if 0x20 ≤ c.toNat ∧ c.toNat < 0x7F then [c]
  else if isExtending c || !isPrintable c then codePointEscape c
  else [c]

def quoted (s : String) : String :=
  String.ofList ('"' :: s.toList.flatMap quoteChar ++ ['"'])

end InkServer.Text
