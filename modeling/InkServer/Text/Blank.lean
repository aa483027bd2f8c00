/-!
This module contains the White_Space property of characters and the operations that strip blanks
from the ends of a text.
-/

namespace InkServer.Text

def isBlank (c : Char) : Bool :=
  let n := c.toNat
  (9 ≤ n && n ≤ 13) || n == 0x20 || n == 0x85 || n == 0xA0 || n == 0x1680 ||
    (0x2000 ≤ n && n ≤ 0x200A) || n == 0x2028 || n == 0x2029 || n == 0x202F || n == 0x205F ||
    n == 0x3000

def trimStart (cs : List Char) : List Char :=
  cs.dropWhile isBlank

def trimEnd (cs : List Char) : List Char :=
  (cs.reverse.dropWhile isBlank).reverse

def trim (cs : List Char) : List Char :=
  trimEnd (trimStart cs)

def allBlank (cs : List Char) : Bool :=
  cs.all isBlank

@[simp]
theorem trimStart_nil : trimStart [] = [] := rfl

@[simp]
theorem allBlank_nil : allBlank [] = true := rfl

def trimmed (s : String) : String :=
  String.ofList (trim s.toList)

def isBlankText (s : String) : Bool :=
  allBlank s.toList

end InkServer.Text
