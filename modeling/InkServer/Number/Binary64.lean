/-!
This module contains finite binary64 numbers as exact values, with rounding to the nearest one (a
half goes to the even neighbour), products and quotients.
-/

namespace InkServer

/-- The finite number `± significand * 2 ^ exponent`, where the significand has 53 bits unless the
exponent is the least one. -/
structure Binary64 where
  negative : Bool
  significand : Nat
  exponent : Int
deriving DecidableEq

namespace Binary64

def minExponent : Int := -1074

def maxExponent : Int := 971

def zero (negative : Bool) : Binary64 :=
  ⟨negative, 0, minExponent⟩

def isZero (x : Binary64) : Bool :=
  x.significand = 0

def scaled (n : Nat) (e : Int) : Nat × Nat :=
  if 0 ≤ e then (n <<< e.toNat, 1) else (n, 1 <<< (-e).toNat)

/-- The quotient rounded to the nearest integer, a half to the even neighbour. -/
def roundDiv (num den : Nat) : Nat :=
  let q := num / den
  let r := num % den
  if 2 * r > den || (2 * r = den && q % 2 = 1) then q + 1 else q

/-- The quotient `num / (den * 2 ^ e)` as a fraction of whole numbers. -/
def shifted (num den : Nat) (e : Int) : Nat × Nat :=
  if 0 ≤ e then (num, den <<< e.toNat) else (num <<< (-e).toNat, den)

/-- The nonnegative number nearest to `num / den`, or `none` when it is too large. -/
def ofRatio? (num den : Nat) : Option Binary64 :=
  if num = 0 then
    some (zero false)
  else
    let guess : Int := (Nat.log2 num : Int) - (Nat.log2 den : Int) - 52
    let (n, d) := shifted num den guess
    let e := if n / d < 1 <<< 52 then guess - 1 else guess
    let e := if e < minExponent then minExponent else e
    let (n, d) := shifted num den e
    let m := roundDiv n d
    let (m, e) := if m = 1 <<< 53 then (1 <<< 52, e + 1) else (m, e)
    if e > maxExponent then none else some ⟨false, m, e⟩

def ratio (x : Binary64) : Nat × Nat :=
  scaled x.significand x.exponent

def ofNat? (n : Nat) : Option Binary64 :=
  ofRatio? n 1

def mul? (x y : Binary64) : Option Binary64 :=
  let (a, b) := x.ratio
  let (c, d) := y.ratio
  ofRatio? (a * c) (b * d)

def div? (x y : Binary64) : Option Binary64 :=
  let (a, b) := x.ratio
  let (c, d) := y.ratio
  ofRatio? (a * d) (b * c)

end Binary64

end InkServer
