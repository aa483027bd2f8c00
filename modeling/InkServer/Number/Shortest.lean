import InkServer.Number.Binary64

/-!
This module contains the decimal text of a binary64 number: the fewest digits that read back as the
same number, the nearest of those, written positionally for moderate exponents.
-/

namespace InkServer.Binary64

/-- `a / b ≤ c / d` for positive denominators. -/
def ratioLe (a b c d : Nat) : Bool :=
  a * d ≤ c * b

def tenthed (num den : Nat) (k : Int) : Nat × Nat :=
  if 0 ≤ k then (num, den * Nat.pow 10 k.toNat) else (num * Nat.pow 10 (-k).toNat, den)

/-- The exponent of the first decimal digit of `num / den`, which is positive. -/
def decimalExponent (num den : Nat) : Int :=
  let guess : Int := (((Nat.log2 num : Int) - (Nat.log2 den : Int)) * 30103) / 100000 - 1
  climb 4 guess
where
  climb : Nat → Int → Int
    | 0, p => p
    | n + 1, p =>
      let (a, b) := tenthed num den (p + 1)
      if b ≤ a then climb n (p + 1) else p

/-- The stretch of reals that round to a number: both ends as fractions, and whether they belong to
it. -/
structure Interval where
  low : Nat × Nat
  high : Nat × Nat
  closed : Bool

/-- The reals that round to the positive number `x`. -/
def interval (x : Binary64) : Interval :=
  let m := x.significand
  let e := x.exponent
  let low :=
    if m = 1 <<< 52 ∧ e ≠ minExponent then scaled (4 * m - 1) (e - 2)
    else scaled (2 * m - 1) (e - 1)
  ⟨low, scaled (2 * m + 1) (e - 1), m % 2 = 0⟩

def Interval.contains (i : Interval) (num den : Nat) : Bool :=
  if i.closed then
    ratioLe i.low.1 i.low.2 num den && ratioLe num den i.high.1 i.high.2
  else
    !ratioLe num den i.low.1 i.low.2 && !ratioLe i.high.1 i.high.2 num den

/-- Digits and the exponent of the last of them. -/
structure Decimal where
  digits : Nat
  exponent : Int

def Decimal.ratio (d : Decimal) : Nat × Nat :=
  if 0 ≤ d.exponent then (d.digits * Nat.pow 10 d.exponent.toNat, 1)
  else (d.digits, Nat.pow 10 (-d.exponent).toNat)

/-- The nearest decimal with last digit at `10 ^ k` that reads back as `x`. -/
def decimalAt? (x : Binary64) (k : Int) : Option Decimal :=
  let (num, den) := x.ratio
  let (a, b) := tenthed num den k
  let below := a / b
  let fits (d : Nat) : Bool :=
    let (n, m) := (Decimal.mk d k).ratio
    x.interval.contains n m
  let nearer := if 2 * (a % b) < b || (2 * (a % b) = b && below % 2 = 0) then below else below + 1
  let other := if nearer = below then below + 1 else below
  if fits nearer then some ⟨nearer, k⟩
  else if fits other then some ⟨other, k⟩
  else none

/-- The shortest decimal that reads back as the positive number `x`. -/
def shortest (x : Binary64) : Decimal :=
  let (num, den) := x.ratio
  let p := decimalExponent num den
  search 17 p
where
  /-- Try the grid that ends at `10 ^ k`, then the finer ones. -/
  search : Nat → Int → Decimal
    | 0, k => ⟨0, k⟩
    | n + 1, k =>
      match decimalAt? x k with
      | some d => d
      | none => search n (k - 1)

/-- Move trailing zeros from the digits to the exponent. -/
def Decimal.trim (d : Decimal) : Decimal :=
  go 20 d
where
  go : Nat → Decimal → Decimal
    | 0, d => d
    | n + 1, d =>
      if d.digits ≠ 0 ∧ d.digits % 10 = 0 then go n ⟨d.digits / 10, d.exponent + 1⟩ else d

/-- The text of a decimal: positional while the point stands within sixteen places after the first
digit or five before it, scientific otherwise. -/
def Decimal.text (d : Decimal) : List Char :=
  let ds := Nat.toDigits 10 d.digits
  let point : Int := ds.length + d.exponent
  if 0 ≤ d.exponent ∧ point ≤ 16 then
    ds ++ List.replicate d.exponent.toNat '0' ++ ['.', '0']
  else if 0 < point ∧ point ≤ 16 then
    ds.take point.toNat ++ '.' :: ds.drop point.toNat
  else if -5 < point ∧ point ≤ 0 then
    ['0', '.'] ++ List.replicate (-point).toNat '0' ++ ds
  else
    let power := point - 1
    let exponentText :=
      if power < 0 then '-' :: Nat.toDigits 10 (-power).toNat else Nat.toDigits 10 power.toNat
    match ds with
    | [] => []
    | [c] => c :: 'e' :: exponentText
    | c :: cs => c :: '.' :: cs ++ 'e' :: exponentText

def text (x : Binary64) : List Char :=
  let magnitude := if x.isZero then ['0', '.', '0'] else x.shortest.trim.text
  if x.negative then '-' :: magnitude else magnitude

end InkServer.Binary64
