import ElementCompiler.Decimal.Double
import ElementCompiler.Text.Basic

set_option autoImplicit false

/-!
How a double is written: the fewest digits that read back, with a point in the middle for magnitudes
from 1e-4 up to 1e16 and with an exponent of at least two digits elsewhere.

A double is decoded into `m * 2 ^ q`; the numbers that round to it form an interval, whose ends belong
to it exactly when `m` is even. For one, two, … seventeen digits the two neighbours of the value on that
decimal grid are tried.
-/

namespace ElementCompiler.Decimal

/-- A positive double, `mant * 2 ^ (expo - 1076)`, where `mant` is four times its significand, so
    that half a unit on each side is a whole number; `low` and `high` bound what rounds to it. -/
structure Spread where
  low : Nat
  mant : Nat
  high : Nat
  expo : Nat
  closed : Bool

/-- Decimal digits: the value is `0.digits * 10 ^ point`. -/
structure Digits where
  digits : Nat
  point : Int

def spreadOfBits (bits : Nat) : Spread :=
  let fraction := bits % Nat.pow 2 52
  let exponent := bits / Nat.pow 2 52 % Nat.pow 2 11
  let m := if exponent = 0 then fraction else fraction + Nat.pow 2 52
  let low := if fraction = 0 && exponent > 1 then 4 * m - 1 else 4 * m - 2
  ⟨low, 4 * m, 4 * m + 2, max exponent 1 - 1, m % 2 = 0⟩

/-- Numerator and denominator of `n * 2 ^ (expo - 1076)`. -/
def ratio (n expo : Nat) : Nat × Nat :=
  if expo ≤ 1076 then (n, Nat.pow 2 (1076 - expo)) else (n * Nat.pow 2 (expo - 1076), 1)

/-- The number of decimal digits before the point, or how far the first digit is behind it: the
    least `k` with `num / den < 10 ^ k`. -/
def magnitude (num den : Nat) : Int :=
  if den ≤ num then ((Nat.toDigits 10 (num / den)).length : Int)
  else match (List.range 400).find? fun j => den ≤ num * Nat.pow 10 j with
    | some j => 1 - (j : Int)
    | none => 0

/-- Whether `c * 10 ^ p` lies between the bounds. -/
def Spread.holds (s : Spread) (c : Nat) (p : Int) : Bool :=
  let side (n : Nat) : Nat × Nat :=
    let r := ratio n s.expo
    if p ≥ 0 then (c * Nat.pow 10 p.toNat * r.2, r.1) else (c * r.2, r.1 * Nat.pow 10 (-p).toNat)
  let lo := side s.low
  let hi := side s.high
  if s.closed then lo.2 ≤ lo.1 && hi.1 ≤ hi.2 else lo.2 < lo.1 && hi.1 < hi.2

/-- The neighbour with `count` digits that lies between the bounds, the nearer one of two. -/
def Spread.onGrid? (s : Spread) (k : Int) (count : Nat) : Option Nat :=
  let p := k - count
  let r := ratio s.mant s.expo
  let scaled : Nat × Nat :=
    if p ≥ 0 then (r.1, r.2 * Nat.pow 10 p.toNat) else (r.1 * Nat.pow 10 (-p).toNat, r.2)
  let c := scaled.1 / scaled.2
  let rest := scaled.1 % scaled.2
  match s.holds c p, s.holds (c + 1) p with
  | true, true =>
    if 2 * rest < scaled.2 then some c
    else if 2 * rest > scaled.2 then some (c + 1)
    else some (if c % 2 = 0 then c else c + 1)
  | true, false => some c
  | false, true => some (c + 1)
  | false, false => none

/-- Trailing zeros go; `fuel` bounds their number. -/
def trimZeros : Nat → Nat → Nat
  | 0, n => n
  | fuel + 1, n => if n % 10 = 0 && n != 0 then trimZeros fuel (n / 10) else n

def shortest (bits : Nat) : Digits :=
  let s := spreadOfBits bits
  let r := ratio s.mant s.expo
  let k := magnitude r.1 r.2
  match (List.range 18).findSome? fun count =>
      if count = 0 then none else (s.onGrid? k count).map (·, count) with
  | some (c, count) =>
    let point := if c = Nat.pow 10 count then k + 1 else k
    ⟨trimZeros 20 c, point⟩
  | none => ⟨0, 0⟩

/-- What is not a number of digits is written as the format says. -/
structure Layout where
  infinity : Text
  negativeInfinity : Text
  notANumber : Text

def zeros (n : Nat) : Text := List.replicate n '0'

/-- The decimal digits of a number. -/
def digitsOf (n : Nat) : Text := (Nat.toDigits 10 n).map .char

def exponentText (e : Int) : Text :=
  let digits := digitsOf e.natAbs
  (if e < 0 then Text.ofString "e-" else "e+") ++ zeros (2 - digits.length) ++ digits

def Digits.text (d : Digits) : Text :=
  let ds := digitsOf d.digits
  if -4 < d.point && d.point ≤ 16 then
    if d.point ≤ 0 then "0." ++ zeros (-d.point).toNat ++ ds
    else
      let n := d.point.toNat
      if ds.length ≤ n then ds ++ zeros (n - ds.length) ++ ".0"
      else ds.take n ++ "." ++ ds.drop n
  else
    let lead := ds.take 1
    let rest := ds.drop 1
    (if rest.isEmpty then lead else lead ++ "." ++ rest) ++ exponentText (d.point - 1)

def Layout.text (layout : Layout) (x : Float) : Text :=
  let sign : Text := if Double.isNegative x then "-" else ""
  if Double.isNoNumber x then layout.notANumber
  else if Double.isInfinite x then
    if Double.isNegative x then layout.negativeInfinity else layout.infinity
  else if Double.isZero x then sign ++ "0.0"
  else sign ++ (shortest (Double.magnitude x)).text

/-- The double nearest to `digits * 10 ^ exponent`; beyond four hundred places it is zero or
    infinite, whatever the digits are. -/
def read (negative : Bool) (digits : Nat) (exponent : Int) : Float :=
  let places := exponent + ((Nat.toDigits 10 digits).length : Int)
  let x :=
    if digits = 0 || places < -400 then 0.0
    else if places > 400 then 1.0 / 0.0
    else if exponent < 0 then Float.ofScientific digits true exponent.natAbs
    else Float.ofScientific digits false exponent.natAbs
  if negative then -x else x

end ElementCompiler.Decimal
