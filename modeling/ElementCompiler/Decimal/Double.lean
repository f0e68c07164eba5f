set_option autoImplicit false

/-!
Doubles by their bits: which are no number, infinite, zero or below zero, and which are whole
numbers. Powers are written `Nat.pow`, so that they do not depend on the instances that are there.
-/

namespace ElementCompiler.Double

def bits (x : Float) : Nat := x.toBits.toNat

/-- The bits without that of the sign. -/
def magnitude (x : Float) : Nat := bits x % Nat.pow 2 63

/-- The magnitude of what is infinite; what is no number lies above it. -/
def infiniteMagnitude : Nat := 2047 * Nat.pow 2 52

def isNegative (x : Float) : Bool := Nat.pow 2 63 ≤ bits x

def isZero (x : Float) : Bool := magnitude x == 0

def isInfinite (x : Float) : Bool := magnitude x == infiniteMagnitude

def isNoNumber (x : Float) : Bool := infiniteMagnitude < magnitude x

/-- The whole number `m * 2 ^ (e - 1075)`, if it is one. -/
def scaled? (m e : Nat) : Option Nat :=
  if 1075 ≤ e then some (m * Nat.pow 2 (e - 1075))
  else if m % Nat.pow 2 (1075 - e) = 0 then some (m / Nat.pow 2 (1075 - e))
  else none

/-- The whole number that a double is. -/
def whole? (x : Float) : Option Int :=
  let exponent := magnitude x / Nat.pow 2 52
  let fraction := magnitude x % Nat.pow 2 52
  if exponent = 2047 then none
  else
    let n := if exponent = 0 then scaled? fraction 1 else scaled? (fraction + Nat.pow 2 52) exponent
    n.map fun n => if isNegative x then -(n : Int) else n

end ElementCompiler.Double
