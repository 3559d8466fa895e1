/-!
# Arithmetic modulo the curve's prime

Numbers below `Curve.prime` with the operations that points are computed with.
-/

namespace CovenantStaking.Curve

/-- The prime of the field that coordinates lie in. -/
def prime : Nat :=
  0xfffffffffffffffffffffffffffffffffffffffffffffffffffffffefffffc2f

/-- The number of points of the curve. -/
def order : Nat :=
  0xfffffffffffffffffffffffffffffffebaaedce6af48a03bbfd25e8cd0364141

def add (a b : Nat) : Nat := (a + b) % prime

def sub (a b : Nat) : Nat := (a + (prime - b % prime)) % prime

def mul (a b : Nat) : Nat := a * b % prime

/-- `a` raised to the low `bits` bits of `exponent`. -/
def power (a : Nat) : (bits exponent : Nat) → Nat
  | 0, _ => 1
  | bits + 1, exponent =>
    let rest := power (mul a a) bits (exponent / 2)
    if exponent % 2 = 1 then mul a rest else rest

/-- The inverse of `a`, and zero for zero. -/
def inverse (a : Nat) : Nat := power a 256 (prime - 2)

/-- A square root of `a`, if it has one; `prime` leaves the remainder three on division by four. -/
def squareRoot? (a : Nat) : Option Nat :=
  let root := power a 256 ((prime + 1) / 4)
  if mul root root = a % prime then some root else none

end CovenantStaking.Curve
