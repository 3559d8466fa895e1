import CovenantStaking.Curve.Field

/-!
# Points of the curve y² = x³ + 7

Sums and multiples are computed without division: a point `(X, Y, Z)` stands for
`(X / Z², Y / Z³)`, and every point with `Z = 0` for the point at infinity.
-/

namespace CovenantStaking.Curve

structure Point where
  x : Nat
  y : Nat
  deriving DecidableEq

/-- The point that multiples are counted in. -/
def generator : Point where
  x := 0x79be667ef9dcbbac55a06295ce870b07029bfcdb2dce28d959f2815b16f81798
  y := 0x483ada7726a3c4655da4fbfc0e1108a8fd17b448a68554199c47d08ffb10d4b8

/-- The point of the curve with abscissa `x` and even ordinate. -/
def lift? (x : Nat) : Option Point :=
  if x < prime then
    match squareRoot? (add (mul x (mul x x)) 7) with
    | some y => some ⟨x, if y % 2 = 0 then y else sub 0 y⟩
    | none => none
  else none

/-- A point by three coordinates, so that no step of a sum divides. -/
structure Scaled where
  x : Nat
  y : Nat
  z : Nat

namespace Scaled

def infinity : Scaled := ⟨1, 1, 0⟩

def ofPoint (p : Point) : Scaled := ⟨p.x, p.y, 1⟩

/-- The point's coordinates; the point at infinity has none. -/
def toPoint? (p : Scaled) : Option Point :=
  if p.z = 0 then none
  else
    let w := inverse p.z
    let w2 := mul w w
    some ⟨mul p.x w2, mul p.y (mul w w2)⟩

/-- The tangent's sum `p + p`. -/
def double (p : Scaled) : Scaled :=
  let y2 := mul p.y p.y
  let s := mul 4 (mul p.x y2)
  let m := mul 3 (mul p.x p.x)
  let x := sub (mul m m) (mul 2 s)
  ⟨x, sub (mul m (sub s x)) (mul 8 (mul y2 y2)), mul 2 (mul p.y p.z)⟩

def add (p q : Scaled) : Scaled :=
  if p.z = 0 then q
  else if q.z = 0 then p
  else
    let pz2 := mul p.z p.z
    let qz2 := mul q.z q.z
    let u1 := mul p.x qz2
    let u2 := mul q.x pz2
    let s1 := mul p.y (mul q.z qz2)
    let s2 := mul q.y (mul p.z pz2)
    if u1 = u2 then
      if s1 = s2 then double p else infinity
    else
      let h := sub u2 u1
      let r := sub s2 s1
      let h2 := mul h h
      let h3 := mul h h2
      let v := mul u1 h2
      let x := sub (sub (mul r r) h3) (mul 2 v)
      ⟨x, sub (mul r (sub v x)) (mul s1 h3), mul h (mul p.z q.z)⟩

/-- The sum of as many copies of `p` as the low `bits` bits of `count` say. -/
def multiple (p : Scaled) : (bits count : Nat) → Scaled
  | 0, _ => infinity
  | bits + 1, count =>
    let half := multiple p bits (count / 2)
    let twice := double half
    if count % 2 = 1 then add twice p else twice

end Scaled

end CovenantStaking.Curve
