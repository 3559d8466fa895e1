import CovenantStaking.Curve.Point
import CovenantStaking.Failure
import CovenantStaking.Hash.Tagged

/-!
# Keys as points

When a public key names a point of the curve, and the key of an output: an internal key moved by a
multiple of the generator that the root of a tree of scripts decides.
-/

namespace CovenantStaking

/-- The prefixes of a key that is given by its abscissa. -/
def PublicKey.knownForms : List UInt8 :=
  [2, 3, 5]

/-- Fails unless the key names a point of the curve. -/
def PublicKey.validate (key : PublicKey) : Except Failure Unit :=
  ensure (key.form ∈ knownForms ∧ (Curve.lift? key.xOnly.toNat).isSome) (.crypto .invalidPublicKey)

def PublicKey.ofHex (text : String) : Except Failure PublicKey :=
  match Octets.ofHex 33 text with
  | .ok octets => .ok ⟨octets⟩
  | .error fault => .error (.crypto (.hex fault))

namespace XOnlyKey

/-- The multiple of the generator by which a root moves an internal key. -/
def tweakScalar (internal : XOnlyKey) (root : TapNode) : Nat :=
  (taggedHash tweakTag (internal.bytes ++ root.bytes)).toNat

/-- The key of the output that hides a tree of scripts behind an internal key, and its parity. -/
def tweak (internal : XOnlyKey) (root : TapNode) : Except Failure (XOnlyKey × Parity) :=
  match Curve.lift? internal.toNat with
  | none => .error (.crypto (.internalKeyOffCurve internal))
  | some point =>
    let scalar := internal.tweakScalar root
    if Curve.order ≤ scalar then .error (.crypto .tweakAboveOrder)
    else
      let step := Curve.Scaled.multiple (.ofPoint Curve.generator) 256 scalar
      match (Curve.Scaled.add (.ofPoint point) step).toPoint? with
      | none => .error (.crypto .tweakedToInfinity)
      | some p => .ok (⟨.ofNat 32 p.x⟩, if p.y % 2 = 0 then .even else .odd)

/-- A key that nobody holds: the abscissa is the digest of the generator. -/
def unspendable : XOnlyKey :=
  ⟨.ofNat 32 0x50929b74c1a04954b78b4b6035e97a5e078a5a0f28ec96d547bfee9ace803ac0⟩

end XOnlyKey

end CovenantStaking
