import CovenantStaking.Failure

/-!
# Policy

What the holder of the keys accepts: the network, the range of the fee limits, and the fee above
which a warning is due.
-/

namespace CovenantStaking

inductive Network
  | mainnet
  | testnet
  | signet
  | regtest
  deriving DecidableEq

namespace Network

def all : List Network :=
  [mainnet, testnet, signet, regtest]

def name : Network → String
  | mainnet => "mainnet"
  | testnet => "testnet"
  | signet => "signet"
  | regtest => "regtest"

/-- Whether coins that are burned have to be beyond anyone's reach. -/
def demandsUnspendableBurn (network : Network) : Bool :=
  network = mainnet

end Network

/-- The fee limits that are accepted, in sats. -/
structure FeeBounds where
  min : UInt64
  max : UInt64
  deriving DecidableEq

def FeeBounds.contains (bounds : FeeBounds) (sats : UInt64) : Bool :=
  bounds.min ≤ sats ∧ sats ≤ bounds.max

def FeeBounds.standard : FeeBounds where
  min := 1000
  max := 9000

structure Policy where
  network : Network := .mainnet
  /-- The fee limits that are accepted; without bounds all of them are. -/
  feeBounds : Option FeeBounds := some .standard
  /-- The fee above which an action without a fee rule is worth a warning. -/
  highFee : UInt64 := 9000
  deriving DecidableEq

namespace Policy

def standard : Policy := {}

/-- Fails if the bounds are the wrong way round. -/
def validate (policy : Policy) : Except Failure Unit :=
  match policy.feeBounds with
  | some bounds => ensure (bounds.min ≤ bounds.max) (.invertedBounds bounds.min bounds.max)
  | none => .ok ()

/-- Fails if a request's fee limit is outside the bounds. -/
def checkLimit (policy : Policy) (limit : FeeLimit) (sats : UInt64) : Except Failure Unit :=
  match policy.feeBounds with
  | some bounds =>
    ensure (bounds.contains sats) (.fee (.limitOutside limit sats bounds.min bounds.max))
  | none => .ok ()

end Policy

end CovenantStaking
