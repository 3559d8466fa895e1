import CovenantStaking.Request.Basic

/-!
# Pinned key sets

The first approval of a slashing pins the key sets that it was given for. Until the pin is taken
back, no request with other key sets passes, and one that tries takes the pin with it.
-/

namespace CovenantStaking

/-- The key sets of a request, as they were sent; no list is not the same as an empty one. -/
structure KeySets where
  finalityProviders : Option (List XOnlyKey)
  covenantKeys : Option (List XOnlyKey)
  covenantQuorum : Option UInt8
  deriving DecidableEq

def Request.keySets (r : Request) : KeySets :=
  ⟨r.finalityProviders, r.covenantKeys, r.covenantQuorum⟩

/-- The first part in which key sets differ. -/
def KeySets.difference? (a b : KeySets) : Option KeySetPart :=
  if a.finalityProviders ≠ b.finalityProviders then some .finalityProviders
  else if a.covenantKeys ≠ b.covenantKeys then some .covenantKeys
  else if a.covenantQuorum ≠ b.covenantQuorum then some .covenantQuorum
  else none

theorem KeySets.difference?_eq_none_iff {a b : KeySets} : a.difference? b = none ↔ a = b := by
  obtain ⟨providers, keys, quorum⟩ := a
  obtain ⟨providers', keys', quorum'⟩ := b
  by_cases hp : providers = providers' <;> by_cases hk : keys = keys' <;>
    by_cases hq : quorum = quorum' <;> simp [difference?, hp, hk, hq]

/-- The key sets that were approved, if any. -/
structure KeyPin where
  held : Option KeySets
  deriving DecidableEq

namespace KeyPin

def free : KeyPin := ⟨none⟩

def isPopulated (pin : KeyPin) : Bool :=
  pin.held.isSome

/-- Pins the key sets of a request, unless some are pinned already. -/
def hold (pin : KeyPin) (r : Request) : KeyPin :=
  match pin.held with
  | some _ => pin
  | none => ⟨some r.keySets⟩

/-- Fails if other key sets than those of the request are pinned. -/
def accept (pin : KeyPin) (r : Request) : Except Failure Unit :=
  match pin.held with
  | none => .ok ()
  | some sets =>
    match sets.difference? r.keySets with
    | none => .ok ()
    | some part => .error (.keySet part)

/-- The outcome of holding a request against the pin, and the pin afterwards: free after a
failure. -/
def check (pin : KeyPin) (r : Request) : Except Failure Unit × KeyPin :=
  match pin.accept r with
  | .ok () => (.ok (), pin)
  | .error cause => (.error cause, free)

/-! ## Runs -/

inductive Use
  | hold (r : Request)
  | check (r : Request)
  | release

/-- What a check among the uses of a pin says, and the pin after a use. -/
def step (pin : KeyPin) : Use → Option (Except Failure Unit) × KeyPin
  | .hold r => (none, pin.hold r)
  | .check r =>
    let (result, next) := pin.check r
    (some result, next)
  | .release => (none, free)

def run (pin : KeyPin) (uses : List Use) : KeyPin :=
  uses.foldl (fun pin use => (pin.step use).2) pin

end KeyPin

end CovenantStaking
