import CovenantStaking.KeyPath.Bytes

/-!
# Requests

What the host sends for one session: an action and the fields it may need, each of them optional.
A field is asked for where it is used, and is then named if it is missing.
-/

namespace CovenantStaking

/-- The key that a message is signed for, as the host names it. -/
inductive MessageKey
  | xOnly (key : XOnlyKey)
  | compressed (key : PublicKey)
  deriving DecidableEq

def MessageKey.abscissa : MessageKey → XOnlyKey
  | xOnly key => key
  | compressed key => key.xOnly

structure Request where
  action : Option Action := none
  finalityProviders : Option (List XOnlyKey) := none
  covenantKeys : Option (List XOnlyKey) := none
  covenantQuorum : Option UInt8 := none
  stakerKey : Option XOnlyKey := none
  timelock : Option UInt64 := none
  slashingFeeLimit : Option UInt64 := none
  unbondingFeeLimit : Option UInt64 := none
  burnAddress : Option Bytes := none
  message : Option Bytes := none
  messageKey : Option MessageKey := none
  txid : Option Txid := none
  derivationPath : Option KeyPath := none
  deriving DecidableEq

namespace Request

def empty : Request := {}

def isEmpty (r : Request) : Bool :=
  r = empty

/-! ## Fields that must be there -/

/-- The keys of a list; an empty list is as good as none. -/
def presentKeys (keys : Option (List XOnlyKey)) (field : Field) :
    Except Failure (List XOnlyKey) :=
  present (keys.filter fun list => !list.isEmpty) field

def requireAction (r : Request) : Except Failure Action :=
  present r.action .action

def requireStakerKey (r : Request) : Except Failure XOnlyKey :=
  present r.stakerKey .stakerKey

def requireTimelock (r : Request) : Except Failure UInt64 :=
  present r.timelock .timelock

def requireProviders (r : Request) : Except Failure (List XOnlyKey) :=
  presentKeys r.finalityProviders .finalityProviders

def requireCovenantKeys (r : Request) : Except Failure (List XOnlyKey) :=
  presentKeys r.covenantKeys .covenantKeys

def requireQuorum (r : Request) : Except Failure UInt8 :=
  present r.covenantQuorum .covenantQuorum

theorem presentKeys_eq_ok_iff {keys : Option (List XOnlyKey)} {field : Field}
    {list : List XOnlyKey} :
    presentKeys keys field = .ok list ↔ keys = some list ∧ list ≠ [] := by
  rw [presentKeys, present_eq_ok_iff, Option.filter_eq_some_iff]
  simp

end Request

end CovenantStaking
