import CovenantStaking.Bytes.Basic

/-!
# What a session signs

The seven actions, the codes they are sent under and the names they go by.
-/

namespace CovenantStaking

inductive Action
  /-- Lock coins in a new stake. -/
  | staking
  /-- Move a stake to an output that is free once its lock ends. -/
  | unbond
  /-- Agree beforehand to the loss of a stake. -/
  | slashing
  /-- Agree beforehand to the loss of a stake that is being unbonded. -/
  | slashingUnbonding
  /-- Spend an output whose lock has ended. -/
  | withdraw
  /-- Sign a message with the key of an address. -/
  | signMessage
  /-- Spend a stake, with more coins, into a larger one. -/
  | expansion
  deriving DecidableEq

namespace Action

def all : List Action :=
  [staking, unbond, slashing, slashingUnbonding, withdraw, signMessage, expansion]

def code : Action → UInt8
  | staking => 1
  | unbond => 2
  | slashing => 3
  | slashingUnbonding => 4
  | withdraw => 5
  | signMessage => 6
  | expansion => 7

def ofCode? (code : UInt8) : Option Action :=
  all.find? fun a => a.code = code

/-- The name in error messages and in JSON. -/
def name : Action → String
  | staking => "Staking"
  | unbond => "Unbond"
  | slashing => "Slashing"
  | slashingUnbonding => "SlashingUnbonding"
  | withdraw => "Withdraw"
  | signMessage => "SignMessage"
  | expansion => "Expansion"

/-- The name shown to the person who approves. -/
def title : Action → String
  | staking => "Staking transaction"
  | unbond => "Unbonding"
  | slashing => "Consent to slashing"
  | slashingUnbonding => "Consent to unbonding slashing"
  | withdraw => "Withdraw"
  | signMessage => "Sign message"
  | expansion => "Stake expansion"

/-- Whether the approval of this action pins the key sets for what follows. -/
def isSlashing : Action → Bool
  | slashing | slashingUnbonding => true
  | _ => false

/-- Whether a high fee of this action is worth a warning: no other rule limits it. -/
def warnsOfFee : Action → Bool
  | staking | expansion | withdraw => true
  | _ => false

@[simp] theorem ofCode?_code (a : Action) : ofCode? a.code = some a := by
  cases a <;> rfl

theorem code_of_ofCode? {code : UInt8} {a : Action} (h : ofCode? code = some a) :
    a.code = code := by
  simpa using List.find?_some h

end Action

end CovenantStaking
