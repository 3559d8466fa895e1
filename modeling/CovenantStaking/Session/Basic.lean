import CovenantStaking.Blob.Reading
import CovenantStaking.Request.Rules
import CovenantStaking.Request.Terms
import CovenantStaking.Session.KeyPin

/-!
# Signing sessions

A session takes a parameter blob, then the transaction, and approves it only if every check of the
request's action passes:

    unparsed --load--> parsed --verify--> verified
        ^                 |                  |
        |                 +--- failure --> rejected
        +--------------- finish ------------+

Whatever fails leaves an empty request and a free pin behind; only a second `verify` of an approved
session fails and changes nothing.
-/

namespace CovenantStaking

variable [Crypto]

/-! ## Checks -/

def Action.allowsInputs (action : Action) (count : Nat) : Bool :=
  match action with
  | .staking => 1 ≤ count
  | .expansion => count = 2
  | _ => count = 1

def Action.leastOutputs : Action → Nat
  | .staking | .expansion | .unbond => 1
  | .slashing | .slashingUnbonding => 2
  | .withdraw | .signMessage => 0

/-- Fails unless the transaction has the inputs and outputs that the action needs. -/
def Transaction.checkShape (tx : Transaction) (action : Action) : Except Failure Unit := do
  ensure (action.allowsInputs tx.inputs.length)
    (.structural (.inputCount action tx.inputs.length))
  ensure (action.leastOutputs ≤ tx.outputs.length)
    (.structural (.outputCount action action.leastOutputs tx.outputs.length))

def Request.checkSentStaker (r : Request) (path : KeyPath) (derived : XOnlyKey) :
    Except Failure Unit :=
  match r.stakerKey with
  | some sent => ensure (sent = derived) (.identity (.stakerKey sent path))
  | none => .ok ()

/-- The key at the request's path, if it has one, and the request with that key for its staker. -/
def Request.deriveStaker (r : Request) (host : HostKeys) :
    Except Failure (Option PublicKey × Request) :=
  match r.derivationPath with
  | none => .ok (none, r)
  | some path => do
    let derived ← host path
    derived.validate
    r.checkSentStaker path derived.xOnly
    pure (some derived, { r with stakerKey := some derived.xOnly })

/-- Checks a transaction by the rules of the action, and names the leaf to sign under, if it spends
by a script. -/
def Request.checkTransaction (r : Request) (policy : Policy) (terms : Terms) (tx : Transaction) :
    Except Failure (Option TapNode) :=
  match terms with
  | .staking _ => do
    r.checkStaking tx
    pure none
  | .expansion _ => do
    let leaf ← r.checkExpansion tx
    pure (some leaf)
  | .unbond _ _ => do
    let _ ← r.checkUnbond policy tx
    let leaf ← r.unbondingLeaf
    pure (some leaf)
  | .slashing _ _ _ _ => do
    let _ ← r.checkSlashing policy tx
    let leaf ← r.slashingLeaf
    pure (some leaf)
  | .withdraw => pure none
  | .signMessage _ _ signer => do
    let _ ← r.checkMessage signer tx
    pure none

/-! ## Sessions -/

structure Approval where
  action : Action
  terms : Terms
  /-- What the transaction spends and does not pay out. -/
  fee : UInt64
  /-- The fee is high, and no rule of the action limits it. -/
  feeWarning : Bool
  leaf : Option TapNode
  deriving DecidableEq

structure Session where
  policy : Policy
  request : Request
  pin : KeyPin
  stage : Stage
  deriving DecidableEq

namespace Session

/-- A session in which nothing has happened. -/
def start (policy : Policy) : Session :=
  ⟨policy, .empty, .free, .unparsed⟩

/-- The session with nothing left in it, at a stage. -/
def cleared (s : Session) (stage : Stage) : Session :=
  { s with request := .empty, pin := .free, stage }

/-- Takes the request of a parameter blob. The pin stays, so that a later step of the same
transaction meets the key sets of the earlier one. -/
def load (s : Session) (blob : Bytes) : Except Failure Unit × Session :=
  match Request.load blob with
  | (.ok (), request) => (.ok (), { s with request, stage := .parsed })
  | (.error cause, request) => (.error cause, { s with request }.cleared .rejected)

end Session

/-- Steps on a session that may fail; what a step has changed stays changed when a later one
fails. -/
abbrev Steps := ExceptT Failure (StateM Session)

/-- What comes of steps, and the session that they leave. -/
def Steps.outcome {α : Type} (steps : Steps α) (s : Session) : Except Failure α × Session :=
  steps.run.run s

namespace Session

/-- Finds the key at the request's path, if it has one, and makes it the staker. -/
def resolveStaker (host : HostKeys) : Steps (Option PublicKey) := do
  let s ← get
  let (derived, request) ← s.request.deriveStaker host
  set { s with request }
  pure derived

/-- Holds the request against the pin, which does not outlast a failure. -/
def checkPin : Steps Unit := do
  let s ← get
  let (result, pin) := s.pin.check s.request
  set { s with pin }
  result

/-- Pins the key sets of a slashing. -/
def pinSlashing (action : Action) : Steps Unit :=
  if action.isSlashing then modify fun s => { s with pin := s.pin.hold s.request } else pure ()

/-- All checks of a request, one after the other. The key sets of a slashing are pinned before its
outputs are looked at. -/
def runChecks (tx : Transaction) (host : HostKeys) : Steps Approval := do
  let derived ← resolveStaker host
  let terms ← (← get).request.terms derived
  let action := terms.action
  tx.checkShape action
  let fee ← tx.fee
  checkPin
  pinSlashing action
  let s ← get
  let leaf ← s.request.checkTransaction s.policy terms tx
  let feeWarning := action.warnsOfFee && s.policy.highFee < fee
  pure { action, terms, fee, feeWarning, leaf }

/-- Holds a transaction against the request, with the host's keys. -/
def verify (s : Session) (tx : Transaction) (host : HostKeys) :
    Except Failure Approval × Session :=
  match s.stage with
  | .parsed =>
    match (runChecks tx host).outcome s with
    | (.ok approval, next) => (.ok approval, { next with stage := .verified })
    | (.error cause, next) => (.error cause, next.cleared .rejected)
  | .verified => (.error (.stage .alreadyVerified), s)
  | stage => (.error (.stage (.verifyIn stage)), s.cleared .rejected)

/-- Ends the session; nothing of it stays. -/
def finish (s : Session) : Session :=
  s.cleared .unparsed

end Session

end CovenantStaking
