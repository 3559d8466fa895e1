import CovenantStaking.Blob.Writing
import CovenantStaking.Policy.Text
import CovenantStaking.Proofs.Bytes.Pieces
import CovenantStaking.Proofs.Outcome
import CovenantStaking.Proofs.Tapscript.Spending
import CovenantStaking.Session.Call
import CovenantStaking.Proofs.Blob.Value
import CovenantStaking.Proofs.Blob.Framing
import CovenantStaking.Proofs.Blob.Grammar
import CovenantStaking.Proofs.Request.Stake
import CovenantStaking.Proofs.Transaction.Balance
import CovenantStaking.Proofs.Request.Rules
import CovenantStaking.Proofs.Session.Approval
import CovenantStaking.Proofs.Session.Slashing
import CovenantStaking.Proofs.Session.KeySetFailure
import CovenantStaking.Proofs.Session.Steps
import CovenantStaking.Proofs.Session.Pinning
import CovenantStaking.Proofs.Tapscript.RelativeLock
import CovenantStaking.Proofs.Tapscript.Layout
import CovenantStaking.Proofs.Tapscript.Push
import CovenantStaking.Proofs.Tapscript.Roots
import CovenantStaking.Proofs.Request.Roots
import CovenantStaking.Proofs.Session.Staking
import CovenantStaking.Proofs.Session.Unbonding
import CovenantStaking.Proofs.Message.Text
import CovenantStaking.Proofs.Session.Origin
import CovenantStaking.Proofs.Session.Signing
import CovenantStaking.Proofs.Session.History
import CovenantStaking.Proofs.Session.Recovery
import CovenantStaking.Proofs.Message.Groups
import CovenantStaking.Proofs.Message.Binding
import CovenantStaking.Proofs.Blob.Order
import CovenantStaking.Proofs.Blob.Writing
import CovenantStaking.Proofs.Session.Staker
import CovenantStaking.Proofs.Blob.Fault
import CovenantStaking.Proofs.Session.Loosening
import CovenantStaking.Proofs.Session.Warning
import CovenantStaking.Proofs.Request.Agreement
import CovenantStaking.Proofs.Session.Agreement
import CovenantStaking.Proofs.Policy.Text
import CovenantStaking.Proofs.KeyPath.Text
import CovenantStaking.Proofs.KeyPath.Components
import CovenantStaking.Proofs.Session.Leaves
import CovenantStaking.Proofs.Session.FirstHold
