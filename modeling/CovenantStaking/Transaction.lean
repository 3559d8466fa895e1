import CovenantStaking.Tapscript.Tree

/-!
# The transaction to be signed

The parts of a transaction that are checked, its totals and its fee. A total is a number of 64 bits
or a failure, never a sum that has wrapped around.
-/

namespace CovenantStaking

structure Transaction.Input where
  txid : Txid
  /-- The coin's place among that transaction's outputs. -/
  vout : UInt32
  amount : UInt64
  /-- The leaf that the coin is spent through, if the host names one. -/
  leaf : Option TapNode
  deriving DecidableEq

structure Transaction.Output where
  script : Bytes
  amount : UInt64
  deriving DecidableEq

structure Transaction where
  inputs : List Transaction.Input
  outputs : List Transaction.Output
  deriving DecidableEq

/-- Fails where the sum of two words is not a word. -/
def checkedAdd (overflow : Failure) (a b : UInt64) : Except Failure UInt64 :=
  if a.toNat + b.toNat < UInt64.size then .ok (a + b) else .error overflow

/-- The sum of the amounts at the first `count` places, each looked up when its turn comes. -/
def checkedTotal (overflow : Failure) (amountAt : Nat → Except Failure UInt64) (count : Nat) :
    Except Failure UInt64 :=
  (List.range count).foldlM (fun total index => amountAt index >>= checkedAdd overflow total) 0

namespace Transaction

def input (tx : Transaction) (index : Nat) : Except Failure Transaction.Input :=
  match tx.inputs[index]? with
  | some input => .ok input
  | none => .error (.structural (.noInput index))

def output (tx : Transaction) (index : Nat) : Except Failure Transaction.Output :=
  match tx.outputs[index]? with
  | some output => .ok output
  | none => .error (.structural (.noOutput index))

def inputTotal (tx : Transaction) : Except Failure UInt64 :=
  checkedTotal (.structural .inputsOverflow) (fun index => Input.amount <$> tx.input index)
    tx.inputs.length

def outputTotal (tx : Transaction) : Except Failure UInt64 :=
  checkedTotal (.structural .outputsOverflow) (fun index => Output.amount <$> tx.output index)
    tx.outputs.length

/-- What the transaction spends and does not pay out. -/
def fee (tx : Transaction) : Except Failure UInt64 := do
  let inputs ← tx.inputTotal
  let outputs ← tx.outputTotal
  ensure (outputs ≤ inputs) (.fee (.overspent outputs inputs))
  pure (inputs - outputs)

end Transaction

end CovenantStaking
