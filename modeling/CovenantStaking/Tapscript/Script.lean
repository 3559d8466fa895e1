import CovenantStaking.Tapscript.Number

/-!
# The three scripts of a stake

A stake can be lost with the consent of the staker, every finality provider and a quorum of the
covenant; it can be unbonded by the staker and the quorum; and the staker alone can take it once a
relative lock has ended.
-/

namespace CovenantStaking

namespace Opcode

def push20 : UInt8 := 0x14
def push32 : UInt8 := 0x20
def zero : UInt8 := 0x00
def one : UInt8 := 0x51
def returns : UInt8 := 0x6a
def numEqual : UInt8 := 0x9c
def checkSig : UInt8 := 0xac
def checkSigVerify : UInt8 := 0xad
def checkSequenceVerify : UInt8 := 0xb2
def checkSigAdd : UInt8 := 0xba

end Opcode

namespace Tapscript

/-- The longest lock, in blocks, that a script can hold. -/
def maxTimelock : Nat := 0x7fffffff

/-- Fails unless a lock is at least one block and at most the longest. -/
def ensureLockable (blocks : UInt64) : Except Failure Unit :=
  ensure (0 < blocks.toNat ∧ blocks.toNat ≤ maxTimelock) (.timelock blocks)

/-! ## Parts -/

def pushKey (key : XOnlyKey) : Bytes :=
  Opcode.push32 :: key.bytes

def demandSignature (key : XOnlyKey) : Bytes :=
  pushKey key ++ [Opcode.checkSigVerify]

def countSignatures : List XOnlyKey → Bytes
  | [] => []
  | first :: rest =>
    let more := rest.flatMap fun key => pushKey key ++ [Opcode.checkSigAdd]
    pushKey first ++ [Opcode.checkSig] ++ more

/-- Demands signatures by exactly `quorum` of the covenant's keys. -/
def demandQuorum (covenant : List XOnlyKey) (quorum : UInt8) : Bytes :=
  countSignatures covenant ++ pushNumber quorum.toNat ++ [Opcode.numEqual]

/-! ## Scripts -/

/-- The staker, every finality provider, and the covenant's quorum. -/
def slashing (staker : XOnlyKey) (providers covenant : List XOnlyKey) (quorum : UInt8) : Bytes :=
  demandSignature staker ++ providers.flatMap demandSignature ++ demandQuorum covenant quorum

/-- The staker and the covenant's quorum. -/
def unbonding (staker : XOnlyKey) (covenant : List XOnlyKey) (quorum : UInt8) : Bytes :=
  demandSignature staker ++ demandQuorum covenant quorum

/-- The staker, once `blocks` blocks lie on top of the output. -/
def lockedSpend (staker : XOnlyKey) (blocks : UInt64) : Bytes :=
  demandSignature staker ++ pushNumber blocks.toNat ++ [Opcode.checkSequenceVerify]

/-- The script of the staker's own way out, if the lock is one that a script can hold. -/
def timelock (staker : XOnlyKey) (blocks : UInt64) : Except Failure Bytes := do
  ensureLockable blocks
  pure (lockedSpend staker blocks)

end Tapscript

/-- The script of an output that holds a key, with which it can be spent. -/
def XOnlyKey.outputScript (key : XOnlyKey) : Bytes :=
  Opcode.one :: Opcode.push32 :: key.bytes

@[simp] theorem XOnlyKey.outputScript_length (key : XOnlyKey) : key.outputScript.length = 34 := by
  simp [outputScript]

end CovenantStaking
