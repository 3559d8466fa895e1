import CovenantStaking.Message.Bech32
import CovenantStaking.Message.Signer
import CovenantStaking.Tapscript.Tree

/-!
# The transaction that stands for a message

A message is signed by spending a transaction that no one can send. It has one input, which holds
the digest of the message's text, and one output without value, which the signer's address guards.
-/

namespace CovenantStaking

variable [Crypto]

namespace Message

def readablePart : List Char :=
  ['b', 'b', 'n']

def text (message : Bytes) : Except Failure (List Char) :=
  match Bech32.encode? readablePart message with
  | some text => .ok text
  | none => .error (.crypto .messageTooLong)

def digest (message : Bytes) : Except Failure (Octets 32) := do
  let text ← text message
  pure (Crypto.taggedHash messageTag (ascii (String.ofList text)))

end Message

def Signer.script : Signer → Bytes
  | taproot key => key.outputScript
  | nativeSegwit key => Opcode.zero :: Opcode.push20 :: (Crypto.hash160 key.bytes).bytes

/-- A script with its length, which one byte holds, in front. -/
def lengthPrefixed (script : Bytes) : Bytes :=
  UInt8.ofNat script.length :: script

/-- The transaction that stands for a message's digest and a signer. -/
def toSpend (digest : Octets 32) (signer : Signer) : Bytes :=
  let version := leBytes 4 0
  let spent := List.replicate 32 0 ++ leBytes 4 0xffffffff
  let proof := lengthPrefixed (Opcode.zero :: Opcode.push32 :: digest.bytes)
  let sequence := leBytes 4 0
  let amount := leBytes 8 0
  let lockTime := leBytes 4 0
  version ++ 1 :: spent ++ proof ++ sequence ++ 1 :: amount ++ lengthPrefixed signer.script
    ++ lockTime

/-- The id of the transaction that stands for a message and a signer. -/
def toSpendId (message : Bytes) (signer : Signer) : Except Failure Txid := do
  let digest ← Message.digest message
  pure ⟨Crypto.doubleSha256 (toSpend digest signer)⟩

end CovenantStaking
