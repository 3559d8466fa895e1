import CovenantStaking.Bytes.Basic

/-!
# Digests by blocks

What the digests have in common: the message is filled up to whole blocks of 64 bytes, and a state
takes in one block after the other.
-/

namespace CovenantStaking.Hash

/-- The message, a set bit, zeros, and at the very end of a block its length in bits, which
`lengthBytes` writes in eight bytes. -/
def pad (lengthBytes : Nat → Bytes) (message : Bytes) : Bytes :=
  let zeros := List.replicate ((119 - message.length % 64) % 64) 0
  message ++ (0x80 :: zeros) ++ lengthBytes (8 * message.length)

/-- The state after the first `count` blocks. -/
def absorb {State : Type} (compress : State → Bytes → State) :
    (count : Nat) → State → Bytes → State
  | 0, s, _ => s
  | count + 1, s, bytes => absorb compress count (compress s (bytes.take 64)) (bytes.drop 64)

/-- The state after all whole blocks. -/
def absorbAll {State : Type} (compress : State → Bytes → State) (s : State) (bytes : Bytes) :
    State :=
  absorb compress (bytes.length / 64) s bytes

end CovenantStaking.Hash
