import CovenantStaking.Bytes.Basic

/-!
# Bech32

A text that carries bytes: a readable part, a separator, the bytes in groups of five bits, and six
characters of checksum, all drawn from an alphabet of 32 characters.
-/

namespace CovenantStaking.Bech32

def alphabet : List Char :=
  "qpzry9x8gf2tvdw0s3jn54khce6mua7l".toList

def symbol (group : Nat) : Char :=
  alphabet.getD group 'q'

def maxLength : Nat := 1023

/-! ## Groups of five bits -/

/-- The bits of a byte, the most significant first. -/
def bits (b : UInt8) : List Bool :=
  [7, 6, 5, 4, 3, 2, 1, 0].map b.toNat.testBit

/-- The number that five bits spell, the most significant first; bits that are wanting are zero. -/
def group (bits : List Bool) : Nat :=
  [0, 1, 2, 3, 4].foldl (fun n i => 2 * n + (bits.getD i false).toNat) 0

/-- Bits in groups of five; the last group is filled up with zeros. -/
def regroup : List Bool → List Nat
  | a :: b :: c :: d :: e :: rest => group [a, b, c, d, e] :: regroup rest
  | [] => []
  | last => [group last]

def groups (data : Bytes) : List Nat :=
  regroup (data.flatMap bits)

/-! ## Checksum -/

def coefficients : List Nat :=
  [0x3b6a57b2, 0x26508e6d, 0x1ea119fa, 0x3d4233dd, 0x2a1462b3]

/-- One more group in the checksum. -/
def checksumStep (sum group : Nat) : Nat :=
  let top := sum >>> 25
  let shifted := ((sum &&& 0x1ffffff) <<< 5) ^^^ group
  (coefficients.zipIdx.filter fun (_, i) => top.testBit i).foldl (fun s (c, _) => s ^^^ c) shifted

/-- The readable part as groups: its high bits, a zero, its low bits. -/
def expand (readable : List Char) : List Nat :=
  readable.map (fun c => c.toNat / 32) ++ [0] ++ readable.map (fun c => c.toNat % 32)

/-- The six groups of checksum that follow the data. -/
def checksum (readable : List Char) (data : List Nat) : List Nat :=
  let sum := (expand readable ++ data ++ List.replicate 6 0).foldl checksumStep 1 ^^^ 1
  [5, 4, 3, 2, 1, 0].map fun i => (sum >>> (5 * i)) % 32

/-! ## Text -/

/-- The text that carries `data` under a readable part. -/
def encode (readable : List Char) (data : Bytes) : List Char :=
  let gs := groups data
  readable ++ '1' :: (gs ++ checksum readable gs).map symbol

def encode? (readable : List Char) (data : Bytes) : Option (List Char) :=
  let text := encode readable data
  if text.length ≤ maxLength then some text else none

end CovenantStaking.Bech32
