import CovenantStaking.Hash.Block

/-!
# RIPEMD-160

Two lines of eighty steps run over each block of sixteen words and are joined at its end.
-/

namespace CovenantStaking

namespace Ripemd160

/-- A word of 32 bits turned left by `n` places, `0 < n < 32`. -/
def rotateLeft (x n : UInt32) : UInt32 :=
  (x <<< n) ||| (x >>> (32 - n))

structure State where
  a : UInt32
  b : UInt32
  c : UInt32
  d : UInt32
  e : UInt32
  deriving DecidableEq

def initial : State :=
  ⟨0x67452301, 0xefcdab89, 0x98badcfe, 0x10325476, 0xc3d2e1f0⟩

/-- Which word of the block each step of the left line takes. -/
def leftWords : List Nat :=
  [0, 1, 2, 3, 4, 5, 6, 7, 8, 9, 10, 11, 12, 13, 14, 15,
   7, 4, 13, 1, 10, 6, 15, 3, 12, 0, 9, 5, 2, 14, 11, 8,
   3, 10, 14, 4, 9, 15, 8, 1, 2, 7, 0, 6, 13, 11, 5, 12,
   1, 9, 11, 10, 0, 8, 12, 4, 13, 3, 7, 15, 14, 5, 6, 2,
   4, 0, 5, 9, 7, 12, 2, 10, 14, 1, 3, 8, 11, 6, 15, 13]

/-- Which word of the block each step of the right line takes. -/
def rightWords : List Nat :=
  [5, 14, 7, 0, 9, 2, 11, 4, 13, 6, 15, 8, 1, 10, 3, 12,
   6, 11, 3, 7, 0, 13, 5, 10, 14, 15, 8, 12, 4, 9, 1, 2,
   15, 5, 1, 3, 7, 14, 6, 9, 11, 8, 12, 2, 10, 0, 4, 13,
   8, 6, 4, 1, 3, 11, 15, 0, 5, 12, 2, 13, 9, 7, 10, 14,
   12, 15, 10, 4, 1, 5, 8, 7, 6, 2, 13, 14, 0, 3, 9, 11]

/-- How far each step of the left line turns. -/
def leftTurns : List UInt32 :=
  [11, 14, 15, 12, 5, 8, 7, 9, 11, 13, 14, 15, 6, 7, 9, 8,
   7, 6, 8, 13, 11, 9, 7, 15, 7, 12, 15, 9, 11, 7, 13, 12,
   11, 13, 6, 7, 14, 9, 13, 15, 14, 8, 13, 6, 5, 12, 7, 5,
   11, 12, 14, 15, 14, 15, 9, 8, 9, 14, 5, 6, 8, 6, 5, 12,
   9, 15, 5, 11, 6, 8, 13, 12, 5, 12, 13, 14, 11, 8, 5, 6]

/-- How far each step of the right line turns. -/
def rightTurns : List UInt32 :=
  [8, 9, 9, 11, 13, 15, 15, 5, 7, 7, 8, 11, 14, 14, 12, 6,
   9, 13, 15, 7, 12, 8, 9, 11, 7, 7, 12, 7, 6, 15, 13, 11,
   9, 7, 15, 11, 8, 6, 6, 14, 12, 13, 5, 14, 13, 13, 7, 5,
   15, 5, 8, 11, 14, 14, 6, 14, 6, 9, 12, 9, 12, 5, 15, 8,
   8, 5, 12, 9, 12, 5, 14, 6, 8, 13, 6, 5, 15, 13, 11, 11]

/-- The added constant of each sixteen steps of the left line. -/
def leftConstants : List UInt32 :=
  [0x00000000, 0x5a827999, 0x6ed9eba1, 0x8f1bbcdc, 0xa953fd4e]

/-- The added constant of each sixteen steps of the right line. -/
def rightConstants : List UInt32 :=
  [0x50a28be6, 0x5c4dd124, 0x6d703ef3, 0x7a6d76e9, 0x00000000]

/-- The mixing function of the `stage`-th sixteen steps. -/
def mix (stage : Nat) (x y z : UInt32) : UInt32 :=
  match stage with
  | 0 => x ^^^ y ^^^ z
  | 1 => (x &&& y) ||| (~~~x &&& z)
  | 2 => (x ||| ~~~y) ^^^ z
  | 3 => (x &&& z) ||| (y &&& ~~~z)
  | _ => x ^^^ (y ||| ~~~z)

/-- One step: the mixing stage, the word with the constant added, and the turn. -/
def step (s : State) (stage : Nat) (word turn : UInt32) : State :=
  let t := rotateLeft (s.a + mix stage s.b s.c s.d + word) turn + s.e
  ⟨s.e, t, s.b, rotateLeft s.c 10, s.d⟩

/-- The steps of a line from step `i` on; `stage` turns a step's number into its mixing stage. -/
def line (block constants : List UInt32) (stage : Nat → Nat) (i : Nat) (s : State) :
    List Nat → List UInt32 → State
  | w :: ws, turn :: turns =>
    let word := block.getD w 0 + constants.getD (i / 16) 0
    line block constants stage (i + 1) (step s (stage i) word turn) ws turns
  | _, _ => s

def compress (s : State) (bytes : Bytes) : State :=
  let block := wordsBy ofLeBytes bytes
  let l := line block leftConstants (fun i => i / 16) 0 s leftWords leftTurns
  let r := line block rightConstants (fun i => 4 - i / 16) 0 s rightWords rightTurns
  ⟨s.b + l.c + r.d, s.c + l.d + r.e, s.d + l.e + r.a, s.e + l.a + r.b, s.a + l.b + r.c⟩

def State.bytes (s : State) : Bytes :=
  [s.a, s.b, s.c, s.d, s.e].flatMap fun w => leBytes 4 w.toNat

end Ripemd160

def ripemd160 (message : Bytes) : Octets 20 :=
  ⟨(Hash.absorbAll Ripemd160.compress Ripemd160.initial (Hash.pad (leBytes 8) message)).bytes,
    by simp [Ripemd160.State.bytes]⟩

end CovenantStaking
