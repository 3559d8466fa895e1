import CovenantStaking.Bytes.Basic

/-!
# Hexadecimal text

Byte strings as hexadecimal text. Writing uses lower case; reading takes both cases, and names the
first thing wrong: an odd number of digits, then a wrong length, then the first byte of the text
that is no digit.
-/

namespace CovenantStaking

def utf8 (text : String) : Bytes :=
  text.toUTF8.data.toList

/-! ## Writing -/

/-- The two digits of a byte. -/
def hexDigits (b : UInt8) : List Char :=
  [Nat.digitChar (b.toNat / 16), Nat.digitChar (b.toNat % 16)]

def toHex (bytes : Bytes) : String :=
  String.ofList (bytes.flatMap hexDigits)

/-! ## Reading -/

/-- Why a text is not the hexadecimal form of a byte string of the wanted length. -/
inductive HexFault
  | oddLength
  | wrongLength
  /-- The byte of the text at `position` is not a digit. -/
  | notADigit (byte : UInt8) (position : Nat)
  deriving DecidableEq

/-- The value of a digit, in either case. -/
def hexValue? (b : UInt8) : Option Nat :=
  let n := b.toNat
  if 48 ≤ n ∧ n ≤ 57 then some (n - 48)
  else if 65 ≤ n ∧ n ≤ 70 then some (n - 55)
  else if 97 ≤ n ∧ n ≤ 102 then some (n - 87)
  else none

def hexValue (byte : UInt8) (position : Nat) : Except HexFault Nat :=
  match hexValue? byte with
  | some value => .ok value
  | none => .error (.notADigit byte position)

/-- The `n` bytes that the pairs of digits from `position` on spell. -/
def hexPairs : (n position : Nat) → Bytes → Except HexFault (Octets n)
  | 0, _, _ => .ok (.zero 0)
  | n + 1, position, high :: low :: rest => do
    let h ← hexValue high position
    let l ← hexValue low (position + 1)
    let tail ← hexPairs n (position + 2) rest
    pure ⟨UInt8.ofNat (16 * h + l) :: tail.bytes, by simp⟩
  | _ + 1, _, _ => .error .wrongLength

/-- The byte string of length `n` whose hexadecimal form is `text`. -/
def Octets.ofHex (n : Nat) (text : String) : Except HexFault (Octets n) :=
  let digits := utf8 text
  if digits.length % 2 = 1 then .error .oddLength
  else if digits.length ≠ 2 * n then .error .wrongLength
  else hexPairs n 0 digits

def Octets.hex {n : Nat} (a : Octets n) : String :=
  toHex a.bytes

/-- A byte shown as the Latin-1 character it stands for, between quotes: invisible characters by
number, the common controls, the quote and the backslash by their escapes. -/
def quotedLatin1 (b : UInt8) : String :=
  let n := b.toNat
  let shown : List Char :=
    if n = 0 then ['\\', '0']
    else if n = 9 then ['\\', 't']
    else if n = 10 then ['\\', 'n']
    else if n = 13 then ['\\', 'r']
    else if n = 39 ∨ n = 92 then ['\\', Char.ofNat n]
    else if n < 32 ∨ (127 ≤ n ∧ n ≤ 160) ∨ n = 173 then
      ['\\', 'u', '\x7b'] ++ Nat.toDigits 16 n ++ ['\x7d']
    else [Char.ofNat n]
  String.ofList (['\''] ++ shown ++ ['\''])

def HexFault.message : HexFault → String
  | .oddLength => "Odd number of digits"
  | .wrongLength => "Invalid string length"
  | .notADigit byte position =>
    let shown := quotedLatin1 byte
    s!"Invalid character {shown} at position {position}"

end CovenantStaking
