import CovenantStaking.Failure

/-!
# Numbers in scripts

A number is pushed as a sign and a magnitude, the least significant byte first and the sign in the
top bit of the last byte, in as few bytes as hold both. Zero and the numbers up to fifteen have
opcodes of their own.
-/

namespace CovenantStaking.Tapscript

/-- The bytes of a magnitude, the least significant first, for as long as any of it is left. -/
def magnitudeBytes (n : Nat) : Bytes :=
  if n = 0 then [] else UInt8.ofNat n :: magnitudeBytes (n / 256)

/-- A magnitude with its sign in the top bit of the last byte, or in one more byte where that bit is
taken. -/
def withSign (negative : Bool) (magnitude : Bytes) : Bytes :=
  match magnitude.getLast? with
  | none => []
  | some top =>
    if 0x80 ≤ top.toNat then magnitude ++ [if negative then 0x80 else 0x00]
    else if negative then magnitude.dropLast ++ [top ||| 0x80]
    else magnitude

/-- The number that a sign and a magnitude stand for. -/
def ofSignedBytes (data : Bytes) : Int :=
  let n := ofLeBytes data
  let sign := 1 <<< (8 * data.length - 1)
  if sign ≤ n then -((n - sign : Nat) : Int) else n

def pushNumber (value : Int) : Bytes :=
  if value = 0 then [0x00]
  else if 1 ≤ value ∧ value ≤ 15 then [0x50 + UInt8.ofNat value.toNat]
  else
    let data := withSign (value < 0) (magnitudeBytes value.natAbs)
    UInt8.ofNat data.length :: data

def IsWord (value : Int) : Prop :=
  -0x8000000000000000 ≤ value ∧ value < 0x8000000000000000

instance (value : Int) : Decidable (IsWord value) :=
  inferInstanceAs (Decidable (_ ∧ _))

/-- The number that a script pushes first, and how many bytes the push takes. -/
def readNumber : Bytes → Except Failure (Int × Nat)
  | [] => .error (.script .noPush)
  | opcode :: rest =>
    let n := opcode.toNat
    if n = 0 then .ok (0, 1)
    else if 0x51 ≤ n ∧ n ≤ 0x5f then .ok (((n - 0x50 : Nat) : Int), 1)
    else if n ≤ 9 then
      if rest.length < n then .error (.script (.shortPush n))
      else
        let value := ofSignedBytes (rest.take n)
        if IsWord value then .ok (value, 1 + n) else .error (.script .widePush)
    else .error (.script (.notAPush opcode))

end CovenantStaking.Tapscript
