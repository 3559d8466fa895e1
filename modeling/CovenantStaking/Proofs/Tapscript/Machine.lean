import CovenantStaking.Proofs.Tapscript.Number
import CovenantStaking.Tapscript.Script

/-!
# The machine that runs tapscripts

A script runs on a stack of byte strings, from its first byte to its last, one operation at a time.
Only the operations that the scripts of a stake are made of are known, and any other ends the run,
as a failed check does. Whether a signature is valid for a key is left to an oracle. The top of a
stack is the head of its list. Limits on the size of scripts, stacks and elements and on the number
of signatures are not part of the machine.
-/

namespace CovenantStaking.Tapscript

abbrev Stack := List Bytes

abbrev Oracle := XOnlyKey → Bytes → Bool

/-! ## Elements -/

/-- The element that stands for a number, in as few bytes as can be; zero takes none. -/
def element (value : Int) : Bytes :=
  if value = 0 then [] else signedBytes (numberWidth value.natAbs) value

def maxNumberLength : Nat := 4

def number? (data : Bytes) : Option Int :=
  if data.length ≤ maxNumberLength then some (ofSignedBytes data) else none

/-- An element is true unless it is zero, under either sign. -/
def isTrue (data : Bytes) : Prop :=
  ofSignedBytes data ≠ 0

instance (data : Bytes) : Decidable (isTrue data) :=
  inferInstanceAs (Decidable (_ ≠ _))

def truth (holds : Bool) : Bytes :=
  if holds then [1] else []

/-! ## Operations -/

inductive Op
  | push (data : Bytes)
  | checkSig
  | checkSigVerify
  | checkSigAdd
  | numEqual
  deriving DecidableEq

def maxDirectPush : UInt8 := 0x4b

def Op.ofCode? (code : UInt8) : Option Op :=
  if 0x51 ≤ code ∧ code ≤ 0x60 then some (.push [code - 0x50])
  else if code = Opcode.checkSig then some .checkSig
  else if code = Opcode.checkSigVerify then some .checkSigVerify
  else if code = Opcode.checkSigAdd then some .checkSigAdd
  else if code = Opcode.numEqual then some .numEqual
  else none

def Op.first? : Bytes → Option (Op × Bytes)
  | [] => none
  | code :: rest =>
    if code ≤ maxDirectPush then
      if rest.length < code.toNat then none
      else some (.push (rest.take code.toNat), rest.drop code.toNat)
    else (ofCode? code).map fun op => (op, rest)

theorem Op.first?_length {script rest : Bytes} {op : Op} (h : first? script = some (op, rest)) :
    rest.length < script.length := by
  cases script with
  | nil => cases h
  | cons code tail =>
      simp only [first?] at h
      split at h
      · split at h
        · cases h
        · cases h
          simp only [List.length_drop, List.length_cons]
          omega
      · obtain ⟨_, _, he⟩ := Option.map_eq_some_iff.mp h
        cases he
        simp

/-- Whether a key has signed. An empty signature says that it has not; one that is there has to be
valid. A key of no bytes is no key, and keys of other lengths than 32 bytes are not checked. -/
def judge (valid : Oracle) (key signature : Bytes) : Option Bool :=
  if key = [] then none
  else if signature = [] then some false
  else
    match Octets.ofBytes? 32 key with
    | some octets => if valid ⟨octets⟩ signature then some true else none
    | none => some true

def Op.exec (valid : Oracle) : Op → Stack → Option Stack
  | .push data, stack => some (data :: stack)
  | .checkSig, key :: signature :: stack => do
    let signed ← judge valid key signature
    pure (truth signed :: stack)
  | .checkSigVerify, key :: signature :: stack => do
    let signed ← judge valid key signature
    if signed then pure stack else none
  | .checkSigAdd, key :: count :: signature :: stack => do
    let count ← number? count
    let signed ← judge valid key signature
    pure (element (count + signed.toNat) :: stack)
  | .numEqual, b :: a :: stack => do
    let a ← number? a
    let b ← number? b
    pure (truth (a = b) :: stack)
  | _, _ => none

/-! ## Runs -/

/-- The stack after a script, unless the run ends before. -/
def run (valid : Oracle) (script : Bytes) (stack : Stack) : Option Stack :=
  if script = [] then some stack
  else
    match h : Op.first? script with
    | none => none
    | some (op, rest) => do
      let stack ← op.exec valid stack
      have : rest.length < script.length := Op.first?_length h
      run valid rest stack
termination_by script.length

/-- Whether a script accepts a witness: its run leaves one element, which is true. -/
def Accepts (valid : Oracle) (script : Bytes) (witness : Stack) : Prop :=
  ∃ top, run valid script witness = some [top] ∧ isTrue top

end CovenantStaking.Tapscript
