import CovenantStaking.Proofs.Tapscript.Layout

/-!
# How long the staker waits

The lock that the sequence number of an input stands for, the operation by which a script asks for a
lock, and the lock that the staker's own way out really gets. Sequence numbers lock inputs of
transactions of version 2; the transaction is taken to be one.
-/

namespace CovenantStaking.Tapscript

/-! ## Locks -/

/-- What a relative lock counts. -/
inductive LockUnit
  | blocks
  /-- Spans of 512 seconds. -/
  | spans
  deriving DecidableEq

structure RelativeLock where
  unit : LockUnit
  count : Nat
  deriving DecidableEq

/-- The lock that a number stands for: the top bit of its 32 says that there is none, bit 22 tells
the unit, and the low 16 bits count. -/
def RelativeLock.ofBits? (bits : Nat) : Option RelativeLock :=
  if bits.testBit 31 then none
  else some ⟨if bits.testBit 22 then .spans else .blocks, bits % 2 ^ 16⟩

/-- A lock is long enough if it counts the same, and no less. -/
def RelativeLock.Covers (lock asked : RelativeLock) : Prop :=
  lock.unit = asked.unit ∧ asked.count ≤ lock.count

instance (lock asked : RelativeLock) : Decidable (lock.Covers asked) :=
  inferInstanceAs (Decidable (_ ∧ _))

/-- A sequence number meets what a script asks for. A script that asks for no lock is met by any. -/
def meetsLock (sequence : UInt32) (asked : Nat) : Bool :=
  match RelativeLock.ofBits? asked, RelativeLock.ofBits? sequence.toNat with
  | none, _ => true
  | some asked, some lock => lock.Covers asked
  | some _, none => false

/-- A sequence number locks its input for at least so many blocks. -/
def LocksFor (sequence : UInt32) (blocks : Nat) : Prop :=
  ∃ lock, RelativeLock.ofBits? sequence.toNat = some lock ∧ lock.Covers ⟨.blocks, blocks⟩

theorem meetsLock_iff {sequence : UInt32} {asked : Nat} {lock : RelativeLock}
    (h : RelativeLock.ofBits? asked = some lock) :
    meetsLock sequence asked ↔
      ∃ given, RelativeLock.ofBits? sequence.toNat = some given ∧ given.Covers lock := by
  unfold meetsLock
  rw [h]
  cases RelativeLock.ofBits? sequence.toNat with
  | none => simp
  | some given => simp

/-! ## The machine with locks -/

/-- The longest element that is taken for a lock. -/
def maxLockLength : Nat := 5

/-- Asks for the lock on top of the stack, which stays there. -/
def checkSequence (sequence : UInt32) : Stack → Option Stack
  | [] => none
  | top :: stack =>
    if top.length ≤ maxLockLength ∧ 0 ≤ ofSignedBytes top ∧
        meetsLock sequence (ofSignedBytes top).toNat then some (top :: stack)
    else none

/-- The stack after a script, in an input with a sequence number. -/
def runAt (valid : Oracle) (sequence : UInt32) (script : Bytes) (stack : Stack) : Option Stack :=
  if script = [] then some stack
  else if script.head? = some Opcode.checkSequenceVerify then do
    let stack ← checkSequence sequence stack
    runAt valid sequence script.tail stack
  else
    match h : Op.first? script with
    | none => none
    | some (op, rest) => do
      let stack ← op.exec valid stack
      have : rest.length < script.length := Op.first?_length h
      runAt valid sequence rest stack
termination_by script.length
decreasing_by
  · rename_i hne _
    have := List.length_pos_iff.mpr hne
    rw [List.length_tail]
    omega
  · exact this

def AcceptsAt (valid : Oracle) (sequence : UInt32) (script : Bytes) (witness : Stack) : Prop :=
  ∃ top, runAt valid sequence script witness = some [top] ∧ isTrue top

variable {valid : Oracle} {sequence : UInt32}

theorem first?_checkSequenceVerify (rest : Bytes) :
    Op.first? (Opcode.checkSequenceVerify :: rest) = none := rfl

theorem runAt_of_first? {script rest : Bytes} {op : Op} {stack : Stack}
    (h : Op.first? script = some (op, rest)) :
    runAt valid sequence script stack =
      (op.exec valid stack).bind (runAt valid sequence rest) := by
  have hne : script ≠ [] := by
    rintro rfl
    cases h
  have hhead : script.head? ≠ some Opcode.checkSequenceVerify := by
    intro hhead
    obtain ⟨tail, rfl⟩ := List.head?_eq_some_iff.mp hhead
    rw [first?_checkSequenceVerify] at h
    cases h
  rw [runAt, if_neg hne, if_neg hhead]
  split
  · rename_i hnone
    rw [hnone] at h
    cases h
  · rename_i hsome
    rw [hsome] at h
    cases h
    rfl

theorem runAt_nil (stack : Stack) : runAt valid sequence [] stack = some stack := by
  rw [runAt, if_pos rfl]

theorem runAt_checkSequence (rest : Bytes) (stack : Stack) :
    runAt valid sequence (Opcode.checkSequenceVerify :: rest) stack =
      (checkSequence sequence stack).bind (runAt valid sequence rest) := by
  rw [runAt, if_neg (List.cons_ne_nil _ _), if_pos List.head?_cons]
  rfl

theorem acceptsAt_iff_of_first? {script rest : Bytes} {op : Op} {stack : Stack}
    (h : Op.first? script = some (op, rest)) :
    AcceptsAt valid sequence script stack ↔
      ∃ next, op.exec valid stack = some next ∧ AcceptsAt valid sequence rest next := by
  unfold AcceptsAt
  rw [runAt_of_first? h]
  simp only [Option.bind_eq_some_iff]
  constructor
  · rintro ⟨top, ⟨next, hexec, hrun⟩, htrue⟩
    exact ⟨next, hexec, top, hrun, htrue⟩
  · rintro ⟨next, hexec, top, hrun, htrue⟩
    exact ⟨top, ⟨next, hexec, hrun⟩, htrue⟩

theorem acceptsAt_demandSignature_iff {key : XOnlyKey} {rest : Bytes} {stack : Stack} :
    AcceptsAt valid sequence (demandSignature key ++ rest) stack ↔
      ∃ signature tail, stack = signature :: tail ∧ Signs valid key signature ∧
        AcceptsAt valid sequence rest tail := by
  have hcheck : Op.first? (Opcode.checkSigVerify :: rest) = some (.checkSigVerify, rest) := rfl
  rw [demandSignature, List.append_assoc, acceptsAt_iff_of_first? (first?_pushKey key _)]
  simp only [Op.exec, Option.some.injEq, exists_eq_left', List.singleton_append]
  rw [acceptsAt_iff_of_first? hcheck]
  simp only [exec_checkSigVerify_eq_some_iff]
  constructor
  · rintro ⟨tail, ⟨signature, rfl, hsigns⟩, hrest⟩
    exact ⟨signature, tail, rfl, hsigns, hrest⟩
  · rintro ⟨signature, tail, rfl, hsigns, hrest⟩
    exact ⟨tail, ⟨signature, rfl, hsigns⟩, hrest⟩

/-- A lock that ends a script leaves its number as the outcome, so nothing may lie below it. -/
theorem acceptsAt_lock_iff {n : Nat} (hpos : 1 ≤ n) (hle : n ≤ maxTimelock) {stack : Stack} :
    AcceptsAt valid sequence (pushNumber n ++ [Opcode.checkSequenceVerify]) stack ↔
      stack = [] ∧ meetsLock sequence n := by
  have hmax : maxTimelock < 2 ^ 31 := by decide
  have hlength : (element (n : Int)).length ≤ maxLockLength := by
    have hshort : (element (n : Int)).length ≤ maxNumberLength :=
      element_length_le_iff.mpr (by rw [Int.natAbs_natCast]; omega)
    exact Nat.le_trans hshort (by decide)
  have htrue : isTrue (element (n : Int)) := by
    rw [isTrue, ofSignedBytes_element]
    omega
  rw [acceptsAt_iff_of_first? (first?_pushNumber (by rw [Int.natAbs_natCast]; omega) _)]
  simp only [Op.exec, Option.some.injEq, exists_eq_left', AcceptsAt, runAt_checkSequence,
    checkSequence, ofSignedBytes_element, hlength, Int.natCast_nonneg, Int.toNat_natCast, true_and]
  by_cases hmeets : meetsLock sequence n
  · simp only [hmeets, ↓reduceIte, Option.bind_some, runAt_nil, Option.some.injEq, List.cons.injEq,
      and_true]
    constructor
    · rintro ⟨_, ⟨_, hstack⟩, _⟩
      exact hstack
    · rintro hstack
      exact ⟨_, ⟨rfl, hstack⟩, htrue⟩
  · simp [hmeets]

/-! ## The staker's own way out -/

/-- The script takes the staker's signature and nothing else, in an input whose sequence number
meets the lock that the number of blocks, read as bits, stands for. -/
theorem acceptsAt_lockedSpend_iff {staker : XOnlyKey} {blocks : UInt64} {witness : Stack}
    (hpos : 1 ≤ blocks.toNat) (hle : blocks.toNat ≤ maxTimelock) :
    AcceptsAt valid sequence (lockedSpend staker blocks) witness ↔
      ∃ signature, witness = [signature] ∧ Signs valid staker signature ∧
        meetsLock sequence blocks.toNat := by
  rw [lockedSpend, List.append_assoc, acceptsAt_demandSignature_iff]
  simp only [acceptsAt_lock_iff hpos hle]
  constructor
  · rintro ⟨signature, _, rfl, hsigns, rfl, hmeets⟩
    exact ⟨signature, rfl, hsigns, hmeets⟩
  · rintro ⟨signature, rfl, hsigns, hmeets⟩
    exact ⟨signature, [], rfl, hsigns, rfl, hmeets⟩

/-- A number of blocks that a script can hold asks for a lock: the top bit is never set. -/
theorem ofBits?_of_le {bits : Nat} (h : bits ≤ maxTimelock) :
    RelativeLock.ofBits? bits =
      some ⟨if bits.testBit 22 then .spans else .blocks, bits % 2 ^ 16⟩ := by
  have hlt : bits < 2 ^ 31 := Nat.lt_of_le_of_lt h (by decide)
  rw [RelativeLock.ofBits?, Nat.testBit_lt_two_pow hlt]
  rfl

/-- The script locks for its number of blocks exactly when the number fits the 16 bits that count.
Above, a sequence number meets the lock that stands for less, or for spans of time. -/
theorem timelock_locks_iff {staker : XOnlyKey} {blocks : UInt64} {script : Bytes}
    (h : timelock staker blocks = .ok script) :
    (∀ valid sequence witness, AcceptsAt valid sequence script witness →
      LocksFor sequence blocks.toNat) ↔ blocks.toNat ≤ 0xffff := by
  obtain ⟨⟨hpos, hle⟩, rfl⟩ := timelock_eq_ok_iff.mp h
  have hasked := ofBits?_of_le hle
  constructor
  · intro hlocks
    -- the number of blocks itself, as a sequence number, meets the lock that it asks for
    have hsequence : (UInt32.ofNat blocks.toNat).toNat = blocks.toNat := by
      rw [UInt32.toNat_ofNat']
      simp only [maxTimelock] at hle
      omega
    have haccepts : AcceptsAt (fun _ _ => true) (.ofNat blocks.toNat) (lockedSpend staker blocks)
        [[1]] := by
      refine (acceptsAt_lockedSpend_iff hpos hle).mpr ⟨[1], rfl, ⟨by decide, rfl⟩, ?_⟩
      rw [meetsLock_iff hasked, hsequence]
      exact ⟨_, hasked, rfl, Nat.le_refl _⟩
    obtain ⟨lock, hlock, _, hcount⟩ := hlocks _ _ _ haccepts
    rw [hsequence, hasked] at hlock
    cases hlock
    simp only at hcount
    omega
  · intro hshort valid sequence witness haccepts
    obtain ⟨_, _, _, hmeets⟩ := (acceptsAt_lockedSpend_iff hpos hle).mp haccepts
    obtain ⟨given, hgiven, hunit, hcount⟩ := (meetsLock_iff hasked).mp hmeets
    have hblocks : blocks.toNat.testBit 22 = false :=
      Nat.testBit_lt_two_pow (Nat.lt_of_le_of_lt hshort (by decide))
    rw [Nat.mod_eq_of_lt (by omega)] at hcount
    rw [hblocks] at hunit
    exact ⟨given, hgiven, hunit, hcount⟩

theorem timelock_locks_for_a_day :
    timelock ⟨.zero 32⟩ 144 = .ok (lockedSpend ⟨.zero 32⟩ 144) ∧
      ∀ valid sequence witness, AcceptsAt valid sequence (lockedSpend ⟨.zero 32⟩ 144) witness →
        LocksFor sequence 144 :=
  have h : timelock ⟨.zero 32⟩ 144 = .ok (lockedSpend ⟨.zero 32⟩ 144) := rfl
  ⟨h, (timelock_locks_iff h).mpr (by decide)⟩

/-- A lock of 65536 blocks, one more than 16 bits count, is met at once. -/
theorem timelock_of_65536_locks_nothing :
    timelock ⟨.zero 32⟩ 65536 = .ok (lockedSpend ⟨.zero 32⟩ 65536) ∧
      AcceptsAt (fun _ _ => true) 0 (lockedSpend ⟨.zero 32⟩ 65536) [[1]] ∧
      RelativeLock.ofBits? (0 : UInt32).toNat = some ⟨.blocks, 0⟩ ∧ ¬LocksFor 0 65536 := by
  refine ⟨rfl, ?_, rfl, ?_⟩
  · exact (acceptsAt_lockedSpend_iff (by decide) (by decide)).mpr
      ⟨[1], rfl, ⟨by decide, rfl⟩, by decide⟩
  · rintro ⟨lock, hlock, _, hcount⟩
    cases hlock
    exact absurd hcount (by decide)

end CovenantStaking.Tapscript
