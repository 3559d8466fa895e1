import CovenantStaking.Proofs.Tapscript.Machine
import Mathlib.Data.List.Forall2

/-!
# What spends a stake

The witnesses that the scripts of slashing and unbonding accept.
-/

namespace CovenantStaking.Tapscript

variable {valid : Oracle}

/-! ## Elements -/

theorem ofSignedBytes_element (value : Int) : ofSignedBytes (element value) = value := by
  unfold element
  split
  · rename_i h
    subst h
    rfl
  · exact ofSignedBytes_signedBytes (numberWidth_pos _) (lt_numberWidth _)

theorem element_length_le_iff {value : Int} :
    (element value).length ≤ maxNumberLength ↔ value.natAbs < 2 ^ 31 := by
  unfold element
  split
  · rename_i h
    subst h
    decide
  · rw [signedBytes_length]
    exact numberWidth_le_iff (by decide)

/-- An element is taken for the number that it stands for, if the number is short. -/
theorem number?_element (value : Int) :
    number? (element value) = if value.natAbs < 2 ^ 31 then some value else none := by
  simp only [number?, element_length_le_iff, ofSignedBytes_element]

theorem number?_element_of_lt {n : Nat} (h : n < 2 ^ 31) :
    number? (element n) = some (n : Int) := by
  rw [number?_element, Int.natAbs_natCast, if_pos h]

theorem number?_element_of_not_lt {n : Nat} (h : ¬n < 2 ^ 31) : number? (element n) = none := by
  rw [number?_element, Int.natAbs_natCast, if_neg h]

/-- The outcome of a check counts as zero or one. -/
theorem truth_eq_element (holds : Bool) : truth holds = element (holds.toNat : Int) := by
  cases holds <;> rfl

theorem isTrue_truth_iff {holds : Bool} : isTrue (truth holds) ↔ holds := by
  cases holds <;> decide

/-! ## Single operations -/

theorem run_of_first? {script rest : Bytes} {op : Op} {stack : Stack}
    (h : Op.first? script = some (op, rest)) :
    run valid script stack = (op.exec valid stack).bind (run valid rest) := by
  have hne : script ≠ [] := by
    rintro rfl
    cases h
  rw [run, if_neg hne]
  split
  · rename_i hnone
    rw [hnone] at h
    cases h
  · rename_i hsome
    rw [hsome] at h
    cases h
    rfl

theorem run_nil (stack : Stack) : run valid [] stack = some stack := by
  rw [run, if_pos rfl]

/-- A script that begins with an operation accepts what its rest accepts after the operation. -/
theorem accepts_iff_of_first? {script rest : Bytes} {op : Op} {stack : Stack}
    (h : Op.first? script = some (op, rest)) :
    Accepts valid script stack ↔
      ∃ next, op.exec valid stack = some next ∧ Accepts valid rest next := by
  unfold Accepts
  rw [run_of_first? h]
  simp only [Option.bind_eq_some_iff]
  constructor
  · rintro ⟨top, ⟨next, hexec, hrun⟩, htrue⟩
    exact ⟨next, hexec, top, hrun, htrue⟩
  · rintro ⟨next, hexec, top, hrun, htrue⟩
    exact ⟨top, ⟨next, hexec, hrun⟩, htrue⟩

theorem accepts_nil_iff {stack : Stack} :
    Accepts valid [] stack ↔ ∃ top, stack = [top] ∧ isTrue top := by
  simp [Accepts, run_nil]

theorem first?_push {data : Bytes} (h : data.length ≤ 75) (rest : Bytes) :
    Op.first? (UInt8.ofNat data.length :: (data ++ rest)) = some (.push data, rest) := by
  have hn : (UInt8.ofNat data.length).toNat = data.length := by
    rw [UInt8.toNat_ofNat']
    omega
  have hle : UInt8.ofNat data.length ≤ maxDirectPush := by
    rw [UInt8.le_iff_toNat_le, hn]
    exact h
  simp only [Op.first?, if_pos hle, hn, List.length_append, List.take_left', List.drop_left']
  rw [if_neg (by omega)]

theorem first?_pushKey (key : XOnlyKey) (rest : Bytes) :
    Op.first? (pushKey key ++ rest) = some (.push key.bytes, rest) := by
  have hpush := first?_push (by simp : key.bytes.length ≤ 75) rest
  simpa [pushKey, Opcode.push32] using hpush

theorem accepts_pushKey_iff {key : XOnlyKey} {rest : Bytes} {stack : Stack} :
    Accepts valid (pushKey key ++ rest) stack ↔ Accepts valid rest (key.bytes :: stack) := by
  rw [accepts_iff_of_first? (first?_pushKey key rest)]
  simp [Op.exec]

theorem ofCode?_small : ∀ n : Fin 16, n ≠ 0 →
    ¬ 0x50 + UInt8.ofNat n.val ≤ maxDirectPush ∧
      Op.ofCode? (0x50 + UInt8.ofNat n.val) = some (.push (element n.val)) := by
  decide

theorem first?_pushNumber {value : Int} (h : value.natAbs < 2 ^ 63) (rest : Bytes) :
    Op.first? (pushNumber value ++ rest) = some (.push (element value), rest) := by
  rw [pushNumber_eq]
  split
  · rename_i hzero
    subst hzero
    exact first?_push (by decide : ([] : Bytes).length ≤ 75) rest
  · rename_i hne
    split
    · rename_i hsmall
      obtain ⟨hcode, hop⟩ := ofCode?_small ⟨value.toNat, by omega⟩
        (by simp only [ne_eq, Fin.mk_eq_zero]; omega)
      rw [Int.toNat_of_nonneg (by omega)] at hop
      simp only [List.cons_append, List.nil_append, Op.first?, if_neg hcode, hop, Option.map_some]
    · have hwidth : numberWidth value.natAbs ≤ 8 := (numberWidth_le_iff (by decide)).mpr h
      have hpush := first?_push (by simp only [signedBytes_length]; omega :
        (signedBytes (numberWidth value.natAbs) value).length ≤ 75) rest
      simpa [element, hne] using hpush

/-- A number that a script pushes stands on the stack as its element. -/
theorem accepts_pushNumber_iff {value : Int} (h : value.natAbs < 2 ^ 63) {rest : Bytes}
    {stack : Stack} :
    Accepts valid (pushNumber value ++ rest) stack ↔
      Accepts valid rest (element value :: stack) := by
  rw [accepts_iff_of_first? (first?_pushNumber h rest)]
  simp [Op.exec]

/-! ## Signatures -/

/-- A signature by a key is there and is valid. -/
def Signs (valid : Oracle) (key : XOnlyKey) (signature : Bytes) : Prop :=
  signature ≠ [] ∧ valid key signature

/-- A key may leave its signature out, but not give an invalid one. -/
def MaySign (valid : Oracle) (key : XOnlyKey) (signature : Bytes) : Prop :=
  signature = [] ∨ Signs valid key signature

theorem judge_bytes_eq_some_iff {key : XOnlyKey} {signature : Bytes} {signed : Bool} :
    judge valid key.bytes signature = some signed ↔
      MaySign valid key signature ∧ signed = decide (signature ≠ []) := by
  have hkey : key.bytes ≠ [] := by
    rw [← List.length_pos_iff, key.length_bytes]
    decide
  rw [judge, if_neg hkey, Octets.ofBytes?_bytes]
  by_cases hsig : signature = []
  · simp [hsig, MaySign, eq_comm]
  · by_cases hval : valid key signature
    · simp [hsig, hval, MaySign, Signs, eq_comm]
    · simp [hsig, hval, MaySign, Signs]

/-- One for a signature that is there, zero for one that is left out. -/
def presence (signature : Bytes) : Nat :=
  (decide (signature ≠ [])).toNat

theorem countP_cons_eq (signature : Bytes) (signatures : List Bytes) :
    (signature :: signatures).countP (· ≠ []) =
      presence signature + signatures.countP (· ≠ []) := by
  rw [List.countP_cons, Nat.add_comm]
  by_cases h : signature = [] <;> simp [presence, h]

theorem exec_checkSigVerify_eq_some_iff {key : XOnlyKey} {stack next : Stack} :
    Op.exec valid .checkSigVerify (key.bytes :: stack) = some next ↔
      ∃ signature, stack = signature :: next ∧ Signs valid key signature := by
  cases stack with
  | nil => simp [Op.exec]
  | cons signature tail =>
      simp only [Op.exec, Option.bind_eq_bind, Option.bind_eq_some_iff, judge_bytes_eq_some_iff,
        List.cons.injEq]
      constructor
      · rintro ⟨_, ⟨hmay, rfl⟩, hnext⟩
        split at hnext
        · rename_i hsent
          cases hnext
          exact ⟨signature, ⟨rfl, rfl⟩, hmay.resolve_left (of_decide_eq_true hsent)⟩
        · cases hnext
      · rintro ⟨_, ⟨rfl, rfl⟩, hsigns⟩
        exact ⟨_, ⟨.inr hsigns, rfl⟩, if_pos (decide_eq_true hsigns.1)⟩

theorem accepts_demandSignature_iff {key : XOnlyKey} {rest : Bytes} {stack : Stack} :
    Accepts valid (demandSignature key ++ rest) stack ↔
      ∃ signature tail, stack = signature :: tail ∧ Signs valid key signature ∧
        Accepts valid rest tail := by
  have hfirst : Op.first? (Opcode.checkSigVerify :: rest) = some (.checkSigVerify, rest) := rfl
  rw [demandSignature, List.append_assoc, accepts_pushKey_iff, List.singleton_append,
    accepts_iff_of_first? hfirst]
  simp only [exec_checkSigVerify_eq_some_iff]
  constructor
  · rintro ⟨tail, ⟨signature, rfl, hsigns⟩, hrest⟩
    exact ⟨signature, tail, rfl, hsigns, hrest⟩
  · rintro ⟨signature, tail, rfl, hsigns, hrest⟩
    exact ⟨tail, ⟨signature, rfl, hsigns⟩, hrest⟩

theorem accepts_checkSig_iff {key : XOnlyKey} {rest : Bytes} {stack : Stack} :
    Accepts valid (pushKey key ++ (Opcode.checkSig :: rest)) stack ↔
      ∃ signature tail, stack = signature :: tail ∧ MaySign valid key signature ∧
        Accepts valid rest (element (presence signature) :: tail) := by
  have hfirst : Op.first? (Opcode.checkSig :: rest) = some (.checkSig, rest) := rfl
  rw [accepts_pushKey_iff, accepts_iff_of_first? hfirst]
  cases stack with
  | nil => simp [Op.exec]
  | cons signature tail =>
      simp only [Op.exec, Option.bind_eq_bind, Option.bind_eq_some_iff, judge_bytes_eq_some_iff,
        truth_eq_element, presence, List.cons.injEq]
      constructor
      · rintro ⟨_, ⟨_, ⟨hmay, rfl⟩, hnext⟩, hrest⟩
        cases hnext
        exact ⟨signature, tail, ⟨rfl, rfl⟩, hmay, hrest⟩
      · rintro ⟨_, _, ⟨rfl, rfl⟩, hmay, hrest⟩
        exact ⟨_, ⟨_, ⟨hmay, rfl⟩, rfl⟩, hrest⟩

/-- Counting goes on from a number that an element of the machine can hold. -/
theorem accepts_checkSigAdd_iff {key : XOnlyKey} {rest : Bytes} {n : Nat} {stack : Stack} :
    Accepts valid (pushKey key ++ (Opcode.checkSigAdd :: rest)) (element n :: stack) ↔
      n < 2 ^ 31 ∧ ∃ signature tail, stack = signature :: tail ∧ MaySign valid key signature ∧
        Accepts valid rest (element ((n + presence signature : Nat)) :: tail) := by
  have hfirst : Op.first? (Opcode.checkSigAdd :: rest) = some (.checkSigAdd, rest) := rfl
  rw [accepts_pushKey_iff, accepts_iff_of_first? hfirst]
  cases stack with
  | nil => simp [Op.exec]
  | cons signature tail =>
      by_cases hn : n < 2 ^ 31
      · simp only [Op.exec, number?_element_of_lt hn, hn, Option.bind_eq_bind, Option.bind_some,
          Option.bind_eq_some_iff, judge_bytes_eq_some_iff, presence, List.cons.injEq, true_and]
        constructor
        · rintro ⟨_, ⟨_, ⟨hmay, rfl⟩, hnext⟩, hrest⟩
          cases hnext
          exact ⟨signature, tail, ⟨rfl, rfl⟩, hmay, hrest⟩
        · rintro ⟨_, _, ⟨rfl, rfl⟩, hmay, hrest⟩
          exact ⟨_, ⟨_, ⟨hmay, rfl⟩, rfl⟩, hrest⟩
      · simp only [Op.exec, number?_element_of_not_lt hn, hn, Option.bind_eq_bind,
          Option.bind_none, reduceCtorEq, false_and, exists_false]

/-- The count and the quorum are compared, and nothing may be left below them. -/
theorem accepts_numEqual_iff {n m : Nat} (hm : m < 2 ^ 31) {stack : Stack} :
    Accepts valid [Opcode.numEqual] (element m :: element n :: stack) ↔ stack = [] ∧ n = m := by
  have hfirst : Op.first? [Opcode.numEqual] = some (.numEqual, []) := rfl
  rw [accepts_iff_of_first? hfirst]
  by_cases hn : n < 2 ^ 31
  · simp only [Op.exec, number?_element_of_lt hm, number?_element_of_lt hn, Option.bind_eq_bind,
      Option.bind_some, Option.pure_def, Option.some.injEq, exists_eq_left', accepts_nil_iff,
      List.cons.injEq, and_assoc, isTrue_truth_iff, decide_eq_true_eq, Int.natCast_inj]
  · have hne : n ≠ m := by omega
    simp [Op.exec, number?_element_of_lt hm, number?_element_of_not_lt hn, hne]

/-! ## The covenant -/

/-- Counting on from `n` signatures reaches the quorum with just the signatures that are wanting.
A count too long for the machine ends the run, but such a count is past any quorum. -/
theorem accepts_countOn_iff {quorum : UInt8} (keys : List XOnlyKey) (n : Nat) (stack : Stack) :
    Accepts valid ((keys.flatMap fun key => pushKey key ++ [Opcode.checkSigAdd]) ++
        (pushNumber quorum.toNat ++ [Opcode.numEqual])) (element n :: stack) ↔
      List.Forall₂ (MaySign valid) keys stack ∧
        n + stack.countP (· ≠ []) = quorum.toNat := by
  have hq : quorum.toNat < 2 ^ 8 := quorum.toNat_lt
  induction keys generalizing n stack with
  | nil =>
      rw [List.flatMap_nil, List.nil_append,
        accepts_pushNumber_iff (by rw [Int.natAbs_natCast]; omega),
        accepts_numEqual_iff (by omega), List.forall₂_nil_left_iff]
      constructor
      · rintro ⟨rfl, rfl⟩
        exact ⟨rfl, rfl⟩
      · rintro ⟨rfl, h⟩
        exact ⟨rfl, h⟩
  | cons key keys ih =>
      rw [List.flatMap_cons, List.append_assoc, List.append_assoc, List.singleton_append,
        accepts_checkSigAdd_iff]
      simp only [ih, List.forall₂_cons_left_iff]
      constructor
      · rintro ⟨_, signature, tail, rfl, hsig, hkeys, hsum⟩
        refine ⟨⟨signature, tail, hsig, hkeys, rfl⟩, ?_⟩
        rwa [countP_cons_eq, ← Nat.add_assoc]
      · rintro ⟨⟨signature, tail, hsig, hkeys, rfl⟩, hsum⟩
        rw [countP_cons_eq, ← Nat.add_assoc] at hsum
        exact ⟨by omega, signature, tail, rfl, hsig, hkeys, hsum⟩

/-- The covenant's part of a witness: for every key a signature or none, and of those that are there
exactly the quorum. -/
structure MeetsQuorum (valid : Oracle) (covenant : List XOnlyKey) (quorum : UInt8)
    (signatures : List Bytes) : Prop where
  maySign : List.Forall₂ (MaySign valid) covenant signatures
  count : signatures.countP (· ≠ []) = quorum.toNat

theorem accepts_demandQuorum_iff {covenant : List XOnlyKey} (h : covenant ≠ []) {quorum : UInt8}
    {stack : Stack} :
    Accepts valid (demandQuorum covenant quorum) stack ↔
      MeetsQuorum valid covenant quorum stack := by
  obtain ⟨first, rest, rfl⟩ := List.exists_cons_of_ne_nil h
  have hscript : demandQuorum (first :: rest) quorum =
      pushKey first ++ (Opcode.checkSig ::
        ((rest.flatMap fun key => pushKey key ++ [Opcode.checkSigAdd]) ++
          (pushNumber quorum.toNat ++ [Opcode.numEqual]))) := by
    simp [demandQuorum, countSignatures]
  rw [hscript, accepts_checkSig_iff]
  simp only [accepts_countOn_iff]
  constructor
  · rintro ⟨signature, tail, rfl, hsig, hkeys, hsum⟩
    exact ⟨.cons hsig hkeys, by rwa [countP_cons_eq]⟩
  · rintro ⟨hkeys, hsum⟩
    obtain ⟨signature, tail, hsig, htail, rfl⟩ := List.forall₂_cons_left_iff.mp hkeys
    exact ⟨signature, tail, rfl, hsig, htail, by rwa [countP_cons_eq] at hsum⟩

theorem accepts_demandSignatures_iff {rest : Bytes} (keys : List XOnlyKey) (stack : Stack) :
    Accepts valid (keys.flatMap demandSignature ++ rest) stack ↔
      ∃ signatures tail, stack = signatures ++ tail ∧
        List.Forall₂ (Signs valid) keys signatures ∧ Accepts valid rest tail := by
  induction keys generalizing stack with
  | nil => simp
  | cons key keys ih =>
      rw [List.flatMap_cons, List.append_assoc, accepts_demandSignature_iff]
      simp only [ih, List.forall₂_cons_left_iff]
      constructor
      · rintro ⟨signature, _, rfl, hsig, signatures, tail, rfl, hkeys, hrest⟩
        exact ⟨signature :: signatures, tail, rfl, ⟨signature, signatures, hsig, hkeys, rfl⟩, hrest⟩
      · rintro ⟨_, tail, rfl, ⟨signature, signatures, hsig, hkeys, rfl⟩, hrest⟩
        exact ⟨signature, _, rfl, hsig, signatures, tail, rfl, hkeys, hrest⟩

/-! ## The two scripts -/

/-- Slashing takes a signature by the staker, one by every finality provider in order, and the
covenant's quorum; unbonding takes the same without the finality providers. No other witness is
accepted, whether an item is wrong, wanting or in excess. -/
theorem accepts_stake_scripts_iff (valid : Oracle) (staker : XOnlyKey) (providers : List XOnlyKey)
    {covenant : List XOnlyKey} (h : covenant ≠ []) (quorum : UInt8) (witness : Stack) :
    (Accepts valid (slashing staker providers covenant quorum) witness ↔
      ∃ own consents votes, witness = own :: (consents ++ votes) ∧ Signs valid staker own ∧
        List.Forall₂ (Signs valid) providers consents ∧
        MeetsQuorum valid covenant quorum votes) ∧
    (Accepts valid (unbonding staker covenant quorum) witness ↔
      ∃ own votes, witness = own :: votes ∧ Signs valid staker own ∧
        MeetsQuorum valid covenant quorum votes) := by
  constructor
  · rw [slashing, List.append_assoc, accepts_demandSignature_iff]
    simp only [accepts_demandSignatures_iff, accepts_demandQuorum_iff h]
    constructor
    · rintro ⟨own, _, rfl, hown, consents, votes, rfl, hproviders, hquorum⟩
      exact ⟨own, consents, votes, rfl, hown, hproviders, hquorum⟩
    · rintro ⟨own, consents, votes, rfl, hown, hproviders, hquorum⟩
      exact ⟨own, _, rfl, hown, consents, votes, rfl, hproviders, hquorum⟩
  · rw [unbonding, accepts_demandSignature_iff]
    simp only [accepts_demandQuorum_iff h]

/-- One of two covenant keys signs, and the other is left out. -/
theorem accepts_stake_scripts_one_of_two :
    [XOnlyKey.mk (.zero 32), ⟨.ofNat 32 1⟩] ≠ [] ∧
      Accepts (fun _ signature => signature = [7])
        (slashing ⟨.zero 32⟩ [⟨.ofNat 32 2⟩] [⟨.zero 32⟩, ⟨.ofNat 32 1⟩] 1) [[7], [7], [], [7]] ∧
      Accepts (fun _ signature => signature = [7])
        (unbonding ⟨.zero 32⟩ [⟨.zero 32⟩, ⟨.ofNat 32 1⟩] 1) [[7], [7], []] := by
  have h : [XOnlyKey.mk (.zero 32), ⟨.ofNat 32 1⟩] ≠ [] := List.cons_ne_nil _ _
  have hsigns : ∀ key, Signs (fun _ signature => signature = [7]) key [7] := by simp [Signs]
  have hmay : ∀ key, MaySign (fun _ signature => signature = [7]) key [] := by simp [MaySign]
  refine ⟨h, ?_, ?_⟩
  · exact (accepts_stake_scripts_iff _ _ _ h 1 _).1.mpr
      ⟨[7], [[7]], [[], [7]], rfl, hsigns _, .cons (hsigns _) .nil,
        .cons (hmay _) (.cons (.inr (hsigns _)) .nil), rfl⟩
  · exact (accepts_stake_scripts_iff _ _ [] h 1 _).2.mpr
      ⟨[7], [[7], []], rfl, hsigns _, .cons (.inr (hsigns _)) (.cons (hmay _) .nil), rfl⟩

end CovenantStaking.Tapscript
