import CovenantStaking.Proofs.Outcome
import CovenantStaking.Proofs.Tapscript.Spending

/-!
# What the bytes of a script tell

The scripts of a stake are keys, each with the operation that checks it, and a number at the end.
Keys may hold any bytes, but a key is always announced as one and a number never is, so the bytes
tell where the keys end and what they are.
-/

namespace CovenantStaking.Tapscript

/-! ## Keys -/

/-- Keys, each before the operation that checks a signature by it. -/
def keyChecks (checks : List (XOnlyKey × UInt8)) : Bytes :=
  checks.flatMap fun check => pushKey check.1 ++ [check.2]

theorem keyChecks_cons (check : XOnlyKey × UInt8) (checks : List (XOnlyKey × UInt8)) :
    keyChecks (check :: checks) =
      Opcode.push32 :: (check.1.bytes ++ check.2 :: keyChecks checks) := by
  simp [keyChecks, pushKey]

/-- What follows the keys, if it does not begin as one more key, can be told from them. -/
theorem keyChecks_append_inj {checks checks' : List (XOnlyKey × UInt8)} {tail tail' : Bytes}
    (htail : tail.head? ≠ some Opcode.push32) (htail' : tail'.head? ≠ some Opcode.push32)
    (h : keyChecks checks ++ tail = keyChecks checks' ++ tail') :
    checks = checks' ∧ tail = tail' := by
  induction checks generalizing checks' with
  | nil =>
      cases checks' with
      | nil => exact ⟨rfl, h⟩
      | cons check' checks' =>
          have hhead := congrArg List.head? h
          rw [keyChecks_cons] at hhead
          exact absurd hhead htail
  | cons check checks ih =>
      cases checks' with
      | nil =>
          have hhead := congrArg List.head? h.symm
          rw [keyChecks_cons] at hhead
          exact absurd hhead htail'
      | cons check' checks' =>
          rw [keyChecks_cons, keyChecks_cons] at h
          simp only [List.cons_append, List.append_assoc, List.cons.injEq, true_and] at h
          have hlength : check.1.bytes.length = check'.1.bytes.length := by simp
          obtain ⟨hkey, hrest⟩ := List.append_inj h hlength
          obtain ⟨hcode, hrest⟩ := List.cons.inj hrest
          obtain ⟨rfl, rfl⟩ := ih hrest
          exact ⟨by rw [Prod.ext (XOnlyKey.ext hkey) hcode], rfl⟩

/-! ## Numbers -/

/-- A number is not announced as a key. -/
theorem pushNumber_head {value : Int} (h : value.natAbs < 2 ^ 63) (rest : Bytes) :
    (pushNumber value ++ rest).head? ≠ some Opcode.push32 := by
  rw [pushNumber_eq]
  split
  · exact fun hhead => absurd (Option.some.inj hhead) (by decide)
  · rename_i hne
    split
    · rename_i hsmall
      obtain ⟨hcode, -⟩ := ofCode?_small ⟨value.toNat, by omega⟩
        (by simp only [ne_eq, Fin.mk_eq_zero]; omega)
      intro hhead
      rw [Option.some.inj hhead] at hcode
      exact hcode (by decide)
    · intro hhead
      have hwidth : numberWidth value.natAbs ≤ 8 := (numberWidth_le_iff (by decide)).mpr h
      have hcode := congrArg UInt8.toNat (Option.some.inj hhead)
      rw [UInt8.toNat_ofNat', Nat.mod_eq_of_lt (by omega)] at hcode
      have : Opcode.push32.toNat = 32 := rfl
      omega

/-- A number can be told from what follows it. -/
theorem pushNumber_append_inj {value value' : Int} {rest rest' : Bytes}
    (hvalue : value.natAbs < 2 ^ 63) (hvalue' : value'.natAbs < 2 ^ 63)
    (h : pushNumber value ++ rest = pushNumber value' ++ rest') :
    value = value' ∧ rest = rest' := by
  have hfirst := first?_pushNumber hvalue rest
  rw [h, first?_pushNumber hvalue' rest'] at hfirst
  simp only [Option.some.injEq, Prod.mk.injEq, Op.push.injEq] at hfirst
  have hnumber := congrArg ofSignedBytes hfirst.1
  rw [ofSignedBytes_element, ofSignedBytes_element] at hnumber
  exact ⟨hnumber.symm, hfirst.2.symm⟩

/-! ## Scripts -/

/-- The keys that the covenant's part of a script checks: the first starts the count. -/
def covenantChecks : List XOnlyKey → List (XOnlyKey × UInt8)
  | [] => []
  | first :: rest => (first, Opcode.checkSig) :: rest.map fun key => (key, Opcode.checkSigAdd)

def demandChecks (keys : List XOnlyKey) : List (XOnlyKey × UInt8) :=
  keys.map fun key => (key, Opcode.checkSigVerify)

theorem keyChecks_append (checks checks' : List (XOnlyKey × UInt8)) :
    keyChecks (checks ++ checks') = keyChecks checks ++ keyChecks checks' :=
  List.flatMap_append

theorem keyChecks_demandChecks (keys : List XOnlyKey) :
    keyChecks (demandChecks keys) = keys.flatMap demandSignature :=
  List.flatMap_map _ _ keys

theorem keyChecks_covenantChecks (covenant : List XOnlyKey) :
    keyChecks (covenantChecks covenant) = countSignatures covenant := by
  cases covenant with
  | nil => rfl
  | cons first rest => simp [keyChecks, covenantChecks, countSignatures, List.flatMap_map]

theorem slashing_eq (staker : XOnlyKey) (providers covenant : List XOnlyKey) (quorum : UInt8) :
    slashing staker providers covenant quorum =
      keyChecks (demandChecks (staker :: providers) ++ covenantChecks covenant) ++
        (pushNumber quorum.toNat ++ [Opcode.numEqual]) := by
  rw [keyChecks_append, keyChecks_demandChecks, keyChecks_covenantChecks]
  simp [slashing, demandQuorum]

/-- Unbonding asks what a slashing asks that no finality provider has to agree to. -/
theorem unbonding_eq_slashing (staker : XOnlyKey) (covenant : List XOnlyKey) (quorum : UInt8) :
    unbonding staker covenant quorum = slashing staker [] covenant quorum := by
  simp [unbonding, slashing]

theorem lockedSpend_eq (staker : XOnlyKey) (blocks : UInt64) :
    lockedSpend staker blocks =
      keyChecks (demandChecks [staker]) ++
        (pushNumber blocks.toNat ++ [Opcode.checkSequenceVerify]) := by
  rw [keyChecks_demandChecks]
  simp [lockedSpend]

theorem map_fst_covenantChecks (covenant : List XOnlyKey) :
    (covenantChecks covenant).map Prod.fst = covenant := by
  cases covenant with
  | nil => rfl
  | cons first rest => simp [covenantChecks, Function.comp_def]

/-- No key of the covenant is checked as one whose signature is demanded. -/
theorem covenantChecks_ne_cons {covenant : List XOnlyKey} {key : XOnlyKey}
    {checks : List (XOnlyKey × UInt8)} :
    covenantChecks covenant ≠ (key, Opcode.checkSigVerify) :: checks := by
  cases covenant with
  | nil => exact nofun
  | cons first rest =>
      intro h
      have hcode : Opcode.checkSig = Opcode.checkSigVerify := congrArg Prod.snd (List.cons.inj h).1
      exact absurd hcode (by decide)

theorem demandChecks_append_inj {keys keys' covenant covenant' : List XOnlyKey}
    (h : demandChecks keys ++ covenantChecks covenant =
      demandChecks keys' ++ covenantChecks covenant') : keys = keys' ∧ covenant = covenant' := by
  induction keys generalizing keys' with
  | nil =>
      cases keys' with
      | nil =>
          have hcovenant := congrArg (List.map Prod.fst) h
          simp only [demandChecks, List.map_nil, List.nil_append, map_fst_covenantChecks]
            at hcovenant
          exact ⟨rfl, hcovenant⟩
      | cons key' keys' => exact absurd h covenantChecks_ne_cons
  | cons key keys ih =>
      cases keys' with
      | nil => exact absurd h.symm covenantChecks_ne_cons
      | cons key' keys' =>
          obtain ⟨hkey, hrest⟩ := List.cons.inj h
          obtain ⟨rfl, rfl⟩ := ih hrest
          exact ⟨by rw [(Prod.mk.inj hkey).1], rfl⟩

/-! ## What a script is made of -/

variable {staker staker' : XOnlyKey} {providers providers' covenant covenant' : List XOnlyKey}
  {quorum quorum' : UInt8} {blocks blocks' : UInt64}

theorem natAbs_quorum_lt (quorum : UInt8) : (quorum.toNat : Int).natAbs < 2 ^ 63 := by
  have := quorum.toNat_lt
  rw [Int.natAbs_natCast]
  omega

theorem natAbs_blocks_lt (h : blocks.toNat ≤ maxTimelock) :
    (blocks.toNat : Int).natAbs < 2 ^ 63 := by
  rw [Int.natAbs_natCast]
  exact Nat.lt_of_le_of_lt h (by decide)

theorem slashing_inj
    (h : slashing staker providers covenant quorum =
      slashing staker' providers' covenant' quorum') :
    staker = staker' ∧ providers = providers' ∧ covenant = covenant' ∧ quorum = quorum' := by
  rw [slashing_eq, slashing_eq] at h
  obtain ⟨hchecks, htail⟩ := keyChecks_append_inj (pushNumber_head (natAbs_quorum_lt quorum) _)
    (pushNumber_head (natAbs_quorum_lt quorum') _) h
  obtain ⟨hkeys, hcovenant⟩ := demandChecks_append_inj hchecks
  obtain ⟨hstaker, hproviders⟩ := List.cons.inj hkeys
  obtain ⟨hquorum, -⟩ :=
    pushNumber_append_inj (natAbs_quorum_lt quorum) (natAbs_quorum_lt quorum') htail
  exact ⟨hstaker, hproviders, hcovenant, UInt8.toNat_inj.mp (Int.natCast_inj.mp hquorum)⟩

theorem slashing_eq_iff :
    slashing staker providers covenant quorum = slashing staker' providers' covenant' quorum' ↔
      staker = staker' ∧ providers = providers' ∧ covenant = covenant' ∧ quorum = quorum' := by
  constructor
  · exact slashing_inj
  · rintro ⟨rfl, rfl, rfl, rfl⟩
    rfl

theorem lockedSpend_inj (hblocks : blocks.toNat ≤ maxTimelock)
    (hblocks' : blocks'.toNat ≤ maxTimelock)
    (h : lockedSpend staker blocks = lockedSpend staker' blocks') :
    staker = staker' ∧ blocks = blocks' := by
  rw [lockedSpend_eq, lockedSpend_eq] at h
  obtain ⟨hchecks, htail⟩ := keyChecks_append_inj (pushNumber_head (natAbs_blocks_lt hblocks) _)
    (pushNumber_head (natAbs_blocks_lt hblocks') _) h
  obtain ⟨hkey, -⟩ := List.cons.inj hchecks
  obtain ⟨hnumber, -⟩ :=
    pushNumber_append_inj (natAbs_blocks_lt hblocks) (natAbs_blocks_lt hblocks') htail
  exact ⟨(Prod.mk.inj hkey).1, UInt64.toNat_inj.mp (Int.natCast_inj.mp hnumber)⟩

/-- The last operation counts signatures, or asks for a lock. -/
theorem slashing_ne_lockedSpend :
    slashing staker providers covenant quorum ≠ lockedSpend staker' blocks := by
  intro h
  have hlast := congrArg List.getLast? h
  simp only [slashing, demandQuorum, lockedSpend, ← List.append_assoc, List.getLast?_concat]
    at hlast
  exact absurd (Option.some.inj hlast) (by decide)

theorem timelock_eq_ok_iff {script : Bytes} :
    timelock staker blocks = .ok script ↔
      (1 ≤ blocks.toNat ∧ blocks.toNat ≤ maxTimelock) ∧ lockedSpend staker blocks = script := by
  simp only [timelock, ensureLockable, bind_eq_ok_iff, ensure_eq_ok_iff, exists_const,
    pure_eq_ok_iff]
  rfl

theorem timelock_inj {script : Bytes} (h : timelock staker blocks = .ok script)
    (h' : timelock staker' blocks' = .ok script) : staker = staker' ∧ blocks = blocks' := by
  obtain ⟨⟨-, hblocks⟩, hscript⟩ := timelock_eq_ok_iff.mp h
  obtain ⟨⟨-, hblocks'⟩, hscript'⟩ := timelock_eq_ok_iff.mp h'
  exact lockedSpend_inj hblocks hblocks' (hscript.trans hscript'.symm)

/-- The bytes of each script tell everything that it was made of, and no two kinds of script share
their bytes, but for a slashing that no finality provider has to agree to: that is an unbonding. -/
theorem scripts_eq_iff (staker staker' : XOnlyKey)
    (providers providers' covenant covenant' : List XOnlyKey) (quorum quorum' : UInt8)
    (blocks blocks' : UInt64) :
    (slashing staker providers covenant quorum = slashing staker' providers' covenant' quorum' ↔
      staker = staker' ∧ providers = providers' ∧ covenant = covenant' ∧ quorum = quorum') ∧
    (unbonding staker covenant quorum = unbonding staker' covenant' quorum' ↔
      staker = staker' ∧ covenant = covenant' ∧ quorum = quorum') ∧
    (slashing staker providers covenant quorum = unbonding staker' covenant' quorum' ↔
      providers = [] ∧ staker = staker' ∧ covenant = covenant' ∧ quorum = quorum') ∧
    ((∃ script, timelock staker blocks = .ok script) ↔
      1 ≤ blocks.toNat ∧ blocks.toNat ≤ maxTimelock) ∧
    ∀ script, timelock staker blocks = .ok script →
      (timelock staker' blocks' = .ok script ↔ staker = staker' ∧ blocks = blocks') ∧
      slashing staker' providers' covenant' quorum' ≠ script ∧
      unbonding staker' covenant' quorum' ≠ script := by
  refine ⟨slashing_eq_iff, ?_, ?_, ?_, fun script h => ⟨⟨timelock_inj h, ?_⟩, ?_⟩⟩
  · rw [unbonding_eq_slashing, unbonding_eq_slashing, slashing_eq_iff]
    simp only [true_and]
  · rw [unbonding_eq_slashing, slashing_eq_iff]
    exact and_left_comm
  · simp only [timelock_eq_ok_iff, exists_and_left, exists_eq', and_true]
  · rintro ⟨rfl, rfl⟩
    exact h
  · obtain ⟨-, rfl⟩ := timelock_eq_ok_iff.mp h
    rw [unbonding_eq_slashing]
    exact ⟨slashing_ne_lockedSpend, slashing_ne_lockedSpend⟩

/-- A key whose bytes all announce a key. -/
theorem scripts_eq_iff_of_announcing_key :
    let key : XOnlyKey := ⟨⟨List.replicate 32 Opcode.push32, rfl⟩⟩
    timelock key 144 = .ok (lockedSpend key 144) ∧
      timelock ⟨.zero 32⟩ 144 ≠ .ok (lockedSpend key 144) ∧
      slashing key [key] [key] 1 ≠ lockedSpend key 144 ∧
      unbonding key [key] 1 ≠ lockedSpend key 144 := by
  intro key
  have h : timelock key 144 = .ok (lockedSpend key 144) := rfl
  obtain ⟨-, -, -, -, hlocked⟩ := scripts_eq_iff key key [key] [key] [key] [key] 1 1 144 144
  obtain ⟨-, -, -, -, hzero⟩ := scripts_eq_iff key ⟨.zero 32⟩ [] [] [] [] 0 0 144 144
  refine ⟨h, fun hsame => ?_, (hlocked _ h).2⟩
  exact absurd ((hzero _ h).1.mp hsame).1 (by decide)

end CovenantStaking.Tapscript
