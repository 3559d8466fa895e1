import CovenantStaking.Proofs.Tapscript.Payload
import Mathlib.Data.List.Nodup

/-!
# What a root decides

A root is a digest of digests, so it decides the scripts below it only as far as digests do. What is
asked of them is that different things hashed on the way to the roots in question have different
digests; nothing is asked of anything that is not hashed.
-/

namespace CovenantStaking

/-! ## What is hashed -/

theorem Octets.toNat_inj {n : Nat} {a b : Octets n} : a.toNat = b.toNat ↔ a = b := by
  constructor
  · intro h
    apply Octets.ext
    have ha := beBytes_ofBeBytes a.bytes
    have hb := beBytes_ofBeBytes b.bytes
    rw [a.length_eq] at ha
    rw [b.length_eq] at hb
    rw [← ha, ← hb]
    exact congrArg (beBytes n) h
  · rintro rfl
    rfl

namespace TapNode

theorem branchPayload_comm (a b : TapNode) : branchPayload a b = branchPayload b a := by
  unfold branchPayload
  split
  · rename_i hle
    split
    · rename_i hge
      rw [Octets.toNat_inj.mp (Nat.le_antisymm hle hge)]
    · rfl
  · rw [if_pos (by omega)]

/-- A branch is hashed from its two nodes in either order. -/
theorem branchPayload_inj {a b c d : TapNode} (h : branchPayload a b = branchPayload c d) :
    a = c ∧ b = d ∨ a = d ∧ b = c := by
  have hbytes : ∀ {a b c d : TapNode}, a.bytes ++ b.bytes = c.bytes ++ d.bytes → a = c ∧ b = d := by
    intro a b c d h
    obtain ⟨hleft, hright⟩ := List.append_inj h (a.length_eq.trans c.length_eq.symm)
    exact ⟨TapNode.ext hleft, TapNode.ext hright⟩
  unfold branchPayload at h
  split at h
  · split at h
    · exact .inl (hbytes h)
    · exact .inr (hbytes h)
  · split at h
    · exact .inr (hbytes h).symm
    · exact .inl (hbytes h).symm

theorem branch_comm [Crypto] (a b : TapNode) : a.branch b = b.branch a := by
  rw [branch, branchPayload_comm, branch]

end TapNode

/-- A tag and what is hashed under it. -/
abbrev Preimage := Bytes × Bytes

def Preimage.digest [Crypto] (preimage : Preimage) : Octets 32 :=
  Crypto.taggedHash preimage.1 preimage.2

/-- Different ones among these preimages have different digests. -/
def DigestsApart [Crypto] (preimages : List Preimage) : Prop :=
  ∀ p ∈ preimages, ∀ q ∈ preimages, p.digest = q.digest → p = q

theorem DigestsApart.mono [Crypto] {some all : List Preimage} (h : DigestsApart all)
    (hsubset : some ⊆ all) : DigestsApart some :=
  fun _ hp _ hq => h _ (hsubset hp) _ (hsubset hq)

theorem digestsApart_of_nodup [Crypto] {preimages : List Preimage}
    (h : (preimages.map Preimage.digest).Nodup) : DigestsApart preimages :=
  fun _ hp _ hq => List.inj_on_of_nodup_map h hp hq

/-! ## Trees -/

inductive ScriptTree
  | leaf (script : Bytes)
  | branch (left right : ScriptTree)

namespace ScriptTree

def scripts : ScriptTree → List Bytes
  | leaf script => [script]
  | branch left right => left.scripts ++ right.scripts

/-- The same tree, but for the order of the two parts of each branch. -/
inductive Alike : ScriptTree → ScriptTree → Prop
  | leaf (script : Bytes) : Alike (leaf script) (leaf script)
  | branch {a b c d} (hac : Alike a c) (hbd : Alike b d) : Alike (branch a b) (branch c d)
  | turned {a b c d} (had : Alike a d) (hbc : Alike b c) : Alike (branch a b) (branch c d)

theorem Alike.refl (t : ScriptTree) : Alike t t := by
  induction t with
  | leaf script => exact .leaf script
  | branch _ _ ihleft ihright => exact .branch ihleft ihright

theorem alike_leaf_iff {script script' : Bytes} :
    Alike (.leaf script) (.leaf script') ↔ script = script' := by
  constructor
  · intro h
    cases h
    rfl
  · rintro rfl
    exact .leaf script

theorem not_alike_leaf_branch {script : Bytes} {a b : ScriptTree} :
    ¬Alike (.leaf script) (.branch a b) :=
  nofun

theorem alike_branch_iff {a b c d : ScriptTree} :
    Alike (.branch a b) (.branch c d) ↔ Alike a c ∧ Alike b d ∨ Alike a d ∧ Alike b c := by
  constructor
  · intro h
    cases h with
    | branch hac hbd => exact .inl ⟨hac, hbd⟩
    | turned had hbc => exact .inr ⟨had, hbc⟩
  · rintro (⟨hac, hbd⟩ | ⟨had, hbc⟩)
    · exact .branch hac hbd
    · exact .turned had hbc

theorem Alike.scripts_perm {s t : ScriptTree} (h : Alike s t) : s.scripts.Perm t.scripts := by
  induction h with
  | leaf script => exact .refl _
  | branch _ _ ihac ihbd => exact ihac.append ihbd
  | turned _ _ ihad ihbc => exact (ihad.append ihbc).trans List.perm_append_comm

/-! ## Roots -/

theorem leafTag_ne_branchTag : leafTag ≠ branchTag := by
  decide

variable [Crypto]

def root : ScriptTree → TapNode
  | leaf script => Tapscript.leaf script
  | branch left right => left.root.branch right.root

/-- What is hashed for the root itself. -/
def preimage : ScriptTree → Preimage
  | leaf script => (leafTag, Tapscript.leafPayload script)
  | branch left right => (branchTag, TapNode.branchPayload left.root right.root)

/-- Everything that is hashed on the way to the root. -/
def preimages : ScriptTree → List Preimage
  | leaf script => [(leaf script).preimage]
  | branch left right => (branch left right).preimage :: (left.preimages ++ right.preimages)

theorem root_eq (t : ScriptTree) : t.root = ⟨t.preimage.digest⟩ := by
  cases t with
  | leaf script => rfl
  | branch left right => rfl

theorem preimage_mem (t : ScriptTree) : t.preimage ∈ t.preimages := by
  cases t with
  | leaf script => exact List.mem_singleton_self _
  | branch left right => exact List.mem_cons_self

theorem Alike.root_eq {s t : ScriptTree} (h : Alike s t) : s.root = t.root := by
  induction h with
  | leaf script => rfl
  | branch _ _ ihac ihbd => rw [root, root, ihac, ihbd]
  | turned _ _ ihad ihbc => rw [root, root, ihad, ihbc, TapNode.branch_comm]

theorem preimage_eq_of_root_eq {preimages : List Preimage} (hapart : DigestsApart preimages)
    {s t : ScriptTree} (hs : s.preimages ⊆ preimages) (ht : t.preimages ⊆ preimages)
    (h : s.root = t.root) : s.preimage = t.preimage := by
  rw [s.root_eq, t.root_eq] at h
  exact hapart _ (hs s.preimage_mem) _ (ht t.preimage_mem) (TapNode.mk.inj h)

theorem alike_of_root_eq {preimages : List Preimage} (hapart : DigestsApart preimages)
    {s t : ScriptTree} (hs : s.preimages ⊆ preimages) (ht : t.preimages ⊆ preimages)
    (h : s.root = t.root) : Alike s t := by
  induction s generalizing t with
  | leaf script =>
      obtain ⟨htag, hpayload⟩ := Prod.mk.inj (preimage_eq_of_root_eq hapart hs ht h)
      cases t with
      | leaf script' =>
          rw [Tapscript.leafPayload_injective hpayload]
          exact .leaf script'
      | branch c d => exact absurd htag leafTag_ne_branchTag
  | branch a b iha ihb =>
      obtain ⟨htag, hpayload⟩ := Prod.mk.inj (preimage_eq_of_root_eq hapart hs ht h)
      cases t with
      | leaf script' => exact absurd htag.symm leafTag_ne_branchTag
      | branch c d =>
          have hab := List.append_subset.mp fun p hp => hs (List.mem_cons_of_mem _ hp)
          have hcd := List.append_subset.mp fun p hp => ht (List.mem_cons_of_mem _ hp)
          rcases TapNode.branchPayload_inj hpayload with ⟨hac, hbd⟩ | ⟨had, hbc⟩
          · exact .branch (iha hab.1 hcd.1 hac) (ihb hab.2 hcd.2 hbd)
          · exact .turned (iha hab.1 hcd.2 had) (ihb hab.2 hcd.1 hbc)

/-- On trees whose digests are kept apart, the root decides the tree up to the order of parts. -/
theorem root_eq_iff_alike {preimages : List Preimage} (hapart : DigestsApart preimages)
    {s t : ScriptTree} (hs : s.preimages ⊆ preimages) (ht : t.preimages ⊆ preimages) :
    s.root = t.root ↔ Alike s t :=
  ⟨alike_of_root_eq hapart hs ht, Alike.root_eq⟩

theorem root_ne_of_length_ne {preimages : List Preimage} (hapart : DigestsApart preimages)
    {s t : ScriptTree} (hs : s.preimages ⊆ preimages) (ht : t.preimages ⊆ preimages)
    (h : s.scripts.length ≠ t.scripts.length) : s.root ≠ t.root :=
  fun heq => h ((root_eq_iff_alike hapart hs ht).mp heq).scripts_perm.length_eq

end ScriptTree

end CovenantStaking
