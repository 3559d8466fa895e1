import CovenantStaking.Proofs.Message.Groups
import CovenantStaking.Proofs.Outcome
import CovenantStaking.Proofs.Tapscript.Roots

/-!
# What the id of a message tells

The transaction that stands for a message holds the digest of the message's text and the key behind
an address, or the digest of that key, and its id is a digest again. So the id tells the message and
the signer as far as digests tell what they are taken of.
-/

namespace CovenantStaking

/-! ## What is hashed -/

/-- Different ones among these inputs have different digests. -/
def Apart {α β : Type} (digest : α → β) (inputs : List α) : Prop :=
  ∀ p ∈ inputs, ∀ q ∈ inputs, digest p = digest q → p = q

theorem apart_of_nodup {α β : Type} {digest : α → β} {inputs : List α}
    (h : (inputs.map digest).Nodup) : Apart digest inputs :=
  fun _ hp _ hq heq => List.inj_on_of_nodup_map h hp hq heq

/-- What the digest of a message with this text is taken of. -/
def Message.preimage (text : List Char) : Preimage :=
  (messageTag, ascii (String.ofList text))

/-- The keys of which an address holds the digest alone. -/
def Signer.hashedKeys : Signer → List Bytes
  | taproot _ => []
  | nativeSegwit key => [key.bytes]

/-- What is hashed for the ids of two messages with these texts has different digests. -/
structure SpendsApart [Crypto] (text text' : List Char) (signer signer' : Signer) : Prop where
  texts : DigestsApart [Message.preimage text, Message.preimage text']
  keys : Apart Crypto.hash160 (signer.hashedKeys ++ signer'.hashedKeys)
  transactions : Apart Crypto.doubleSha256 [toSpend (Message.preimage text).digest signer,
    toSpend (Message.preimage text').digest signer']

variable {text text' : List Char} {signer signer' : Signer} {digest digest' : Octets 32}
  {message message' : Bytes}

/-! ## Transactions -/

theorem lengthPrefixed_injective : Function.Injective lengthPrefixed :=
  fun _ _ h => (List.cons.inj h).2

theorem toSpend_inj [Crypto] (h : toSpend digest signer = toSpend digest' signer') :
    digest = digest' ∧ signer.script = signer'.script := by
  simp only [toSpend, List.append_assoc, List.cons_append, List.append_cancel_left_eq,
    List.cons.injEq, true_and] at h
  -- the digest stands at the same place in all such transactions, and so does the script
  obtain ⟨hproof, hrest⟩ := List.append_inj h (by simp [lengthPrefixed])
  simp only [List.append_cancel_left_eq, List.append_cancel_right_eq, List.cons.injEq,
    true_and] at hrest
  have hpushed := lengthPrefixed_injective hproof
  exact ⟨Octets.ext (List.cons.inj (List.cons.inj hpushed).2).2, lengthPrefixed_injective hrest⟩

theorem Signer.script_inj [Crypto]
    (hkeys : Apart Crypto.hash160 (signer.hashedKeys ++ signer'.hashedKeys))
    (h : signer.script = signer'.script) : signer = signer' := by
  -- scripts of the two kinds of address differ in their first bytes
  cases signer with
  | taproot key =>
      cases signer' with
      | taproot key' =>
          obtain ⟨-, hkey⟩ := List.cons.inj (List.cons.inj h).2
          rw [XOnlyKey.ext hkey]
      | nativeSegwit key' => exact absurd (List.cons.inj h).1 (by decide)
  | nativeSegwit key =>
      cases signer' with
      | taproot key' => exact absurd (List.cons.inj h).1 (by decide)
      | nativeSegwit key' =>
          obtain ⟨-, hdigest⟩ := List.cons.inj (List.cons.inj h).2
          have hbytes : key.bytes = key'.bytes :=
            hkeys _ (by simp [hashedKeys]) _ (by simp [hashedKeys]) (Octets.ext hdigest)
          rw [PublicKey.ext hbytes]

/-! ## Ids -/

theorem toSpendId_of_text [Crypto] (htext : Message.text message = .ok text) (signer : Signer) :
    toSpendId message signer =
      .ok ⟨Crypto.doubleSha256 (toSpend (Message.preimage text).digest signer)⟩ := by
  simp only [toSpendId, Message.digest, htext]
  rfl

theorem message_eq_of_preimage_eq (htext : Message.text message = .ok text)
    (htext' : Message.text message' = .ok text')
    (h : Message.preimage text = Message.preimage text') : message = message' := by
  obtain ⟨rfl, -⟩ := Message.text_eq_ok_iff.mp htext
  obtain ⟨rfl, -⟩ := Message.text_eq_ok_iff.mp htext'
  exact Bech32.ascii_encode_inj (Prod.mk.inj h).2

/-- Messages with a text have ids, and two of them are equal exactly when they stand for one message
and one signer, as far as what is hashed for the two has different digests. -/
theorem toSpendId_eq_iff [Crypto] (htext : Message.text message = .ok text)
    (htext' : Message.text message' = .ok text') (hapart : SpendsApart text text' signer signer') :
    ∃ id id', toSpendId message signer = .ok id ∧ toSpendId message' signer' = .ok id' ∧
      (id = id' ↔ message = message' ∧ signer = signer') := by
  refine ⟨_, _, toSpendId_of_text htext signer, toSpendId_of_text htext' signer', ?_⟩
  constructor
  · intro hid
    have hspend := hapart.transactions _ (by simp) _ (by simp) (Txid.mk.inj hid)
    obtain ⟨hdigest, hscript⟩ := toSpend_inj hspend
    have hpreimage := hapart.texts _ (by simp) _ (by simp) hdigest
    exact ⟨message_eq_of_preimage_eq htext htext' hpreimage,
      Signer.script_inj hapart.keys hscript⟩
  · rintro ⟨rfl, rfl⟩
    rw [Except.ok.inj (htext.symm.trans htext')]

theorem digest_preimage_nil :
    (Message.preimage (Bech32.encode Message.readablePart [])).digest =
      .ofNat 32 0x1530e2bcbf7b62e7f8e62ad97309d2185cedf6b73040fdf3907a87968adaf644 := by
  decide +kernel

theorem digest_preimage_zero :
    (Message.preimage (Bech32.encode Message.readablePart [0])).digest =
      .ofNat 32 0x3305c6cb5c232c1b731c92eb844451c0cb600815cb57ebf326b3528994162baa := by
  decide +kernel

/-- The empty message and that of a zero byte have texts whose groups are all zero. -/
theorem toSpendId_ne_of_zero_byte :
    let signer := Signer.nativeSegwit ⟨.zero 33⟩
    let signer' := Signer.nativeSegwit ⟨.ofNat 33 1⟩
    ∃ text text', (Message.text [] = .ok text ∧ Message.text [0] = .ok text' ∧
      SpendsApart text text' signer signer') ∧
      ∃ id id', toSpendId [] signer = .ok id ∧ toSpendId [0] signer' = .ok id' ∧ id ≠ id' := by
  intro signer signer'
  have htext : Message.text [] = .ok (Bech32.encode Message.readablePart []) :=
    Message.text_eq_ok_iff.mpr ⟨rfl, by decide⟩
  have htext' : Message.text [0] = .ok (Bech32.encode Message.readablePart [0]) :=
    Message.text_eq_ok_iff.mpr ⟨rfl, by decide⟩
  have hapart : SpendsApart (Bech32.encode Message.readablePart [])
      (Bech32.encode Message.readablePart [0]) signer signer' := by
    constructor
    case texts =>
      apply digestsApart_of_nodup
      simp only [List.map_cons, List.map_nil, digest_preimage_nil, digest_preimage_zero]
      decide
    case keys => exact apart_of_nodup (by decide +kernel)
    case transactions =>
      rw [digest_preimage_nil, digest_preimage_zero]
      exact apart_of_nodup (by decide +kernel)
  obtain ⟨id, id', hid, hid', hiff⟩ := toSpendId_eq_iff htext htext' hapart
  refine ⟨_, _, ⟨htext, htext', hapart⟩, id, id', hid, hid', fun heq => ?_⟩
  cases (hiff.mp heq).1

end CovenantStaking
