import CovenantStaking.Blob.Writing
import CovenantStaking.Proofs.Blob.Grammar
import CovenantStaking.Proofs.Message.Text
import CovenantStaking.Proofs.Session.Origin

/-!
# Message sessions

The conditions under which a session approves that a message is signed. The host's own key at the
path is the signer, whatever other keys are named.
-/

namespace CovenantStaking

theorem Request.terms_of_signMessage {r : Request} (haction : r.action = some .signMessage)
    (derived : Option PublicKey) : r.terms derived = r.messageTerms derived := by
  simp only [terms, requireAction, haction, present, bind, Except.bind]

theorem Request.checkTransaction_signMessage_iff [Crypto] {r : Request} {tx : Transaction}
    {policy : Policy} {message : Bytes} {kind : AddressKind} {signer : Signer}
    {leaf : Option TapNode} :
    r.checkTransaction policy (.signMessage message kind signer) tx = .ok leaf ↔
      (∃ id, r.checkMessage signer tx = .ok id) ∧ none = leaf := by
  simp only [checkTransaction, bind_eq_ok_iff, pure_eq_ok_iff, exists_and_right]

namespace Session

variable {s : Session} {tx : Transaction} {host : HostKeys} {path : KeyPath} {kind : AddressKind}
  {key : PublicKey} {message : Bytes} {fee : UInt64}

/-! ## What may be agreed to -/

/-- A message may be signed: the host derives the key at a path to an address of a known kind, no
other key is named, and the one input spends the transaction that stands for the message and that
address, with no other one named. -/
structure MaySign [Crypto] (s : Session) (tx : Transaction) (host : HostKeys) (path : KeyPath)
    (kind : AddressKind) (key : PublicKey) (message : Bytes) (fee : UInt64) : Prop where
  derives : s.request.Derives host path key
  purpose : path.components.head?.map KeyPath.index = some kind.purpose
  sent : s.request.message = some message
  named : ∀ name ∈ s.request.messageKey, name = .xOnly key.xOnly ∨ name = .compressed key
  inputs : tx.inputs.length = 1
  balances : tx.Balances fee
  keySets : s.pin.Admits s.request.keySets
  spends : ∃ id, toSpendId message (kind.signer key) = .ok id ∧ tx.Spends 0 id ∧
    ∀ sent ∈ s.request.txid, sent = id

/-- The session as if no key had been named for the message. -/
def unnamed (s : Session) : Session :=
  { s with request := { s.request with messageKey := none } }

theorem MaySign.unnamed [Crypto] (h : s.MaySign tx host path kind key message fee) :
    s.unnamed.MaySign tx host path kind key message fee where
  derives := ⟨h.derives.sentPath, h.derives.derived, h.derives.valid, h.derives.sentKey⟩
  purpose := h.purpose
  sent := h.sent
  named := nofun
  inputs := h.inputs
  balances := h.balances
  keySets := h.keySets
  spends := h.spends

/-! ## A message that may be signed -/

def greeting : Bytes :=
  ascii "hello"

/-- The generator, with its ordinate even. -/
def greetingKey : PublicKey :=
  ⟨.ofNat 33 0x0279be667ef9dcbbac55a06295ce870b07029bfcdb2dce28d959f2815b16f81798⟩

/-- The host that has this one key, whatever the path. -/
def greetingHost : HostKeys :=
  fun _ => .ok greetingKey

def greetingPath : AddressKind → KeyPath
  | .taproot => .taproot 0 0 0 0
  | .nativeSegwit => .nativeSegwit 0 0 0 0

/-- The key is named in the form that the other kind of address holds. -/
def greetingName : AddressKind → MessageKey
  | .taproot => .compressed greetingKey
  | .nativeSegwit => .xOnly greetingKey.xOnly

def greetingId : AddressKind → Txid
  | .taproot => ⟨.ofNat 32 0x4a4a1c06990a66e1b5bc36af85a8a59ecbe47e39b30c803a6e6fa0d975ea81c8⟩
  | .nativeSegwit => ⟨.ofNat 32 0x8b4570b80bffdb07eaeca714f596d8ccf4870b6bdd257d8b55c75bb744bf6cb5⟩

def greetingBlob (kind : AddressKind) : Bytes :=
  Blob.write [.single (.action .signMessage), .single (.message greeting),
    .single (.messageKey (greetingName kind)), .single (.txid (greetingId kind)),
    .single (.derivationPath (greetingPath kind))]

/-- The session that the blob leaves. -/
def greetingAsked (kind : AddressKind) : Session where
  policy := .standard
  request :=
    { action := some .signMessage
      message := some greeting
      messageKey := some (greetingName kind)
      txid := some (greetingId kind)
      derivationPath := some (greetingPath kind) }
  pin := .free
  stage := .parsed

/-- The session once the greeting is approved. -/
def greetingApproved (kind : AddressKind) : Session :=
  { greetingAsked kind with
    request := (greetingAsked kind).request.withStaker greetingKey.xOnly
    stage := .verified }

def greetingSpend (kind : AddressKind) : Transaction where
  inputs := [⟨greetingId kind, 0, 0, none⟩]
  outputs := []

theorem toSpendId_greeting (kind : AddressKind) :
    toSpendId greeting (kind.signer greetingKey) = .ok (greetingId kind) := by
  cases kind with
  | taproot => exact toOption_eq_some_iff.mp (by decide +kernel)
  | nativeSegwit => exact toOption_eq_some_iff.mp (by decide +kernel)

theorem decode_greetingBlob (kind : AddressKind) :
    Blob.decode (greetingBlob kind) = .ok (greetingAsked kind).request := by
  cases kind with
  | taproot => exact toOption_eq_some_iff.mp (by decide +kernel)
  | nativeSegwit => exact toOption_eq_some_iff.mp (by decide +kernel)

theorem run_greetingBlob (kind : AddressKind) :
    (start .standard).run [.load (greetingBlob kind)] = greetingAsked kind :=
  run_load (decode_greetingBlob kind)

theorem maySign_greeting (kind : AddressKind) :
    (greetingAsked kind).MaySign (greetingSpend kind) greetingHost (greetingPath kind) kind
      greetingKey greeting 0 where
  derives := ⟨rfl, rfl, toOption_eq_some_iff.mp (by decide +kernel), nofun⟩
  purpose := by cases kind <;> rfl
  sent := rfl
  named := by
    rintro _ ⟨⟩
    cases kind with
    | taproot => exact .inr rfl
    | nativeSegwit => exact .inl rfl
  inputs := rfl
  balances := ⟨Nat.two_pow_pos 64, Nat.two_pow_pos 64, rfl⟩
  keySets := nofun
  spends := by
    refine ⟨greetingId kind, toSpendId_greeting kind, rfl, ?_⟩
    rintro _ ⟨⟩
    rfl

/-! ## The approval -/

/-- What is approved when a message is signed: the host signs with the key itself, and the fee is no
reason to warn. -/
def signed (message : Bytes) (kind : AddressKind) (key : PublicKey) (fee : UInt64) : Approval where
  action := .signMessage
  terms := .signMessage message kind (kind.signer key)
  fee := fee
  feeWarning := false
  leaf := none

theorem derivesMessageTerms_iff (haction : s.request.action = some .signMessage)
    {request : Request} {terms : Terms} :
    (∃ derived, s.request.deriveStaker host = .ok (derived, request) ∧
      request.terms derived = .ok terms) ↔ ∃ path kind key message,
      s.request.Derives host path key ∧
      path.components.head?.map KeyPath.index = some kind.purpose ∧
      s.request.message = some message ∧
      (∀ name ∈ s.request.messageKey, name = .xOnly key.xOnly ∨ name = .compressed key) ∧
      request = s.request.withStaker key.xOnly ∧
      terms = .signMessage message kind (kind.signer key) := by
  have hfilled (key : PublicKey) : (s.request.withStaker key.xOnly).action = some .signMessage :=
    haction
  simp only [Request.deriveStaker_eq_ok_iff]
  constructor
  · rintro ⟨_, ⟨hpath, rfl, rfl⟩ | ⟨path, key, hkey, rfl, rfl⟩, hterms⟩
    · rw [Request.terms_of_signMessage haction, Request.messageTerms_eq_ok_iff] at hterms
      obtain ⟨path, _, _, _, hsent, _⟩ := hterms
      cases hpath.symm.trans hsent
    · rw [Request.terms_of_signMessage (hfilled key), Request.messageTerms_eq_ok_iff] at hterms
      obtain ⟨path', kind, message, signer, hsent, hkind, hmessage, hsigner, rfl⟩ := hterms
      cases hkey.sentPath.symm.trans hsent
      obtain ⟨hnamed, rfl⟩ := Signer.choose_eq_ok_iff.mp hsigner
      exact ⟨path, kind, key, message, hkey, KeyPath.addressKind_eq_ok_iff.mp hkind, hmessage,
        hnamed, rfl, rfl⟩
  · rintro ⟨path, kind, key, message, hkey, hpurpose, hmessage, hnamed, rfl, rfl⟩
    refine ⟨some key, .inr ⟨path, key, hkey, rfl, rfl⟩, ?_⟩
    rw [Request.terms_of_signMessage (hfilled key), Request.messageTerms_eq_ok_iff]
    exact ⟨path, kind, message, _, hkey.sentPath, KeyPath.addressKind_eq_ok_iff.mpr hpurpose,
      hmessage, Signer.choose_eq_ok_iff.mpr ⟨hnamed, rfl⟩, rfl⟩

theorem passes_signMessage_iff [Crypto] (haction : s.request.action = some .signMessage)
    {request : Request} {terms : Terms} {leaf : Option TapNode} :
    s.Passes tx host request terms fee leaf ↔ ∃ path kind key message,
      s.MaySign tx host path kind key message fee ∧ request = s.request.withStaker key.xOnly ∧
      terms = .signMessage message kind (kind.signer key) ∧ none = leaf := by
  constructor
  · rintro ⟨hterms, hinputs, -, hbalances, hsets, hrules⟩
    obtain ⟨path, kind, key, message, hkey, hpurpose, hmessage, hnamed, rfl, rfl⟩ :=
      (derivesMessageTerms_iff haction).mp hterms
    obtain ⟨⟨id, hcheck⟩, hleaf⟩ := Request.checkTransaction_signMessage_iff.mp hrules
    obtain ⟨message', hmessage', hid, hspends, htxid⟩ := Request.checkMessage_eq_ok_iff.mp hcheck
    cases hmessage.symm.trans hmessage'
    exact ⟨path, kind, key, message, ⟨hkey, hpurpose, hmessage, hnamed,
      of_decide_eq_true hinputs, hbalances, hsets, id, hid, hspends, htxid⟩, rfl, rfl, hleaf⟩
  · rintro ⟨path, kind, key, message, h, rfl, rfl, rfl⟩
    constructor
    · exact (derivesMessageTerms_iff haction).mpr
        ⟨path, kind, key, message, h.derives, h.purpose, h.sent, h.named, rfl, rfl⟩
    · exact decide_eq_true h.inputs
    · exact Nat.zero_le _
    · exact h.balances
    · exact h.keySets
    · obtain ⟨id, hid, hspends, htxid⟩ := h.spends
      exact Request.checkTransaction_signMessage_iff.mpr
        ⟨⟨id, Request.checkMessage_eq_ok_iff.mpr ⟨message, h.sent, hid, hspends, htxid⟩⟩, rfl⟩

theorem verify_eq_ok_iff_maySign [Crypto] {approval : Approval} {next : Session}
    (hstage : s.stage = .parsed) (haction : s.request.action = some .signMessage) :
    s.verify tx host = (.ok approval, next) ↔ ∃ path kind key message fee,
      s.MaySign tx host path kind key message fee ∧ approval = signed message kind key fee ∧
      next = { s with request := s.request.withStaker key.xOnly, stage := .verified } := by
  rw [verify_eq_ok_iff_passes]
  constructor
  · rintro ⟨-, _, _, fee, _, hpasses, rfl, rfl⟩
    obtain ⟨path, kind, key, message, h, rfl, rfl, rfl⟩ :=
      (passes_signMessage_iff haction).mp hpasses
    exact ⟨path, kind, key, message, fee, h, rfl, rfl⟩
  · rintro ⟨path, kind, key, message, fee, h, rfl, rfl⟩
    exact ⟨hstage, _, _, fee, _, (passes_signMessage_iff haction).mpr
      ⟨path, kind, key, message, h, rfl, rfl, rfl⟩, rfl, rfl⟩

theorem verify_greeting (kind : AddressKind) :
    (greetingAsked kind).verify (greetingSpend kind) greetingHost =
      (.ok (signed greeting kind greetingKey 0), greetingApproved kind) :=
  (verify_eq_ok_iff_maySign rfl rfl).mpr ⟨_, _, _, _, _, maySign_greeting kind, rfl, rfl⟩

theorem Reachable.exists_text [Crypto] (h : s.Reachable) (hstage : s.stage = .parsed) :
    ∀ message ∈ s.request.message, ∃ text, Message.text message = .ok text := by
  intro message hmessage
  obtain ⟨blob, hdecode⟩ := h.exists_decode hstage
  have hlength : message.length ≤ 40 := (Request.legal_of_decode hdecode).message message hmessage
  exact Message.exists_text_iff.mpr (by omega)

/-- A loaded session agrees to a message exactly when it may, and is then verified with its pin as
it was. Every message that was sent has a text, so this never fails for want of one, and a key that
was named takes no part in what is approved. -/
theorem verify_signMessage_eq_ok_iff [Crypto] (hreachable : s.Reachable)
    (hstage : s.stage = .parsed) (haction : s.request.action = some .signMessage) :
    (∀ approval next, s.verify tx host = (.ok approval, next) ↔ ∃ path kind key message fee,
      s.MaySign tx host path kind key message fee ∧ approval = signed message kind key fee ∧
      next = { s with request := s.request.withStaker key.xOnly, stage := .verified }) ∧
    (∀ message ∈ s.request.message, ∃ text, Message.text message = .ok text) ∧
    (∀ approval, (s.verify tx host).1 = .ok approval →
      (s.unnamed.verify tx host).1 = .ok approval) := by
  refine ⟨fun approval next => verify_eq_ok_iff_maySign hstage haction,
    hreachable.exists_text hstage, ?_⟩
  intro approval happroved
  obtain ⟨path, kind, key, message, fee, h, rfl, -⟩ :=
    (verify_eq_ok_iff_maySign hstage haction).mp (Prod.ext happroved rfl)
  have hunnamed := (verify_eq_ok_iff_maySign (s := s.unnamed) hstage haction).mpr
    ⟨path, kind, key, message, fee, h.unnamed, rfl, rfl⟩
  exact congrArg Prod.fst hunnamed

theorem verify_signMessage_of_greeting :
    let s := greetingAsked
    let tx := greetingSpend
    ((s .taproot).Reachable ∧ (s .taproot).stage = .parsed ∧
      (s .taproot).request.action = some .signMessage ∧
      (∃ next, (s .taproot).verify (tx .taproot) greetingHost =
        (.ok (signed greeting .taproot greetingKey 0), next))) ∧
    ((s .nativeSegwit).Reachable ∧ (s .nativeSegwit).stage = .parsed ∧
      (s .nativeSegwit).request.action = some .signMessage ∧
      (∃ next, (s .nativeSegwit).verify (tx .nativeSegwit) greetingHost =
        (.ok (signed greeting .nativeSegwit greetingKey 0), next)) ∧
      (∃ text, Message.text greeting = .ok text) ∧
      ((s .nativeSegwit).unnamed.verify (tx .nativeSegwit) greetingHost).1 =
        .ok (signed greeting .nativeSegwit greetingKey 0)) := by
  intro s tx
  have hreachable (kind : AddressKind) : (s kind).Reachable :=
    ⟨.standard, _, (run_greetingBlob kind).symm⟩
  have htaproot := ((verify_signMessage_eq_ok_iff (hreachable .taproot) rfl rfl).1 _ _).mpr
    ⟨_, _, _, _, _, maySign_greeting .taproot, rfl, rfl⟩
  obtain ⟨hiff, htext, hunnamed⟩ :=
    @verify_signMessage_eq_ok_iff (s .nativeSegwit) (tx .nativeSegwit) greetingHost _
      (hreachable .nativeSegwit) rfl rfl
  have hsegwit := (hiff _ _).mpr ⟨_, _, _, _, _, maySign_greeting .nativeSegwit, rfl, rfl⟩
  exact ⟨⟨hreachable _, rfl, rfl, _, htaproot⟩, ⟨hreachable _, rfl, rfl, ⟨_, hsegwit⟩,
    htext greeting rfl, hunnamed _ (congrArg Prod.fst hsegwit)⟩⟩

end Session

end CovenantStaking
