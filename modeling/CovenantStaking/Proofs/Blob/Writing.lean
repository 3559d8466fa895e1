import CovenantStaking.Blob.Writing
import CovenantStaking.Proofs.Blob.Order

/-!
# Reading what was written

An author who writes every field that is set, each once and in any order, has the same request read
back.
-/

namespace CovenantStaking

/-! ## Parts -/

/-- The tags whose records are written one by one. -/
def Tag.single : List Tag :=
  [action, stakerKey, timelock, slashingFeeLimit, unbondingFeeLimit, message, messageKey, txid,
   burnAddress, derivationPath]

namespace Request

variable {r : Request} {tag : Tag} {e : Entry}

/-- What is written under a tag. The covenant's keys are counted only where they go with a
quorum. -/
def entryUnder (r : Request) : Tag → Option Entry
  | .action => r.action.map .action
  | .providerCount => r.finalityProviders.map fun keys => .providerCount (BlobPart.countByte keys)
  | .providers => r.finalityProviders.map .providers
  | .covenantCount => do
    let keys ← r.covenantKeys
    let _ ← r.covenantQuorum
    some (.covenantCount (BlobPart.countByte keys))
  | .covenantKeys => r.covenantKeys.map .covenantKeys
  | .covenantQuorum => r.covenantQuorum.map .covenantQuorum
  | .stakerKey => r.stakerKey.map .stakerKey
  | .timelock => r.timelock.map .timelock
  | .slashingFeeLimit => r.slashingFeeLimit.map .slashingFeeLimit
  | .unbondingFeeLimit => r.unbondingFeeLimit.map .unbondingFeeLimit
  | .message => r.message.map .message
  | .messageKey => r.messageKey.map .messageKey
  | .txid => r.txid.map .txid
  | .burnAddress => r.burnAddress.map .burnAddress
  | .derivationPath => r.derivationPath.map .derivationPath

/-- Keys and quorum go together; one without the other is a record of its own. -/
def covenantParts (r : Request) : List BlobPart :=
  match r.covenantKeys, r.covenantQuorum with
  | some keys, some quorum => [.covenant keys quorum]
  | some keys, none => [.raw (Entry.covenantKeys keys).record]
  | none, some quorum => [.raw (Entry.covenantQuorum quorum).record]
  | none, none => []

/-- The parts that write each field that is set, once. -/
def parts (r : Request) : List BlobPart :=
  (Tag.single.filterMap r.entryUnder).map .single ++
    (r.finalityProviders.map .finalityProviders).toList ++ r.covenantParts

/-! ## The entries that the parts write -/

def entries (r : Request) : List Entry :=
  (Tag.single ++ [Tag.providerCount, Tag.providers] ++
    [Tag.covenantCount, Tag.covenantKeys, Tag.covenantQuorum]).filterMap r.entryUnder

theorem records_parts : r.parts.flatMap BlobPart.records = r.entries.map Entry.record := by
  have hsingle (es : List Entry) :
      (es.map BlobPart.single).flatMap BlobPart.records = es.map Entry.record := by
    rw [List.flatMap_map, List.map_eq_flatMap]
    rfl
  have hproviders : (r.finalityProviders.map BlobPart.finalityProviders).toList.flatMap
      BlobPart.records =
        ([Tag.providerCount, Tag.providers].filterMap r.entryUnder).map Entry.record := by
    cases hkeys : r.finalityProviders <;> simp [entryUnder, hkeys, BlobPart.records]
  have hcovenant : r.covenantParts.flatMap BlobPart.records =
      ([Tag.covenantCount, Tag.covenantKeys, Tag.covenantQuorum].filterMap r.entryUnder).map
        Entry.record := by
    cases hkeys : r.covenantKeys <;> cases hquorum : r.covenantQuorum <;>
      simp [covenantParts, entryUnder, hkeys, hquorum, BlobPart.records]
  simp only [parts, entries, List.flatMap_append, hsingle, hproviders, hcovenant,
    List.filterMap_append, List.map_append]

theorem exists_of_entryUnder_covenantCount (h : r.entryUnder .covenantCount = some e) :
    ∃ keys, r.covenantKeys = some keys ∧ .covenantCount (BlobPart.countByte keys) = e := by
  simp only [entryUnder, bind, Option.bind_eq_some_iff, Option.some.injEq] at h
  obtain ⟨keys, hkeys, _, _, rfl⟩ := h
  exact ⟨keys, hkeys, rfl⟩

theorem tag_entryUnder (h : r.entryUnder tag = some e) : e.tag = tag := by
  cases tag with
  | covenantCount =>
      obtain ⟨_, _, rfl⟩ := exists_of_entryUnder_covenantCount h
      rfl
  | _ =>
      obtain ⟨_, _, rfl⟩ := Option.map_eq_some_iff.mp h
      rfl

theorem mem_entries_iff : e ∈ r.entries ↔ r.entryUnder e.tag = some e := by
  rw [entries, List.mem_filterMap]
  constructor
  · rintro ⟨tag, _, h⟩
    rwa [tag_entryUnder h]
  · intro h
    exact ⟨e.tag, by cases e.tag <;> decide, h⟩

theorem nodup_tag_entries : (r.entries.map Entry.tag).Nodup := by
  rw [entries, List.Nodup, List.pairwise_map, List.pairwise_filterMap]
  refine List.Pairwise.imp (fun {tag tag'} hne e he e' he' => ?_)
    (by decide : List.Nodup (_ ++ _ ++ _ : List Tag))
  rwa [tag_entryUnder he, tag_entryUnder he']

theorem valueIn_entries : Entry.valueIn r.entries tag = (r.entryUnder tag).map Entry.value := by
  apply Option.ext
  intro value
  simp only [Entry.valueIn_eq_some_iff nodup_tag_entries, mem_entries_iff, Option.map_eq_some_iff]
  constructor
  · rintro ⟨e, h, rfl, hvalue⟩
    exact ⟨e, h, hvalue⟩
  · rintro ⟨e, h, hvalue⟩
    cases tag_entryUnder h
    exact ⟨e, h, rfl, hvalue⟩

theorem Legal.entries (h : r.Legal) : ∀ e ∈ r.entries, e.Legal := by
  intro e he
  have hentry := mem_entries_iff.mp he
  cases e with
  | providers keys => exact h.finalityProviders keys (by simpa [Entry.tag, entryUnder] using hentry)
  | covenantKeys keys => exact h.covenantKeys keys (by simpa [Entry.tag, entryUnder] using hentry)
  | message text => exact h.message text (by simpa [Entry.tag, entryUnder] using hentry)
  | burnAddress script => exact h.burnAddress script (by simpa [Entry.tag, entryUnder] using hentry)
  | derivationPath path =>
      exact h.derivationPath path (by simpa [Entry.tag, entryUnder] using hentry)
  | _ => trivial

theorem ofEntries_entries (h : r.Legal) : ofEntries r.entries = r := by
  refine eq_of_written (fun tag htag => ?_) (legal_ofEntries h.entries).derivationPath
    h.derivationPath
  rw [written_ofEntries nodup_tag_entries htag, valueIn_entries]
  cases tag with
  | providerCount => exact absurd (.inl rfl) htag
  | covenantCount => exact absurd (.inr rfl) htag
  | message | burnAddress => simp [entryUnder, written, Entry.value, Function.comp_def]
  | _ => simp only [entryUnder, written, Option.map_map]; rfl

theorem toNat_countByte {keys : List XOnlyKey} (h : keys.length ≤ maxKeys) :
    (BlobPart.countByte keys).toNat = keys.length := by
  have hfew : keys.length ≤ 16 := h
  rw [BlobPart.countByte, UInt8.toNat_ofNat']
  omega

theorem checkCount_entries {field : Field} {count? : Entry → Option UInt8}
    {keys : Option (List XOnlyKey)} (hfew : ∀ list ∈ keys, list.length ≤ maxKeys)
    (hcount : ∀ es : List Entry, (es.findSome? count?).map (fun n => [n]) = Entry.valueIn es tag)
    (hentry : ∀ e, r.entryUnder tag = some e →
      ∃ list, keys = some list ∧ e.value = [BlobPart.countByte list]) :
    checkCount field (r.entries.findSome? count?) keys = .ok () := by
  rw [checkCount_eq_ok_iff, hcount, valueIn_entries]
  intro value hvalue list hlist
  obtain ⟨e, he, rfl⟩ := Option.map_eq_some_iff.mp hvalue
  obtain ⟨list', hlist', hvalue'⟩ := hentry e he
  cases hlist.symm.trans hlist'
  have hread : ofBeBytes [BlobPart.countByte list] = (BlobPart.countByte list).toNat := by
    simp [ofBeBytes, ofLeBytes]
  rw [hvalue', hread, toNat_countByte (hfew list hlist)]

end Request

namespace Blob

variable {r : Request} {parts : List BlobPart}

theorem decode_entries (hlegal : r.Legal)
    (hquorum : ∀ n ∈ r.covenantQuorum, ∀ keys ∈ r.covenantKeys, n.toNat ≤ keys.length) :
    decode (framedEntries r.entries) = .ok r := by
  have hproviders : Request.checkCount .finalityProviders
      (r.entries.findSome? Entry.providerCount?) r.finalityProviders = .ok () := by
    refine Request.checkCount_entries hlegal.finalityProviders Entry.valueIn_providerCount ?_
    intro e he
    obtain ⟨keys, hkeys, rfl⟩ := Option.map_eq_some_iff.mp he
    exact ⟨keys, hkeys, rfl⟩
  have hcovenant : Request.checkCount .covenantKeys
      (r.entries.findSome? Entry.covenantCount?) r.covenantKeys = .ok () := by
    refine Request.checkCount_entries hlegal.covenantKeys Entry.valueIn_covenantCount ?_
    intro e he
    obtain ⟨keys, hkeys, rfl⟩ := Request.exists_of_entryUnder_covenantCount he
    exact ⟨keys, hkeys, rfl⟩
  rw [decode_framedEntries Request.nodup_tag_entries hlegal.entries,
    Request.ofEntries_entries hlegal, hproviders, hcovenant,
    Request.checkQuorum_eq_ok_iff.mpr hquorum]
  rfl

theorem bytes_eq_framed {record : Record} (h : record.Announceable) :
    record.bytes = record.framed := by
  have hlength : record.value.length ≤ Record.maxLength := Nat.le_of_lt_succ h
  rw [Record.bytes, Record.framed, List.take_of_length_le hlength]
  rfl

/-- A request within its limits is what its fields are read back as, once each of them is written,
in whatever order. -/
theorem decode_write (hlegal : r.Legal)
    (hquorum : ∀ n ∈ r.covenantQuorum, ∀ keys ∈ r.covenantKeys, n.toNat ≤ keys.length)
    (hparts : parts.Perm r.parts) : decode (write parts) = .ok r := by
  -- parts in another order write the records in another order, and so the entries too
  have hrecords : (parts.flatMap BlobPart.records).Perm (r.entries.map Entry.record) := by
    rw [← Request.records_parts]
    exact hparts.flatMap_right BlobPart.records
  obtain ⟨es, hes, hperm⟩ := exists_map_eq_of_perm_map hrecords
  have hframed : write parts = framedEntries es := by
    rw [write, ← hes, List.flatMap_map, framedEntries]
    refine List.flatMap_congr fun e he => bytes_eq_framed ?_
    exact (hlegal.entries e (hperm.mem_iff.mp he)).announceable
  rw [hframed, ← decode_framedEntries_perm hperm.symm Request.nodup_tag_entries hlegal.entries,
    decode_entries hlegal hquorum]

/-- A request with every field set, its list of providers and its message empty. -/
def fullRequest : Request where
  action := some .expansion
  finalityProviders := some []
  covenantKeys := some [⟨.ofNat 32 1⟩, ⟨.ofNat 32 2⟩]
  covenantQuorum := some 2
  stakerKey := some ⟨.ofNat 32 3⟩
  timelock := some 0xffff
  slashingFeeLimit := some 1000
  unbondingFeeLimit := some 0xffffffffffffffff
  burnAddress := some [0x6a]
  message := some []
  messageKey := some (.compressed ⟨.ofNat 33 4⟩)
  txid := some ⟨.ofNat 32 5⟩
  derivationPath := some (.taproot 0 0 0 0)

theorem decode_write_reverse :
    fullRequest.Legal ∧ fullRequest.parts.length = 12 ∧
      decode (write fullRequest.parts.reverse) = .ok fullRequest := by
  have hlegal : fullRequest.Legal := by
    constructor
    case finalityProviders | covenantKeys | message | burnAddress => rintro _ ⟨⟩; decide
    case derivationPath =>
      rintro _ ⟨⟩
      exact KeyPath.packed_iff.mpr ⟨[0x80000056, 0x80000000, 0x80000000, 0, 0], rfl⟩
  have hquorum : ∀ n ∈ fullRequest.covenantQuorum, ∀ keys ∈ fullRequest.covenantKeys,
      n.toNat ≤ keys.length := by
    rintro _ ⟨⟩ _ ⟨⟩
    decide
  exact ⟨hlegal, rfl, decode_write hlegal hquorum (List.reverse_perm _)⟩

end Blob

end CovenantStaking
