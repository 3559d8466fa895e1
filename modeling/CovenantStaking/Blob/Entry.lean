import CovenantStaking.Blob.Tag
import CovenantStaking.Request.Basic

/-!
# Entries of a parameter blob

A record is a tag, a length of two bytes and a value. An entry is a record whose tag is known and
whose value its tag allows. Reading a value names the first thing that its tag does not allow.
-/

namespace CovenantStaking

def maxKeys : Nat := 16

def maxMessageLength : Nat := 40

def maxBurnAddressLength : Nat := 32

/-- A tag byte and a value. -/
structure Record where
  tag : UInt8
  value : Bytes
  deriving DecidableEq

/-- The longest value that a length of two bytes can announce. -/
def Record.maxLength : Nat := 0xffff

/-- The record as it stands in a blob; a value is cut at the longest length. -/
def Record.bytes (r : Record) : Bytes :=
  let value := r.value.take maxLength
  r.tag :: beBytes 2 value.length ++ value

/-- A record that means something. -/
inductive Entry
  | action (action : Action)
  | providerCount (count : UInt8)
  | providers (keys : List XOnlyKey)
  | covenantCount (count : UInt8)
  | covenantKeys (keys : List XOnlyKey)
  | covenantQuorum (quorum : UInt8)
  | stakerKey (key : XOnlyKey)
  | timelock (blocks : UInt64)
  | slashingFeeLimit (sats : UInt64)
  | unbondingFeeLimit (sats : UInt64)
  | message (text : Bytes)
  | messageKey (key : MessageKey)
  | txid (id : Txid)
  | burnAddress (script : Bytes)
  | derivationPath (path : KeyPath)
  deriving DecidableEq

namespace Entry

def tag : Entry → Tag
  | action _ => .action
  | providerCount _ => .providerCount
  | providers _ => .providers
  | covenantCount _ => .covenantCount
  | covenantKeys _ => .covenantKeys
  | covenantQuorum _ => .covenantQuorum
  | stakerKey _ => .stakerKey
  | timelock _ => .timelock
  | slashingFeeLimit _ => .slashingFeeLimit
  | unbondingFeeLimit _ => .unbondingFeeLimit
  | message _ => .message
  | messageKey _ => .messageKey
  | txid _ => .txid
  | burnAddress _ => .burnAddress
  | derivationPath _ => .derivationPath

/-! ## Writing -/

def keysValue (keys : List XOnlyKey) : Bytes :=
  keys.flatMap fun key => key.bytes

/-- A number of sats or blocks, in eight bytes. -/
def wordValue (n : UInt64) : Bytes :=
  beBytes 8 n.toNat

def messageKeyValue : MessageKey → Bytes
  | .xOnly key => key.bytes
  | .compressed key => key.bytes

def value : Entry → Bytes
  | action a => [a.code]
  | providerCount n => [n]
  | providers keys => keysValue keys
  | covenantCount n => [n]
  | covenantKeys keys => keysValue keys
  | covenantQuorum n => [n]
  | stakerKey key => key.bytes
  | timelock blocks => wordValue blocks
  | slashingFeeLimit sats => wordValue sats
  | unbondingFeeLimit sats => wordValue sats
  | message text => text
  | messageKey key => messageKeyValue key
  | txid id => id.bytes
  | burnAddress script => script
  | derivationPath path => path.bytes

def record (e : Entry) : Record :=
  ⟨e.tag.code, e.value⟩

/-! ## Reading -/

/-- A value whose length its tag does not allow. -/
def wrongLength (tag : Tag) (value : Bytes) : Failure :=
  .malformed (.invalidLength tag.code value.length)

def readFixed (n : Nat) (tag : Tag) (value : Bytes) : Except Failure (Octets n) :=
  match Octets.ofBytes? n value with
  | some octets => .ok octets
  | none => .error (wrongLength tag value)

def readByte (tag : Tag) : Bytes → Except Failure UInt8
  | [b] => .ok b
  | value => .error (wrongLength tag value)

def readWord (tag : Tag) (value : Bytes) : Except Failure UInt64 := do
  let octets ← readFixed 8 tag value
  pure (UInt64.ofNat octets.toNat)

def readKeys (tag : Tag) (value : Bytes) : Except Failure (List XOnlyKey) := do
  ensure (value.length % 32 = 0) (wrongLength tag value)
  let count := value.length / 32
  ensure (count ≤ maxKeys) (.malformed (.tooManyKeys tag.code count maxKeys))
  pure ((Octets.pieces 32 count value).map fun octets => ⟨octets⟩)

def readAction (tag : Tag) (value : Bytes) : Except Failure Action := do
  let code ← readByte tag value
  match Action.ofCode? code with
  | some a => pure a
  | none => .error (.unsupported (.actionCode code))

/-- An abscissa or a compressed key, as the length tells. -/
def readMessageKey (tag : Tag) (value : Bytes) : Except Failure MessageKey :=
  match Octets.ofBytes? 32 value, Octets.ofBytes? 33 value with
  | some octets, _ => .ok (.xOnly ⟨octets⟩)
  | none, some octets => .ok (.compressed ⟨octets⟩)
  | none, none => .error (wrongLength tag value)

def readPath (tag : Tag) (value : Bytes) : Except Failure KeyPath := do
  ensure (value ≠ [] ∧ value.length % 4 = 0 ∧ value.length / 4 ≤ KeyPath.maxDepth)
    (wrongLength tag value)
  KeyPath.ofBytes value

/-- A value within bounds, taken as it is. -/
def readText (least most : Nat) (tag : Tag) (value : Bytes) : Except Failure Bytes := do
  ensure (least ≤ value.length ∧ value.length ≤ most) (wrongLength tag value)
  pure value

def read (tag : Tag) (value : Bytes) : Except Failure Entry :=
  match tag with
  | .action => action <$> readAction tag value
  | .providerCount => providerCount <$> readByte tag value
  | .providers => providers <$> readKeys tag value
  | .covenantCount => covenantCount <$> readByte tag value
  | .covenantKeys => covenantKeys <$> readKeys tag value
  | .covenantQuorum => covenantQuorum <$> readByte tag value
  | .stakerKey => (fun octets => stakerKey ⟨octets⟩) <$> readFixed 32 tag value
  | .timelock => timelock <$> readWord tag value
  | .slashingFeeLimit => slashingFeeLimit <$> readWord tag value
  | .unbondingFeeLimit => unbondingFeeLimit <$> readWord tag value
  | .message => message <$> readText 0 maxMessageLength tag value
  | .messageKey => messageKey <$> readMessageKey tag value
  | .txid => (fun octets => txid ⟨octets⟩) <$> readFixed 32 tag value
  | .burnAddress => burnAddress <$> readText 1 maxBurnAddressLength tag value
  | .derivationPath => derivationPath <$> readPath tag value

def ofRecord (r : Record) : Except Failure Entry :=
  match Tag.ofCode? r.tag with
  | some tag => read tag r.value
  | none => .error (.malformed (.unknownTag r.tag))

end Entry

end CovenantStaking
