import CovenantStaking.Bytes.Basic

/-!
# Tags of a parameter blob
-/

namespace CovenantStaking

/-- What the value of a record is. -/
inductive Tag
  | action
  | providerCount
  | providers
  | covenantCount
  | covenantKeys
  | covenantQuorum
  | stakerKey
  | timelock
  | slashingFeeLimit
  | unbondingFeeLimit
  | message
  | messageKey
  | txid
  | burnAddress
  | derivationPath
  deriving DecidableEq

namespace Tag

def all : List Tag :=
  [action, providerCount, providers, covenantCount, covenantKeys, covenantQuorum, stakerKey,
   timelock, slashingFeeLimit, unbondingFeeLimit, message, messageKey, txid, burnAddress,
   derivationPath]

/-- The byte that a record with this tag starts with. -/
def code : Tag → UInt8
  | action => 0x77
  | providerCount => 0xf9
  | providers => 0xf8
  | covenantCount => 0xc0
  | covenantKeys => 0xc1
  | covenantQuorum => 0x01
  | stakerKey => 0x51
  | timelock => 0x71
  | slashingFeeLimit => 0xfe
  | unbondingFeeLimit => 0xff
  | message => 0x6d
  | messageKey => 0x6b
  | txid => 0x74
  | burnAddress => 0xb0
  | derivationPath => 0x70

def ofCode? (code : UInt8) : Option Tag :=
  all.find? fun tag => tag.code = code

@[simp] theorem ofCode?_code (tag : Tag) : ofCode? tag.code = some tag := by
  cases tag <;> rfl

theorem code_of_ofCode? {code : UInt8} {tag : Tag} (h : ofCode? code = some tag) :
    tag.code = code := by
  simpa using List.find?_some h

theorem code_inj {a b : Tag} (h : a.code = b.code) : a = b := by
  have : ofCode? a.code = ofCode? b.code := congrArg _ h
  simpa using this

end Tag

end CovenantStaking
