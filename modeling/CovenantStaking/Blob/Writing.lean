import CovenantStaking.Blob.Entry

/-!
# Writing a parameter blob

The author of a blob puts parts one after the other. A list of keys goes with the record that counts
it, and the covenant's keys go with their quorum.
-/

namespace CovenantStaking

inductive BlobPart
  /-- A record as it is, whatever its tag and value. -/
  | raw (record : Record)
  | single (entry : Entry)
  | finalityProviders (keys : List XOnlyKey)
  | covenant (keys : List XOnlyKey) (quorum : UInt8)
  deriving DecidableEq

namespace BlobPart

/-- The number of keys in one byte, which holds no more than 255. -/
def countByte (keys : List XOnlyKey) : UInt8 :=
  UInt8.ofNat (min keys.length 255)

def records : BlobPart → List Record
  | raw record => [record]
  | single entry => [entry.record]
  | finalityProviders keys =>
    [(Entry.providerCount (countByte keys)).record, (Entry.providers keys).record]
  | covenant keys quorum =>
    [(Entry.covenantCount (countByte keys)).record, (Entry.covenantKeys keys).record,
     (Entry.covenantQuorum quorum).record]

end BlobPart

def Blob.write (parts : List BlobPart) : Bytes :=
  (parts.flatMap BlobPart.records).flatMap Record.bytes

end CovenantStaking
