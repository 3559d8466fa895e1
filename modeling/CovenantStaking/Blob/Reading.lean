import CovenantStaking.Blob.Entry

/-!
# Reading a parameter blob

A blob is scanned from the left, one record after the other, and the scan stops at the first fault.
What the records say together, that counts agree with lists and that a quorum can be reached, is
checked once all of them are read.
-/

namespace CovenantStaking

namespace Blob

/-- The first record of a blob that is not empty, and the bytes after it; `offset` bytes went
before. -/
def firstRecord (offset : Nat) : Bytes → Except Failure (Record × Bytes)
  | tag :: high :: low :: rest =>
    let declared := ofBeBytes [high, low]
    if rest.length < declared then
      .error (.malformed (.truncatedValue tag declared rest.length))
    else .ok (⟨tag, rest.take declared⟩, rest.drop declared)
  | _ => .error (.malformed (.truncatedHeader offset))

/-- A record takes up at least its header. -/
theorem firstRecord_length {offset : Nat} {bytes rest : Bytes} {r : Record}
    (h : firstRecord offset bytes = .ok (r, rest)) : rest.length < bytes.length := by
  unfold firstRecord at h
  split at h
  · dsimp only at h
    split at h
    · cases h
    · cases h
      simp only [List.length_drop, List.length_cons]
      omega
  · cases h

/-- The entries of a blob from `offset` on, where `seen` holds the tags before it. -/
def scan (offset : Nat) (seen : List UInt8) (bytes : Bytes) : Except Failure (List Entry) :=
  if bytes = [] then .ok []
  else
    match h : firstRecord offset bytes with
    | .error cause => .error cause
    | .ok (r, rest) => do
      ensure (r.tag ∉ seen) (.malformed (.duplicateTag r.tag))
      let entry ← Entry.ofRecord r
      have : rest.length < bytes.length := firstRecord_length h
      let entries ← scan (offset + 3 + r.value.length) (r.tag :: seen) rest
      pure (entry :: entries)
termination_by bytes.length

def entries (bytes : Bytes) : Except Failure (List Entry) :=
  scan 0 [] bytes

end Blob

/-! ## What entries say together -/

namespace Entry

def providerCount? : Entry → Option UInt8
  | providerCount n => some n
  | _ => none

def covenantCount? : Entry → Option UInt8
  | covenantCount n => some n
  | _ => none

end Entry

namespace Request

/-- The request with the field of an entry set; count records set none. -/
def put (r : Request) : Entry → Request
  | .action a => { r with action := some a }
  | .providerCount _ => r
  | .providers keys => { r with finalityProviders := some keys }
  | .covenantCount _ => r
  | .covenantKeys keys => { r with covenantKeys := some keys }
  | .covenantQuorum n => { r with covenantQuorum := some n }
  | .stakerKey key => { r with stakerKey := some key }
  | .timelock blocks => { r with timelock := some blocks }
  | .slashingFeeLimit sats => { r with slashingFeeLimit := some sats }
  | .unbondingFeeLimit sats => { r with unbondingFeeLimit := some sats }
  | .message text => { r with message := some text }
  | .messageKey key => { r with messageKey := some key }
  | .txid id => { r with txid := some id }
  | .burnAddress script => { r with burnAddress := some script }
  | .derivationPath path => { r with derivationPath := some path }

def ofEntries (entries : List Entry) : Request :=
  entries.foldl put empty

/-- Fails if a count was announced, a list was sent, and they disagree. -/
def checkCount (field : Field) (declared : Option UInt8) (keys : Option (List XOnlyKey)) :
    Except Failure Unit :=
  match declared, keys with
  | some n, some list =>
    ensure (n.toNat = list.length) (.malformed (.countMismatch field n.toNat list.length))
  | _, _ => .ok ()

/-- Fails if the quorum cannot be reached with the covenant's keys. -/
def checkQuorum (r : Request) : Except Failure Unit :=
  match r.covenantQuorum, r.covenantKeys with
  | some n, some keys => ensure (n.toNat ≤ keys.length) (.quorum n keys.length)
  | _, _ => .ok ()

end Request

def Blob.decode (bytes : Bytes) : Except Failure Request := do
  let entries ← Blob.entries bytes
  let request := Request.ofEntries entries
  Request.checkCount .finalityProviders (entries.findSome? Entry.providerCount?)
    request.finalityProviders
  Request.checkCount .covenantKeys (entries.findSome? Entry.covenantCount?) request.covenantKeys
  request.checkQuorum
  pure request

/-- What a holder has after loading a blob: the request, or the cause and an empty one. -/
def Request.load (bytes : Bytes) : Except Failure Unit × Request :=
  match Blob.decode bytes with
  | .ok request => (.ok (), request)
  | .error cause => (.error cause, empty)

end CovenantStaking
