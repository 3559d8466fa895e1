import CovenantStaking.Failure
import CovenantStaking.Json.Fields
import CovenantStaking.Policy.Basic

/-!
# JSON forms of the domain's values

Keys and digests are hexadecimal strings, choices are names, and paths and bounds are structures.
-/

namespace CovenantStaking

open Json

/-! ## Byte strings -/

/-- The byte string of length `n` whose hexadecimal form a value is. -/
def Octets.ofJson? (n : Nat) (value : Value) : Option (Octets n) := do
  let text ← value.text?
  (Octets.ofHex n text).toOption

def Octets.toJson {n : Nat} (octets : Octets n) : Value :=
  .ofText octets.hex

def XOnlyKey.ofJson? (value : Value) : Option XOnlyKey :=
  (fun octets => ⟨octets⟩) <$> Octets.ofJson? 32 value

def PublicKey.ofJson? (value : Value) : Option PublicKey :=
  (fun octets => ⟨octets⟩) <$> Octets.ofJson? 33 value

def TapNode.ofJson? (value : Value) : Option TapNode :=
  (fun octets => ⟨octets⟩) <$> Octets.ofJson? 32 value

def Txid.ofJson? (value : Value) : Option Txid :=
  (fun octets => ⟨octets⟩) <$> Octets.ofJson? 32 value

/-! ## Choices -/

def Parity.name : Parity → String
  | even => "Even"
  | odd => "Odd"

def Parity.ofJson? (value : Value) : Option Parity := do
  let wanted ← value.variant?
  named? [even, odd] name wanted

def Parity.toJson (parity : Parity) : Value :=
  .ofText parity.name

def AddressKind.name : AddressKind → String
  | nativeSegwit => "NativeSegwit"
  | taproot => "Taproot"

def AddressKind.ofJson? (value : Value) : Option AddressKind := do
  let wanted ← value.variant?
  named? [nativeSegwit, taproot] name wanted

def AddressKind.toJson (kind : AddressKind) : Value :=
  .ofText kind.name

def Action.ofJson? (value : Value) : Option Action := do
  let wanted ← value.variant?
  named? all name wanted

def Action.toJson (action : Action) : Value :=
  .ofText action.name

def Network.ofJson? (value : Value) : Option Network := do
  let wanted ← value.variant?
  named? all name wanted

def Network.toJson (network : Network) : Value :=
  .ofText network.name

/-! ## Structures -/

/-- A word of 64 bits. -/
def wordOfJson? (value : Value) : Option UInt64 :=
  UInt64.ofNat <$> value.natural? UInt64.size

def KeyPath.fieldNames : List String :=
  ["components", "depth"]

/-- The path of ten words and a depth, which may be any byte. -/
def KeyPath.ofJson? (value : Value) : Option KeyPath := do
  match ← value.fields? fieldNames with
  | [some components, some depth] =>
    let items ← components.items?
    let words ← items.mapM fun item => UInt32.ofNat <$> item.natural? UInt32.size
    let depth ← depth.natural? UInt8.size
    if h : words.length = maxDepth then some ⟨words, UInt8.ofNat depth, h⟩ else none
  | _ => none

def KeyPath.toJson (path : KeyPath) : Value :=
  .ofFields
    [("components", .array (path.slots.map fun word => .ofNat word.toNat)),
     ("depth", .ofNat path.depth.toNat)]

def FeeBounds.fieldNames : List String :=
  ["min", "max"]

def FeeBounds.ofJson? (value : Value) : Option FeeBounds := do
  match ← value.fields? fieldNames with
  | [some min, some max] => do
    let min ← wordOfJson? min
    let max ← wordOfJson? max
    pure { min, max }
  | _ => none

def FeeBounds.toJson (bounds : FeeBounds) : Value :=
  .ofFields [("min", .ofNat bounds.min.toNat), ("max", .ofNat bounds.max.toNat)]

end CovenantStaking
