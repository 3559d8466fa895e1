import CovenantStaking.Json.Domain
import CovenantStaking.Json.Reading
import CovenantStaking.Json.Writing

/-!
# Policies as text

A policy is kept as JSON. A field that is wanting takes its standard value, and a policy whose
bounds are the wrong way round is not taken.
-/

namespace CovenantStaking

open Json

/-- Bounds, or the absence of bounds. -/
def FeeBounds.optionOfJson? : Value → Option (Option FeeBounds)
  | .null => some none
  | value => some <$> FeeBounds.ofJson? value

namespace Policy

def fieldNames : List String :=
  ["network", "fee_limit_bounds", "high_fee_warning_sats"]

/-- What a field holds, or its standard value if the field is wanting. -/
def fieldOr {α : Type} (standard : α) (read : Value → Option α) : Option Value → Option α
  | some value => read value
  | none => some standard

/-- The policy that a value is the form of, its bounds not checked. -/
def ofJson? (value : Value) : Option Policy := do
  match ← value.fields? fieldNames with
  | [network, feeBounds, highFee] => do
    let network ← fieldOr standard.network Network.ofJson? network
    let feeBounds ← fieldOr standard.feeBounds FeeBounds.optionOfJson? feeBounds
    let highFee ← fieldOr standard.highFee wordOfJson? highFee
    pure { network, feeBounds, highFee }
  | _ => none

def toJson (policy : Policy) : Value :=
  .ofFields
    [("network", policy.network.toJson),
     ("fee_limit_bounds",
        match policy.feeBounds with
        | some bounds => bounds.toJson
        | none => .null),
     ("high_fee_warning_sats", .ofNat policy.highFee.toNat)]

def text (policy : Policy) : String :=
  policy.toJson.pretty

def ofText (text : String) : Except Failure Policy :=
  match Json.read? ofJson? text with
  | some policy => do
    policy.validate
    pure policy
  | none => .error .json

/-! ## Files -/

/-- A place for a file: out of reach, or with the bytes that it holds. -/
inductive Location
  | unreachable
  | file (content : Bytes)
  deriving DecidableEq

/-- The policy in a file, which has to be text. -/
def load : Location → Except Failure Policy
  | .unreachable => .error .file
  | .file content =>
    match String.fromUTF8? (ByteArray.mk content.toArray) with
    | some text => ofText text
    | none => .error .file

/-- The place with the policy in its file, whatever was there. -/
def save (policy : Policy) : Location → Except Failure Location
  | .unreachable => .error .file
  | .file _ => .ok (.file (utf8 policy.text))

end Policy

end CovenantStaking
