import CovenantStaking.Json.Value

/-!
# Structures in JSON

A structure is an object with a member for each field, among others that do not matter, or an array
of its fields in order. One of several names is a string, or an object whose only member has that
key and no value.
-/

namespace CovenantStaking.Json

/-- The value of the one member with a key; `some none` if there is none, and `none` if there are
several. -/
def member? (members : List (String × Value)) (key : String) : Option (Option Value) :=
  match members.filter fun (k, _) => k = key with
  | [] => some none
  | [(_, value)] => some (some value)
  | _ => none

namespace Value

/-- The values of the named fields, in order; `none` for one that is wanting. -/
def fields? (names : List String) : Value → Option (List (Option Value))
  | object members => do
    let members ← members.mapM fun (key, value) => do
      let key ← Json.text? key
      pure (String.ofList key, value)
    names.mapM (member? members)
  | array items =>
    if items.length ≤ names.length then
      some (items.map some ++ List.replicate (names.length - items.length) none)
    else none
  | _ => none

def variant? : Value → Option String
  | string raw => String.ofList <$> Json.text? raw
  | object [(key, null)] => String.ofList <$> Json.text? key
  | _ => none

def ofFields (fields : List (String × Value)) : Value :=
  object (fields.map fun (name, value) => (name.toList, value))

def items? : Value → Option (List Value)
  | array items => some items
  | _ => none

end Value

/-- The first of several values that goes by a name. -/
def named? {α : Type} (all : List α) (name : α → String) (wanted : String) : Option α :=
  all.find? fun a => name a = wanted

end CovenantStaking.Json
