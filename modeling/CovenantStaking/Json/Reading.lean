import CovenantStaking.Json.Token

/-!
# Reading JSON

The tokens of a text are taken one by one. What has been opened and not yet closed lies on a stack,
so that no depth of nesting is too much.
-/

namespace CovenantStaking.Json

/-- A collection that has been opened, without the value that is being read for it. Its items are in
reverse. -/
inductive Open
  | array (items : List Value)
  | object (members : List (List Char × Value)) (key : List Char)

inductive Expecting
  | value
  /-- The array has just been opened: a value or its end. -/
  | firstItem
  /-- A value of the array has been read: a comma or its end. -/
  | afterItem (items : List Value)
  /-- The object has just been opened: a key or its end. -/
  | firstKey
  /-- A comma has been read: a key. -/
  | nextKey (members : List (List Char × Value))
  | colon (members : List (List Char × Value)) (key : List Char)
  /-- A value of the object has been read: a comma or its end. -/
  | afterMember (members : List (List Char × Value))
  | done (value : Value)

/-- How far the reading of a value has come. -/
structure Progress where
  stack : List Open
  expecting : Expecting

namespace Progress

def start : Progress := ⟨[], .value⟩

/-- A value is complete; it goes to the collection that it was read for. -/
def complete (stack : List Open) (value : Value) : Progress :=
  match stack with
  | [] => ⟨[], .done value⟩
  | .array items :: stack => ⟨stack, .afterItem (value :: items)⟩
  | .object members key :: stack => ⟨stack, .afterMember ((key, value) :: members)⟩

def begin? (stack : List Open) : Token → Option Progress
  | .scalar value => some (complete stack value)
  | .openArray => some ⟨stack, .firstItem⟩
  | .openObject => some ⟨stack, .firstKey⟩
  | _ => none

def next? (p : Progress) (token : Token) : Option Progress :=
  match p.expecting, token with
  | .value, token => begin? p.stack token
  | .firstItem, .closeArray => some (complete p.stack (.array []))
  | .firstItem, token => begin? (.array [] :: p.stack) token
  | .afterItem items, .comma => some ⟨.array items :: p.stack, .value⟩
  | .afterItem items, .closeArray => some (complete p.stack (.array items.reverse))
  | .firstKey, .closeObject => some (complete p.stack (.object []))
  | .firstKey, .scalar (.string key) => some ⟨p.stack, .colon [] key⟩
  | .nextKey members, .scalar (.string key) => some ⟨p.stack, .colon members key⟩
  | .colon members key, .colon => some ⟨.object members key :: p.stack, .value⟩
  | .afterMember members, .comma => some ⟨p.stack, .nextKey members⟩
  | .afterMember members, .closeObject => some (complete p.stack (.object members.reverse))
  | _, _ => none

def value? (p : Progress) : Option Value :=
  match p.expecting with
  | .done value => some value
  | _ => none

end Progress

/-- The value that a text is the JSON form of. -/
def Value.ofJson? (text : String) : Option Value := do
  let tokens ← Token.ofText text.toList
  let progress ← tokens.foldlM Progress.next? Progress.start
  progress.value?

/-- What a text holds, when `decode?` tells it from a value. -/
def read? {α : Type} (decode? : Value → Option α) (text : String) : Option α := do
  let value ← Value.ofJson? text
  decode? value

end CovenantStaking.Json
