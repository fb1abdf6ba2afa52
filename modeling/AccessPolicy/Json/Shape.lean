import AccessPolicy.Json.Basic

/-!
# Decoding JSON values of a fixed shape

A record is decoded from an object, whose members may stand in any order, or from an array of its
fields in the declared order. Fields are decoded in the order of the text, and the first fault is
the one reported; missing fields are noticed after that. A choice between named cases is decoded
from the name of a case alone or from an object with the name as its only key. A record that is the
content of such a case is decoded from an object only.
-/

namespace AccessPolicy.Json

/-- Why a value does not have the expected shape. -/
inductive Fault
  /-- A value of another type. -/
  | wrongType (found expected : String)
  /-- A value of the right type that is out of bounds. -/
  | wrongValue (expected : String)
  /-- An array with this many items, which are too few or too many. -/
  | wrongLength (count : Nat)
  | missingField (name : String)
  | unknownField (name : String)
  | unknownVariant (name : String)
  | duplicateField (name : String)
  /-- More items than fields where a text is read. -/
  | trailing
  /-- The shape is right, and the content is refused for a reason of its own. -/
  | content (message : String)
deriving DecidableEq

namespace Fault

/-- The wording of a fault. -/
def message : Fault → String
  | wrongType found expected => s!"invalid type: {found}, expected {expected}"
  | wrongValue expected => s!"invalid value: expected {expected}"
  | wrongLength count => s!"invalid length {count}"
  | missingField name => s!"missing field \x60{name}\x60"
  | unknownField name => s!"unknown field \x60{name}\x60"
  | unknownVariant name => s!"unknown variant \x60{name}\x60"
  | duplicateField name => s!"duplicate field \x60{name}\x60"
  | trailing => "trailing characters"
  | content message => message

end Fault

/-- The name of a value's type. -/
def typeName : Json → String
  | null => "null"
  | bool _ => "boolean"
  | int _ => "integer"
  | float _ => "floating point number"
  | str _ => "string"
  | arr _ => "sequence"
  | obj _ => "map"

/-! ### Single values -/

/-- A text. -/
def asString : Json → Except Fault String
  | str s => .ok s
  | v => .error (.wrongType v.typeName "a string")

/-- A truth value. -/
def asBool : Json → Except Fault Bool
  | bool b => .ok b
  | v => .error (.wrongType v.typeName "a boolean")

/-- A natural number of at most 64 bits. -/
def asSize : Json → Except Fault Nat
  | int n => if 0 ≤ n ∧ n < 18446744073709551616 then .ok n.toNat else .error (.wrongValue "a size")
  | v => .error (.wrongType v.typeName "a size")

/-- A value that may be null. -/
def asOption {α : Type} (read : Json → Except Fault α) : Json → Except Fault (Option α)
  | null => .ok none
  | v => (read v).map some

/-- A list of values. -/
def asList {α : Type} (read : Json → Except Fault α) : Json → Except Fault (List α)
  | arr items => items.mapM read
  | v => .error (.wrongType v.typeName "a sequence")

/-- The members of an object. -/
def asObject : Json → Except Fault (List (String × Json))
  | obj members => .ok members
  | v => .error (.wrongType v.typeName "a map")

/-! ### Records -/

/-- A field of a record that is gathered in a `σ`. -/
structure Field (σ : Type) where
  /-- The name of the field. -/
  name : String
  /-- Whether it must be present. -/
  required : Bool
  /-- Decode the field and store it. -/
  store : Json → σ → Except Fault σ

/-- How a record is read. -/
structure Manner where
  /-- Fields that are not declared are refused, not skipped. -/
  strict : Bool
  /-- The record is read from a text, not from a value. -/
  fromText : Bool
deriving DecidableEq

variable {σ : Type}

/-- Store the members in order; `seen` holds the fields stored before. -/
def storeMembers (manner : Manner) (fields : List (Field σ)) :
    (seen : List String) → List (String × Json) → σ → Except Fault (List String × σ)
  | seen, [], s => .ok (seen, s)
  | seen, (k, v) :: ms, s =>
    match fields.find? (·.name = k) with
    | none =>
      if manner.strict then .error (.unknownField k) else storeMembers manner fields seen ms s
    | some f =>
      if k ∈ seen then .error (.duplicateField k)
      else
        match f.store v s with
        | .error e => .error e
        | .ok s => storeMembers manner fields (k :: seen) ms s

/-- Store the items into the fields in order. -/
def storeItems (manner : Manner) (count : Nat) :
    List (Field σ) → List Json → σ → Except Fault σ
  | [], [], s => .ok s
  | [], _ :: _, _ => .error (if manner.fromText then .trailing else .wrongLength count)
  | f :: fs, [], s =>
    if f.required then .error (.wrongLength count) else storeItems manner count fs [] s
  | f :: fs, v :: vs, s =>
    match f.store v s with
    | .error e => .error e
    | .ok s => storeItems manner count fs vs s

/-- Decode a record, starting from what holds where fields are missing. -/
def readRecord (manner : Manner) (fields : List (Field σ)) (start : σ) : Json → Except Fault σ
  | obj members =>
    match storeMembers manner fields [] members start with
    | .error e => .error e
    | .ok (seen, s) =>
      match fields.find? (fun f => f.required && !seen.contains f.name) with
      | some f => .error (.missingField f.name)
      | none => .ok s
  | arr items => storeItems manner items.length fields items start
  | v => .error (.wrongType v.typeName "a record")

/-! ### Choices -/

/-- The name of the chosen case and its content. -/
def readVariant : Json → Except Fault (String × Option Json)
  | str s => .ok (s, none)
  | obj [(k, v)] => .ok (k, some v)
  | obj _ => .error (.wrongValue "a map with a single key")
  | v => .error (.wrongType v.typeName "a variant")

/-- A choice between cases without content. -/
def readCase {α : Type} (cases : String → Option α) (v : Json) : Except Fault α :=
  match readVariant v with
  | .error e => .error e
  | .ok (name, content) =>
    match cases name with
    | none => .error (.unknownVariant name)
    | some a =>
      match content with
      | none | some null => .ok a
      | some c => .error (.wrongType c.typeName "a case without content")

/-- The content of a case that has one. -/
def caseContent : Option Json → Except Fault Json
  | some v => .ok v
  | none => .error (.wrongType "a case without content" "a case with content")

/-- The content of a case that is a record, which has to name its fields. -/
def caseRecord (content : Option Json) : Except Fault Json := do
  let members ← asObject (← caseContent content)
  pure (obj members)

end AccessPolicy.Json
