import AccessPolicy.Error
import AccessPolicy.Grammar.Parser
import AccessPolicy.Json.Basic
import AccessPolicy.Json.Shape
import AccessPolicy.Value.Basic

/-!
# Uids and values from JSON

`Uid.ofParts` accepts exactly the valid type names, and `Uid.decode` reads the JSON form of a uid
through it.

Booleans, texts and 64-bit integers stand for themselves, arrays for sets and objects for records.
An object whose only member is `Value.entityKey` stands for an entity, given as a literal or as an
object with type and id. Null and other numbers stand for nothing.
-/

namespace AccessPolicy

namespace Uid

/-- The uid of a type and an id, if the type is a type name. -/
def ofParts (type id : String) : Except Error Uid :=
  if Name.isTypeName type then .ok ⟨type, id⟩
  else .error (.invalidFormat s!"invalid entity type name \x60{type}\x60")

/-- The members `type` and `id`, as far as they are read. -/
def parts : List (Json.Field (String × String)) :=
  [⟨"type", true, fun v s => (Json.asString v).map fun t => (t, s.2)⟩,
   ⟨"id", true, fun v s => (Json.asString v).map fun i => (s.1, i)⟩]

/-- Decode the JSON form. -/
def decode (v : Json) : Except Json.Fault Uid :=
  match Json.readRecord ⟨false, false⟩ parts ("", "") v with
  | .error e => .error e
  | .ok (type, id) => (ofParts type id).mapError fun e => .content e.message

/-- The uid of a literal in a string, or of the JSON form. -/
def ofJson : Json → Except Error Uid
  | .str literal => Uid.parse literal
  | v => (decode v).mapError fun e => .invalidFormat e.message

end Uid

namespace Value

/-- The written form of a number that is no 64-bit integer. -/
def notLong (path : Json.Path) (number : String) : Error :=
  .invalidFormat (path.text ++ s!": \x60{number}\x60 is not a 64-bit integer")

mutual

/-- The value that stands at a path. -/
def ofJsonAt : Json → Json.Path → Except Error Value
  | .bool b, _ => .ok (.bool b)
  | .int n, path =>
    match Long.ofInt? n with
    | some l => .ok (.long l)
    | none => .error (notLong path (toString n))
  | .float bits, path => .error (notLong path (Decimal.floatText bits))
  | .str s, _ => .ok (.string s)
  | .arr items, path => (ofJsonItems items 0 path).map ofItems
  | .obj members, path =>
    match Json.find? entityKey members with
    | some u =>
      if members.length ≠ 1 then
        .error (.invalidFormat (path.text ++ s!": \x60{entityKey}\x60 must be the only key"))
      else
        match Uid.ofJson u with
        | .ok u => .ok (.entity u)
        | .error e => .error (.invalidFormat (path.text ++ ": " ++ e.message))
    | none => (ofJsonFields members path).map ofFields
  | .null, path => .error (.invalidFormat (path.text ++ ": null is not a valid value"))

/-- The values of an array's items, of which the first has the given index. -/
def ofJsonItems : List Json → Nat → Json.Path → Except Error (List Value)
  | [], _, _ => .ok []
  | v :: vs, i, path =>
    match ofJsonAt v (path.item i) with
    | .error e => .error e
    | .ok x => (ofJsonItems vs (i + 1) path).map (x :: ·)

/-- The fields of an object's members. -/
def ofJsonFields : List (String × Json) → Json.Path → Except Error (List (String × Value))
  | [], _ => .ok []
  | (k, v) :: ms, path =>
    match ofJsonAt v (path.member k) with
    | .error e => .error e
    | .ok x => (ofJsonFields ms path).map ((k, x) :: ·)

end

/-- The value of a JSON value. -/
def ofJson (v : Json) : Except Error Value :=
  ofJsonAt v (.root "$")

end Value

end AccessPolicy
