import AccessPolicy.Text.Name
import AccessPolicy.Text.Quoted
import AccessPolicy.Json.Basic

/-!
# Entity identifiers

An entity is named by its type, a path of identifiers, and an id, any text. The literal form is the
type, `::` and the quoted id; the JSON form is an object with the members `type` and `id`. Uids are
ordered by type, then by id, both by code point.
-/

namespace AccessPolicy

/-- The name of an entity. -/
structure Uid where
  /-- The type name. -/
  type : String
  /-- The id within the type. -/
  id : String
deriving DecidableEq

namespace Uid

instance : Ord Uid := ⟨fun a b => (compare a.type b.type).then (compare a.id b.id)⟩

/-- Whether the type is a type name. -/
def isValid (u : Uid) : Bool :=
  Name.isTypeName u.type

/-- The namespace of the type, segment by segment. -/
def space (u : Uid) : List String :=
  Name.namespaceOf u.type

/-- The literal form, as characters. -/
def chars (u : Uid) : List Char :=
  u.type.toList ++ ':' :: ':' :: '"' :: Quoted.encode u.id.toList ++ ['"']

/-- The literal form. -/
def text (u : Uid) : String :=
  String.ofList u.chars

/-- The JSON form. -/
def toJson (u : Uid) : Json :=
  .obj [("type", .str u.type), ("id", .str u.id)]

end Uid

end AccessPolicy
