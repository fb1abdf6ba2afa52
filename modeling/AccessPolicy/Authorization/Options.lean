import AccessPolicy.Grammar.Token
import AccessPolicy.Json.Shape

/-!
# Authorization options

What is done with requests that do not fit the schema, how deep expressions may nest and whether
entities are checked.
-/

namespace AccessPolicy

/-- What is done with a request that does not fit the schema. -/
inductive ValidationMode
  /-- It is refused. -/
  | strict
  /-- It is noted and decided. -/
  | permissive
deriving DecidableEq

namespace ValidationMode

/-- The name of a mode. -/
def name : ValidationMode → String
  | strict => "strict"
  | permissive => "permissive"

/-- The mode of a name. -/
def ofName? (s : String) : Option ValidationMode :=
  [strict, permissive].find? (·.name = s)

end ValidationMode

/-- How requests are decided. -/
structure AuthorizerOptions where
  /-- What is done with requests that do not fit the schema. -/
  mode : ValidationMode
  /-- How deep expressions may nest. -/
  depth : Nat
  /-- Whether entities have to fit the schema. -/
  checksEntities : Bool
deriving DecidableEq

namespace AuthorizerOptions

/-- Everything is checked, and expressions may nest as deep as in a text. -/
def standard : AuthorizerOptions :=
  ⟨.strict, Grammar.nestingLimit, true⟩

/-- The fields of the JSON form. -/
def fields : List (Json.Field AuthorizerOptions) :=
  [⟨"validation_mode", false, fun v o =>
     (Json.readCase ValidationMode.ofName? v).map fun m => { o with mode := m }⟩,
   ⟨"max_expression_depth", false, fun v o =>
     (Json.asSize v).map fun n => { o with depth := n }⟩,
   ⟨"validate_entities", false, fun v o =>
     (Json.asBool v).map fun b => { o with checksEntities := b }⟩]

/-- Decode the JSON form; fields that are missing keep their standard. -/
def decode (v : Json) : Except Json.Fault AuthorizerOptions :=
  Json.readRecord ⟨false, false⟩ fields standard v

/-- The JSON form. -/
def toJson (o : AuthorizerOptions) : Json :=
  .obj
    [("validation_mode", .str o.mode.name), ("max_expression_depth", .int o.depth),
     ("validate_entities", .bool o.checksEntities)]

end AuthorizerOptions

end AccessPolicy
