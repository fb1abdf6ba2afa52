import AccessPolicy.Json.Reader
import AccessPolicy.Json.Shape
import AccessPolicy.Schema.Text
import AccessPolicy.Value.Decode

/-!
# Schemas as JSON

A schema is an object of namespaces, the global one under the empty key. A namespace has objects of
entity types and of actions. A type is an object with its kind under `type`; a kind that is none of
the known ones is the name of an entity type. Attributes are required unless their type object says
otherwise.

`Schema.ofText` reads either form of schemas: a text that begins with a brace is JSON.
-/

namespace AccessPolicy

open Json (Path)

/-! ### White space

`Text.isBlank` is the Unicode property White_Space: tab to carriage return, space, next line,
no-break space, the ogham mark, the quads and spaces of U+2000 to U+200A, the line and paragraph
separators, the two narrow spaces and the ideographic space. The two forms of schemas are told apart
by the first character that is none of these. -/

/-- Whether a character is white space. -/
def Text.isBlank (c : Char) : Bool :=
  let n := c.toNat
  (0x9 ≤ n && n ≤ 0xD) || n == 0x20 || n == 0x85 || n == 0xA0 || n == 0x1680 ||
    (0x2000 ≤ n && n ≤ 0x200A) || n == 0x2028 || n == 0x2029 || n == 0x202F || n == 0x205F ||
    n == 0x3000

/-- A text without its leading white space. -/
def Text.skipBlanks (s : List Char) : List Char :=
  s.dropWhile isBlank

/-! ### Types -/

namespace SchemaType

/-- Whether the type of an attribute marks it as required. -/
def isRequired (v : Json) (path : Path) : Except Error Bool :=
  match v with
  | .obj members =>
    match Json.find? "required" members with
    | none => .ok true
    | some (.bool b) => .ok b
    | some _ => mismatch (path.member "required") "expected a boolean"
  | _ => .ok true

/-- The entity type that a type object names. -/
def entityName (kind : String) (members : List (String × Json)) (path : Path) :
    Except Error String :=
  match Json.find? "name" members with
  | some (.str name) => .ok name
  | _ => mismatch path s!"\x60{kind}\x60 type needs a \x60name\x60"

mutual

/-- The type of a type object. -/
def ofJson : Json → Path → Except Error SchemaType
  | .obj members, path =>
    match Json.find? "type" members with
    | some (.str kind) =>
      if kind = "Boolean" ∨ kind = "Bool" then .ok bool
      else if kind = "Long" then .ok long
      else if kind = "String" then .ok string
      else if kind = "Entity" ∨ kind = "EntityOrCommon" then
        (entityName kind members path).map entity
      else if kind = "Set" then (ofElement members path).map set
      else if kind = "Record" then (ofAttributes members path).map record
      else .ok (entity kind)
    | _ => mismatch path "missing \x60type\x60"
  | _, path => mismatch path "expected a type object"

/-- The type of the member `element`. -/
def ofElement : List (String × Json) → Path → Except Error SchemaType
  | [], path => mismatch path "\x60Set\x60 type needs an \x60element\x60"
  | (k, v) :: ms, path =>
    if k = "element" then ofJson v (path.member k) else ofElement ms path

/-- The fields in the member `attributes`; none if it is missing. -/
def ofAttributes : List (String × Json) → Path → Except Error Attributes
  | [], _ => .ok []
  | (k, v) :: ms, path =>
    if k = "attributes" then (ofFields v (path.member k)).map Ascending.ofPairs
    else ofAttributes ms path

/-- The fields of an object. -/
def ofFields : Json → Path → Except Error (List (String × Bool × SchemaType))
  | .obj members, path => ofMembers members path
  | _, path => mismatch path "expected an object"

/-- The fields of members. -/
def ofMembers : List (String × Json) → Path → Except Error (List (String × Bool × SchemaType))
  | [], _ => .ok []
  | (k, v) :: ms, path =>
    match ofJson v (path.member k), isRequired v (path.member k) with
    | .error e, _ => .error e
    | .ok _, .error e => .error e
    | .ok t, .ok required => (ofMembers ms path).map ((k, required, t) :: ·)

end

/-- A type object with the mark whether the attribute is required. -/
def markRequired (required : Bool) : Json → Json
  | .obj members => .obj (members ++ [("required", .bool required)])
  | v => v

mutual

/-- The type object of a type, its names as they are written inside a namespace. -/
def toJson (space : String) : SchemaType → Json
  | bool => .obj [("type", .str "Boolean")]
  | long => .obj [("type", .str "Long")]
  | string => .obj [("type", .str "String")]
  | entity name => .obj [("type", .str "Entity"), ("name", .str (Schema.relativeName space name))]
  | set element => .obj [("type", .str "Set"), ("element", toJson space element)]
  | record fields => .obj [("type", .str "Record"), ("attributes", .obj (toMembers space fields))]

/-- The type objects of fields, each with the mark whether it is required. -/
def toMembers (space : String) : List (String × Bool × SchemaType) → List (String × Json)
  | [] => []
  | (k, required, t) :: fs =>
    (k, markRequired required (toJson space t)) :: toMembers space fs

end

end SchemaType

namespace Schema

/-! ### Reading -/

/-- The fields of a type that has to be a record; none where no type is given. -/
def attributesOfJson (v : Option Json) (path : Path) : Except Error Attributes :=
  match v with
  | none => .ok []
  | some v =>
    match SchemaType.ofJson v path with
    | .error e => .error e
    | .ok (.record fields) => .ok fields
    | .ok t => mismatch path ("expected a Record type, found " ++ t.text)

/-- A result, with a fault reported for a path. -/
def decodedAt {α : Type} (path : Path) (result : Except Json.Fault α) : Except Error α :=
  result.mapError fun e => .schemaMismatch path.text e.message

/-- The form of a namespace: its entity types and its actions. -/
def sectionFields : List (Json.Field (List (String × Json) × List (String × Json))) :=
  [⟨"entityTypes", false, fun v s => (Json.asObject v).map fun ms => (ms, s.2)⟩,
   ⟨"actions", false, fun v s => (Json.asObject v).map fun ms => (s.1, ms)⟩]

/-- The form of an entity type: the types of its parents and its own type. -/
def entityFields : List (Json.Field (List String × Option Json)) :=
  [⟨"memberOfTypes", false, fun v s => (Json.asList Json.asString v).map fun ts => (ts, s.2)⟩,
   ⟨"shape", false, fun v s => (Json.asOption .ok v).map fun t => (s.1, t)⟩]

/-- The form of an action group: its id and its type. -/
def groupFields : List (Json.Field (String × Option String)) :=
  [⟨"id", true, fun v s => (Json.asString v).map fun i => (i, s.2)⟩,
   ⟨"type", false, fun v s => (Json.asOption Json.asString v).map fun t => (s.1, t)⟩]

/-- What an action applies to, with the type of the context as it is written. -/
structure Application where
  /-- The types of principals. -/
  principalTypes : List String
  /-- The types of resources. -/
  resourceTypes : List String
  /-- The type of the context. -/
  context : Option Json

/-- The form of what an action applies to. -/
def applicationFields : List (Json.Field Application) :=
  [⟨"principalTypes", false, fun v s =>
     (Json.asList Json.asString v).map fun ts => { s with principalTypes := ts }⟩,
   ⟨"resourceTypes", false, fun v s =>
     (Json.asList Json.asString v).map fun ts => { s with resourceTypes := ts }⟩,
   ⟨"context", false, fun v s =>
     (Json.asOption .ok v).map fun t => { s with context := t }⟩]

/-- Decode what an action applies to. -/
def decodeApplication (v : Json) : Except Json.Fault Application :=
  Json.readRecord ⟨true, false⟩ applicationFields ⟨[], [], none⟩ v

/-- Decode an action group. -/
def decodeGroup (v : Json) : Except Json.Fault (String × Option String) :=
  Json.readRecord ⟨false, false⟩ groupFields ("", none) v

/-- The form of an action: its groups and what it applies to. -/
def actionFields : List (Json.Field (List (String × Option String) × Option Application)) :=
  [⟨"memberOf", false, fun v s => (Json.asList decodeGroup v).map fun gs => (gs, s.2)⟩,
   ⟨"appliesTo", false, fun v s => (Json.asOption decodeApplication v).map fun a => (s.1, a)⟩]

/-- The declaration of an entity type. -/
def entityOfJson (v : Json) (path : Path) : Except Error EntityDecl := do
  let (memberOf, shape) ←
    decodedAt path (Json.readRecord ⟨true, false⟩ entityFields ([], none) v)
  let attributes ← attributesOfJson shape (path.member "shape")
  pure ⟨Ascending.ofList memberOf, attributes⟩

/-- The uid of a group; its type is `Action` where none is given. -/
def groupOfParts (path : Path) (group : String × Option String) : Except Error Uid :=
  (Uid.ofParts (group.2.getD "Action") group.1).mapError fun e =>
    .schemaMismatch path.text e.message

/-- The declaration of an action. -/
def actionOfJson (v : Json) (path : Path) : Except Error ActionDecl := do
  let (groups, application) ←
    decodedAt path (Json.readRecord ⟨true, false⟩ actionFields ([], none) v)
  let memberOf ← groups.mapM (groupOfParts (path.member "memberOf"))
  let application := application.getD ⟨[], [], none⟩
  let context ←
    attributesOfJson application.context ((path.member "appliesTo").member "context")
  pure ⟨Ascending.ofList memberOf, Ascending.ofList application.principalTypes,
    Ascending.ofList application.resourceTypes, context⟩

/-- The declarations of an object's members. -/
def declarations {α : Type} (read : Json → Path → Except Error α) (path : Path) :
    List (String × Json) → Except Error (List (String × α))
  | [] => .ok []
  | (name, v) :: ms =>
    match read v (path.member name) with
    | .error e => .error e
    | .ok d => (declarations read path ms).map ((name, d) :: ·)

/-- The section of a namespace. -/
def sectionOfJson (name : String) (v : Json) : Except Error Section := do
  let path := (Path.root "$").member name
  let (types, actions) ←
    decodedAt path (Json.readRecord ⟨true, false⟩ sectionFields ([], []) v)
  let types ← declarations entityOfJson (path.member "entityTypes") types
  let actions ← declarations actionOfJson (path.member "actions") actions
  pure ⟨name, types, actions⟩

/-- The schema of a JSON value. -/
def ofJson : Json → Except Error Schema
  | .obj members => do ofSections (← members.mapM fun m => sectionOfJson m.1 m.2)
  | _ => mismatch (.root "$") "expected an object of namespaces"

/-- The schema of a text in either form. -/
def ofText (text : String) : Except Error Schema :=
  if (Text.skipBlanks text.toList).head? = some '\x7b' then
    match Json.parse? text with
    | none => .error .notJson
    | some v => ofJson v
  else parse text

/-! ### Writing -/

/-- Names of entity types as they are written inside a namespace. -/
def namesToJson (space : String) (names : List String) : Json :=
  .arr (names.map fun n => .str (relativeName space n))

/-- The type object of a record. -/
def attributesToJson (space : String) (fields : Attributes) : Json :=
  SchemaType.toJson space (.record fields)

/-- The JSON form of the declaration of an entity type. -/
def entityToJson (space : String) (d : EntityDecl) : Json :=
  .obj <|
    ("memberOfTypes", namesToJson space d.memberOf) ::
    if d.attributes.isEmpty then [] else [("shape", attributesToJson space d.attributes)]

/-- The JSON form of an action group. -/
def groupToJson (space : String) (group : Uid) : Json :=
  .obj [("id", .str group.id), ("type", .str (relativeName space group.type))]

/-- The JSON form of the declaration of an action. -/
def actionToJson (space : String) (d : ActionDecl) : Json :=
  .obj
    [("memberOf", .arr (d.memberOf.map (groupToJson space))),
     ("appliesTo", .obj
       [("principalTypes", namesToJson space d.principalTypes),
        ("resourceTypes", namesToJson space d.resourceTypes),
        ("context", attributesToJson space d.context)])]

/-- The JSON form of the declarations of a namespace. -/
def spaceToJson (s : Schema) (space : String) : Json :=
  .obj
    [("entityTypes", .obj
       (Json.mergeKeys ((s.typesIn space).map fun t => (t.1, entityToJson space t.2)))),
     ("actions", .obj
       (Json.mergeKeys ((s.actionsIn space).map fun a => (a.1, actionToJson space a.2))))]

/-- The JSON form of a schema. -/
def toJson (s : Schema) : Json :=
  .obj (s.spaces.map fun space => (space, s.spaceToJson space))

end Schema

end AccessPolicy
