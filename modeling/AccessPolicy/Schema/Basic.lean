import AccessPolicy.Error
import AccessPolicy.Reach
import AccessPolicy.Schema.Type

/-!
# Schemas

A schema declares entity types and actions. Both front ends give a list of `Section`s, one for each
namespace that is written down, with names as they are written; `Schema.ofSections` qualifies every
name and refuses what was never declared. An unqualified name means the declaration of its own
namespace before a global one.

`Schema.inGroup` and `Schema.typeCanBeIn` follow the declared memberships.
-/

namespace AccessPolicy

/-- The declaration of an entity type. -/
structure EntityDecl where
  /-- The types that parents may have, ascending. -/
  memberOf : List String
  /-- The attributes. -/
  attributes : Attributes
deriving DecidableEq

/-- The declaration of an action. -/
structure ActionDecl where
  /-- The groups of the action, ascending. -/
  memberOf : List Uid
  /-- The types of principals that the action applies to, ascending. -/
  principalTypes : List String
  /-- The types of resources that the action applies to, ascending. -/
  resourceTypes : List String
  /-- The entries of the context. -/
  context : Attributes
deriving DecidableEq

/-- An action that belongs to no group and applies to nothing. -/
def ActionDecl.empty : ActionDecl :=
  ⟨[], [], [], []⟩

/-- Declarations of one namespace, with names as they are written. -/
structure Section where
  /-- The namespace; empty for the global one. -/
  name : String
  /-- The entity types, in order. -/
  entityTypes : List (String × EntityDecl)
  /-- The actions, in order. -/
  actions : List (String × ActionDecl)

/-- A schema. -/
structure Schema where
  /-- The entity types, by ascending qualified name. -/
  entityTypes : List (String × EntityDecl)
  /-- The actions, by ascending uid. -/
  actions : List (Uid × ActionDecl)
deriving DecidableEq

namespace Schema

/-- The schema without declarations. -/
def empty : Schema :=
  ⟨[], []⟩

/-- The declaration of an entity type. -/
def entityType? (s : Schema) (name : String) : Option EntityDecl :=
  Ascending.get? name s.entityTypes

/-- The declaration of an action. -/
def action? (s : Schema) (u : Uid) : Option ActionDecl :=
  Ascending.get? u s.actions

/-- Whether an entity type is declared. -/
def hasType (s : Schema) (name : String) : Bool :=
  (s.entityType? name).isSome

/-- Whether an action is declared. -/
def hasAction (s : Schema) (u : Uid) : Bool :=
  (s.action? u).isSome

/-! ### Memberships -/

/-- The groups that an action is declared to belong to. -/
def groupsOf (s : Schema) (u : Uid) : List Uid :=
  match s.action? u with
  | none => []
  | some d => d.memberOf

/-- The types that an entity of a type may have as parents. -/
def parentTypes (s : Schema) (name : String) : List String :=
  match s.entityType? name with
  | none => []
  | some d => d.memberOf

/-- The number of memberships of actions. -/
def groupCount (s : Schema) : Nat :=
  (s.actions.flatMap fun a => a.2.memberOf).length

/-- The number of memberships of entity types. -/
def parentTypeCount (s : Schema) : Nat :=
  (s.entityTypes.flatMap fun t => t.2.memberOf).length

/-- Whether an action is a group or belongs to it, through other groups or not. -/
def inGroup (s : Schema) (action group : Uid) : Bool :=
  action == group || (Reach.nodes s.groupsOf s.groupCount action).contains group

/-- Whether an entity of one type can be an entity of another type or stand below one. -/
def typeCanBeIn (s : Schema) (type ancestor : String) : Bool :=
  type == ancestor || Reach.finds s.parentTypes s.parentTypeCount type ancestor

/-! ### Names -/

/-- Cut reversed characters at the first pair of colons. -/
def splitReversed : (seen : List Char) → List Char → Option (List Char × List Char)
  | _, [] => none
  | _, [_] => none
  | seen, c :: d :: cs =>
    if c = ':' ∧ d = ':' then some (cs.reverse, seen) else splitReversed (c :: seen) (d :: cs)

/-- The namespace and the last segment of a qualified name. -/
def splitName (name : String) : String × String :=
  match splitReversed [] name.toList.reverse with
  | some (space, base) => (String.ofList space, String.ofList base)
  | none => ("", name)

/-- A qualified name as it is written inside a namespace. -/
def relativeName (space name : String) : String :=
  let (s, base) := splitName name
  if s = space then base else name

/-- The uid of an action of a namespace. -/
def actionUid (space name : String) : Uid :=
  ⟨Name.qualify space "Action", name⟩

/-! ### Resolving names -/

/-- The names that are declared. -/
structure Declared where
  /-- The qualified entity types. -/
  types : List String
  /-- The actions. -/
  actions : List Uid

/-- Whether a name has two colons in it. -/
def hasSeparator : List Char → Bool
  | c :: d :: cs => (c == ':' && d == ':') || hasSeparator (d :: cs)
  | _ => false

/-- The qualified form of an entity type named in a namespace; `path` is where it is named. -/
def Declared.typeName (declared : Declared) (space path name : String) : Except Error String :=
  let local_ := Name.qualify space name
  if !hasSeparator name.toList && declared.types.contains local_ then .ok local_
  else if declared.types.contains name then .ok name
  else .error (.schemaMismatch path s!"undeclared entity type \x60{name}\x60")

/-- The qualified forms of entity types, ascending. -/
def Declared.typeNames (declared : Declared) (space path : String) (names : List String) :
    Except Error (List String) :=
  (names.mapM (declared.typeName space path)).map Ascending.ofList

mutual

/-- A type with its names qualified. -/
def Declared.schemaType (declared : Declared) (space : String) :
    SchemaType → (path : String) → Except Error SchemaType
  | .bool, _ => .ok .bool
  | .long, _ => .ok .long
  | .string, _ => .ok .string
  | .entity name, path => (declared.typeName space path name).map .entity
  | .set element, path => (declared.schemaType space element path).map .set
  | .record fields, path => (declared.attributes space fields path).map .record

/-- Fields with the names in their types qualified. -/
def Declared.attributes (declared : Declared) (space : String) :
    List (String × Bool × SchemaType) → (path : String) →
      Except Error (List (String × Bool × SchemaType))
  | [], _ => .ok []
  | (k, r, t) :: fs, path =>
    match declared.schemaType space t (path ++ "." ++ k) with
    | .error e => .error e
    | .ok t => (declared.attributes space fs path).map ((k, r, t) :: ·)

end

/-- The declaration of an entity type with its names qualified. -/
def Declared.entityDecl (declared : Declared) (space name : String) (d : EntityDecl) :
    Except Error EntityDecl := do
  let memberOf ← declared.typeNames space (name ++ ".memberOfTypes") d.memberOf
  let attributes ← declared.attributes space d.attributes (name ++ ".shape")
  pure ⟨memberOf, attributes⟩

/-- A group of an action; the plain type `Action` means the namespace of the declaration. -/
def Declared.group (declared : Declared) (space : String) (action : Uid) (group : Uid) :
    Except Error Uid :=
  let resolved := if group.type = "Action" then actionUid space group.id else group
  if declared.actions.contains resolved then .ok resolved
  else
    .error (.schemaMismatch (action.text ++ ".memberOf")
      ("undeclared action group " ++ resolved.text))

/-- The declaration of an action with its names qualified. -/
def Declared.actionDecl (declared : Declared) (space : String) (u : Uid) (d : ActionDecl) :
    Except Error ActionDecl := do
  let groups ← d.memberOf.mapM (declared.group space u)
  let principals ←
    declared.typeNames space (u.text ++ ".appliesTo.principalTypes") d.principalTypes
  let resources ←
    declared.typeNames space (u.text ++ ".appliesTo.resourceTypes") d.resourceTypes
  let context ← declared.attributes space d.context (u.text ++ ".appliesTo.context")
  pure ⟨Ascending.ofList groups, principals, resources, context⟩

/-! ### Building -/

/-- Declare entity types of a namespace. -/
def declareTypes (space : String) : List (String × EntityDecl) → Declared → Except Error Declared
  | [], declared => .ok declared
  | (name, _) :: ds, declared =>
    let qualified := Name.qualify space name
    if declared.types.contains qualified then
      .error (.schemaMismatch qualified "entity type is declared more than once")
    else declareTypes space ds { declared with types := qualified :: declared.types }

/-- Declare actions of a namespace. -/
def declareActions (space : String) : List (String × ActionDecl) → Declared → Except Error Declared
  | [], declared => .ok declared
  | (name, _) :: ds, declared =>
    let u := actionUid space name
    if declared.actions.contains u then
      .error (.schemaMismatch u.text "action is declared more than once")
    else declareActions space ds { declared with actions := u :: declared.actions }

/-- Declare the entity types and actions of sections. -/
def declareAll : List Section → Declared → Except Error Declared
  | [], declared => .ok declared
  | s :: ss, declared => do
    let declared ← declareTypes s.name s.entityTypes declared
    let declared ← declareActions s.name s.actions declared
    declareAll ss declared

/-- Add entity types of a namespace to a schema. -/
def addTypes (declared : Declared) (space : String) :
    List (String × EntityDecl) → Schema → Except Error Schema
  | [], s => .ok s
  | (name, d) :: ds, s => do
    let qualified := Name.qualify space name
    let d ← declared.entityDecl space qualified d
    addTypes declared space ds { s with entityTypes := Ascending.put qualified d s.entityTypes }

/-- Add actions of a namespace to a schema. -/
def addActions (declared : Declared) (space : String) :
    List (String × ActionDecl) → Schema → Except Error Schema
  | [], s => .ok s
  | (name, d) :: ds, s => do
    let u := actionUid space name
    let d ← declared.actionDecl space u d
    addActions declared space ds { s with actions := Ascending.put u d s.actions }

/-- Add sections to a schema. -/
def addSections (declared : Declared) : List Section → Schema → Except Error Schema
  | [], s => .ok s
  | x :: xs, s => do
    let s ← addTypes declared x.name x.entityTypes s
    let s ← addActions declared x.name x.actions s
    addSections declared xs s

/-- The schema of sections. -/
def ofSections (sections : List Section) : Except Error Schema := do
  let declared ← declareAll sections ⟨[], []⟩
  addSections declared sections empty

/-! ### Namespaces -/

/-- The namespace of an entity type. -/
def spaceOf (name : String) : String :=
  (splitName name).1

/-- The namespaces with a declaration, ascending. -/
def spaces (s : Schema) : List String :=
  Ascending.ofList
    (s.entityTypes.map (fun t => spaceOf t.1) ++ s.actions.map fun a => spaceOf a.1.type)

/-- The entity types of a namespace by their last segments. -/
def typesIn (s : Schema) (space : String) : List (String × EntityDecl) :=
  (s.entityTypes.filter fun t => spaceOf t.1 = space).map fun t => ((splitName t.1).2, t.2)

/-- The actions of a namespace by their ids. -/
def actionsIn (s : Schema) (space : String) : List (String × ActionDecl) :=
  (s.actions.filter fun a => spaceOf a.1.type = space).map fun a => (a.1.id, a.2)

end Schema

end AccessPolicy
