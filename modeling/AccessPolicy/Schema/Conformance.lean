import AccessPolicy.Entity.Store
import AccessPolicy.Request.Basic
import AccessPolicy.Schema.Basic

/-!
# Data that conforms to a schema

`SchemaType.conform` checks a value against a type and says where the two part. On it rest the
checks of a request against the declaration of its action, `Schema.checkRequest`, and of an entity
record against the declaration of its type, `Schema.checkEntity`. Declared attributes are checked in
the order of their names, undeclared ones after them.
-/

namespace AccessPolicy

/-- Where a value leaves its type. -/
structure Mismatch where
  /-- The name of the value and the way into it. -/
  path : String
  /-- The type it should have. -/
  expected : String
  /-- What it is. -/
  found : String
deriving DecidableEq

namespace SchemaType

/-- Check each item of a set. -/
def conformItems (check : Value → Except Mismatch Unit) : List Value → Except Mismatch Unit
  | [] => .ok ()
  | v :: vs =>
    match check v with
    | .error m => .error m
    | .ok _ => conformItems check vs

mutual

/-- Check a value against a type. -/
def conform : SchemaType → Value → (path : String) → Except Mismatch Unit
  | bool, .bool _, _ => .ok ()
  | long, .long _, _ => .ok ()
  | string, .string _, _ => .ok ()
  | entity name, .entity u, path =>
    if u.type = name then .ok () else .error ⟨path, name, u.type⟩
  | set element, .set items, path => conformItems (conform element · (path ++ "[]")) items
  | record fields, .record values, path =>
    let here : Mismatch := ⟨path, (record fields).text, Kind.record.name⟩
    match conformFields fields values path here with
    | .error m => .error m
    | .ok _ => if values.all fun v => Ascending.hasKey v.1 fields then .ok () else .error here
  | t, v, path => .error ⟨path, t.text, v.kind.name⟩

/-- Check the values of the declared fields; `here` is reported where a required one is missing. -/
def conformFields : List (String × Bool × SchemaType) → List (String × Value) → (path : String) →
    (here : Mismatch) → Except Mismatch Unit
  | [], _, _, _ => .ok ()
  | (k, required, t) :: fs, values, path, here =>
    match Ascending.get? k values with
    | none => if required then .error here else conformFields fs values path here
    | some v =>
      match conform t v (path ++ "." ++ k) with
      | .error m => .error m
      | .ok _ => conformFields fs values path here

end

end SchemaType

/-! ### Attributes -/

/-- How a list of attributes fails to fit its declaration. -/
inductive AttributeFault
  | missing (name : String)
  | undeclared (name : String)
  | mismatch (m : Mismatch)
deriving DecidableEq

/-- Check the values of the declared attributes. -/
def Attributes.checkDeclared (values : List (String × Value)) :
    Attributes → Except AttributeFault Unit
  | [] => .ok ()
  | (k, required, t) :: fs =>
    match Ascending.get? k values with
    | none => if required then .error (.missing k) else checkDeclared values fs
    | some v =>
      match t.conform v k with
      | .error m => .error (.mismatch m)
      | .ok _ => checkDeclared values fs

/-- Check values against the declared attributes. -/
def Attributes.check (declared : Attributes) (values : List (String × Value)) :
    Except AttributeFault Unit := do
  declared.checkDeclared values
  match values.find? fun v => !Ascending.hasKey v.1 declared with
  | some v => throw (.undeclared v.1)
  | none => pure ()

namespace Schema

/-! ### Requests -/

/-- Check that an entity type is declared and among those that an action applies to. -/
def checkApplicable (s : Schema) (type : String) (admitted : List String) (refused : RequestError) :
    Except RequestError Unit :=
  if !s.hasType type then .error (.undeclaredEntityType type)
  else if !admitted.contains type then .error refused
  else .ok ()

/-- The error of a request whose context does not fit. -/
def contextError (action : Uid) : AttributeFault → RequestError
  | .missing name => .missingContextAttribute action name
  | .undeclared name => .unexpectedContextAttribute action name
  | .mismatch m => .contextTypeMismatch action m.path m.expected m.found

/-- Check a request against the declaration of its action. -/
def checkRequest (s : Schema) (r : Request) : Except RequestError Unit :=
  match s.action? r.action with
  | none => .error (.unknownAction r.action)
  | some d => do
    s.checkApplicable r.principal.type d.principalTypes
      (.principalNotApplicable r.action r.principal.type)
    s.checkApplicable r.resource.type d.resourceTypes
      (.resourceNotApplicable r.action r.resource.type)
    (d.context.check r.context).mapError (contextError r.action)

/-! ### Entities -/

/-- The wording for an entity whose attributes do not fit. -/
def attributeDetail (u : Uid) : AttributeFault → String
  | .missing name => u.text ++ s!" is missing required attribute \x60{name}\x60"
  | .undeclared name => u.text ++ s!" has undeclared attribute \x60{name}\x60"
  | .mismatch m => u.text ++ s!" attribute \x60{m.path}\x60: expected {m.expected}, found {m.found}"

/-- Check an entity record against the declaration of its type. A record of a declared action is
admitted as it is. -/
def checkEntity (s : Schema) (e : Entity) : Except Error Unit :=
  if s.hasAction e.uid then .ok ()
  else
    match s.entityType? e.uid.type with
    | none =>
      .error (.entityValidation
        (e.uid.text ++ s!" has undeclared entity type \x60{e.uid.type}\x60"))
    | some d => do
      (d.attributes.check e.attrs).mapError fun f => .entityValidation (attributeDetail e.uid f)
      match e.parents.find? fun p => !d.memberOf.contains p.type with
      | some p =>
        throw (.entityValidation (e.uid.text ++ " cannot have parent " ++ p.text ++
          s!": \x60{e.uid.type}\x60 is not a member of \x60{p.type}\x60"))
      | none => pure ()

/-- Check each record of a list. -/
def checkRecords (s : Schema) : List Entity → Except Error Unit
  | [] => .ok ()
  | e :: es =>
    match s.checkEntity e with
    | .error err => .error err
    | .ok _ => s.checkRecords es

/-- Check each record of a store. -/
def checkEntities (s : Schema) (es : Entities) : Except Error Unit :=
  s.checkRecords es.records

end Schema

end AccessPolicy
