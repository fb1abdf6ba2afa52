import AccessPolicy.Entity.Basic
import AccessPolicy.Json.Reader
import AccessPolicy.Reach

/-!
# Entity stores

A store holds records with distinct uids, in the order of their uids, whatever the order in which
they were given. `Entities.ancestors` is what can be reached from an entity through parents; it may
contain the entity itself, where parents form a cycle, and entities without a record, which have no
parents.
-/

namespace AccessPolicy

/-- An entity store. -/
structure Entities where
  /-- The records, by ascending uid. -/
  records : List Entity
deriving DecidableEq

namespace Entities

/-- The store without records. -/
def empty : Entities :=
  ⟨[]⟩

/-- The record of a uid. -/
def find? (s : Entities) (u : Uid) : Option Entity :=
  s.records.find? (·.uid = u)

/-- Whether a uid has a record. -/
def contains (s : Entities) (u : Uid) : Bool :=
  (s.find? u).isSome

/-- How many records there are. -/
def size (s : Entities) : Nat :=
  s.records.length

/-! ### Building -/

/-- Put a record at its place. -/
def insertRecord (e : Entity) : List Entity → List Entity
  | [] => [e]
  | f :: fs =>
    match compare e.uid f.uid with
    | .lt => e :: f :: fs
    | .eq => e :: fs
    | .gt => f :: insertRecord e fs

/-- Add a record whose uid is new. -/
def add (s : Entities) (e : Entity) : Except Error Entities :=
  if s.contains e.uid then .error (.duplicateEntity e.uid.text)
  else .ok ⟨insertRecord e s.records⟩

/-- Add records in order. -/
def addAll (s : Entities) : List Entity → Except Error Entities
  | [] => .ok s
  | e :: es =>
    match s.add e with
    | .error e => .error e
    | .ok s => s.addAll es

/-- The store of the given records. -/
def ofList (es : List Entity) : Except Error Entities :=
  empty.addAll es

/-! ### Ancestry -/

/-- The direct parents of an entity; none without a record. -/
def parents (s : Entities) (u : Uid) : List Uid :=
  match s.find? u with
  | none => []
  | some e => e.parents

/-- How many parent edges there are. -/
def edgeCount (s : Entities) : Nat :=
  (s.records.flatMap Entity.parents).length

/-- What can be reached from an entity through one parent edge or more, ascending. -/
def ancestors (s : Entities) (u : Uid) : List Uid :=
  Reach.nodes s.parents s.edgeCount u

/-- Whether an entity is another one or can reach it through parents. -/
def isDescendant (s : Entities) (u ancestor : Uid) : Bool :=
  u == ancestor || (s.ancestors u).contains ancestor

/-- The value of an attribute of an entity. -/
def attrOf (s : Entities) (u : Uid) (name : String) : Except EvalError Value :=
  match (s.find? u).bind (·.attr? name) with
  | some v => .ok v
  | none => .error (.attributeNotFound u.text name)

/-! ### JSON -/

/-- The JSON form, the records in the order of their uids. -/
def toJson (s : Entities) : Json :=
  .arr (s.records.map Entity.toJson)

/-- The store of a JSON value. -/
def ofJson : Json → Except Error Entities
  | .arr items => do ofList (← Entity.each Entity.ofJson items)
  | _ => .error (.invalidFormat "entity list must be a JSON array")

/-- The store of a JSON text. -/
def ofText (text : String) : Except Error Entities :=
  match Json.parse? text with
  | none => .error .notJson
  | some v => ofJson v

end Entities

end AccessPolicy
