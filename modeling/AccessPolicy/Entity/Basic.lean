import AccessPolicy.Value.Decode

/-!
# Entities

An entity record has a uid, attributes and direct parents. Its JSON form is an object with the
members `uid`, `attrs` and `parents`, of which the last two may be missing.
-/

namespace AccessPolicy

/-- An entity record. -/
structure Entity where
  /-- The name of the entity. -/
  uid : Uid
  /-- The attributes, by ascending name. -/
  attrs : List (String × Value)
  /-- The direct parents, ascending. -/
  parents : List Uid
deriving DecidableEq

namespace Entity

/-- The record of an entity without attributes and parents. -/
def ofUid (u : Uid) : Entity :=
  ⟨u, [], []⟩

/-- Give an attribute a value. -/
def setAttr (e : Entity) (name : String) (v : Value) : Entity :=
  { e with attrs := Ascending.put name v e.attrs }

/-- Add a direct parent. -/
def addParent (e : Entity) (parent : Uid) : Entity :=
  { e with parents := Ascending.insert parent e.parents }

/-- The value of an attribute. -/
def attr? (e : Entity) (name : String) : Option Value :=
  Ascending.get? name e.attrs

/-! ### JSON -/

/-- The JSON form. -/
def toJson (e : Entity) : Json :=
  .obj [("uid", e.uid.toJson), ("attrs", .obj (Value.toJsonFields e.attrs)),
    ("parents", .arr (e.parents.map Uid.toJson))]

/-- Run a reader on each item of a list. -/
def each {α β : Type} (read : α → Except Error β) : List α → Except Error (List β)
  | [] => .ok []
  | a :: as =>
    match read a with
    | .error e => .error e
    | .ok b => (each read as).map (b :: ·)

/-- The attributes of the record of the entity `name`. -/
def attrsOfJson (name : String) : Option Json → Except Error (List (String × Value))
  | none => .ok []
  | some (.obj members) => (Value.ofJsonFields members (.root name)).map Ascending.ofPairs
  | some _ => .error (.invalidFormat (name ++ ": \x60attrs\x60 must be an object"))

/-- The parents of the record of the entity `name`. -/
def parentsOfJson (name : String) : Option Json → Except Error (List Uid)
  | none => .ok []
  | some (.arr items) => (each Uid.ofJson items).map Ascending.ofList
  | some _ => .error (.invalidFormat (name ++ ": \x60parents\x60 must be an array"))

/-- The record of a JSON value. -/
def ofJson : Json → Except Error Entity
  | .obj members =>
    match Json.find? "uid" members with
    | none => .error (.invalidFormat "entity is missing \x60uid\x60")
    | some v => do
      let u ← Uid.ofJson v
      let attrs ← attrsOfJson u.text (Json.find? "attrs" members)
      let parents ← parentsOfJson u.text (Json.find? "parents" members)
      pure ⟨u, attrs, parents⟩
  | _ => .error (.invalidFormat "entity must be a JSON object")

/-- The record of a JSON value that is part of another one. -/
def decode (v : Json) : Except Json.Fault Entity :=
  (ofJson v).mapError fun e => .content e.message

end Entity

end AccessPolicy
