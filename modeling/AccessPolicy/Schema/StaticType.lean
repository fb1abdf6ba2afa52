import AccessPolicy.Schema.Type
import AccessPolicy.Uid

/-!
# Static types

What is known of an expression's value before it is evaluated. `StaticType.any` is a value of which
nothing is known, and `StaticType.entity none` an entity of unknown type. A `Demand` is what an
operator asks of an operand; a value of which nothing is known meets every demand.
-/

namespace AccessPolicy

/-- A static type. -/
inductive StaticType
  | bool
  | long
  | string
  | entity (type : Option String)
  | set (element : StaticType)
  /-- A record, its fields by ascending name. -/
  | record (fields : List (String × StaticType))
  | any

namespace StaticType

/-! ### Equality -/

mutual

/-- Equality of static types is decidable. -/
def decEq : (a b : StaticType) → Decidable (a = b)
  | bool, b => by cases b <;> first | exact isTrue rfl | exact isFalse (by simp)
  | long, b => by cases b <;> first | exact isTrue rfl | exact isFalse (by simp)
  | string, b => by cases b <;> first | exact isTrue rfl | exact isFalse (by simp)
  | any, b => by cases b <;> first | exact isTrue rfl | exact isFalse (by simp)
  | entity x, b => by
    cases b with
    | entity y => exact decidable_of_iff (x = y) (by simp)
    | _ => exact isFalse (by simp)
  | set x, b => by
    cases b with
    | set y => exact @decidable_of_iff _ (x = y) (by simp) (decEq x y)
    | _ => exact isFalse (by simp)
  | record xs, b => by
    cases b with
    | record ys => exact @decidable_of_iff _ (xs = ys) (by simp) (decEqFields xs ys)
    | _ => exact isFalse (by simp)

/-- Equality of field lists is decidable. -/
def decEqFields : (a b : List (String × StaticType)) → Decidable (a = b)
  | [], [] => isTrue rfl
  | [], _ :: _ => isFalse (by simp)
  | _ :: _, [] => isFalse (by simp)
  | (k, x) :: xs, (l, y) :: ys =>
    if hk : k = l then
      match decEq x y, decEqFields xs ys with
      | isTrue h, isTrue hs => isTrue (by rw [hk, h, hs])
      | isFalse h, _ => isFalse (by simp [h])
      | _, isFalse hs => isFalse (by simp [hs])
    else isFalse (by simp [hk])

end

instance : DecidableEq StaticType := decEq

/-! ### Names -/

/-- The name of a static type in messages. -/
def name : StaticType → String
  | bool => "bool"
  | long => "long"
  | string => "string"
  | entity _ => "entity"
  | set _ => "set"
  | record _ => "record"
  | any => "any"

/-! ### Declared types -/

mutual

/-- The static type of the values of a declared type. -/
def ofSchema : SchemaType → StaticType
  | .bool => bool
  | .long => long
  | .string => string
  | .entity type => entity (some type)
  | .set element => set (ofSchema element)
  | .record fields => record (ofAttributes fields)

/-- The static types of declared fields; which of them are required is not kept. -/
def ofAttributes : List (String × Bool × SchemaType) → List (String × StaticType)
  | [] => []
  | (k, _, t) :: fs => (k, ofSchema t) :: ofAttributes fs

end

end StaticType

/-! ### Demands -/

/-- What an operator asks of an operand. -/
inductive Demand
  | bool
  | long
  | string
  | entity
  | set
  | entityOrRecord
  | entityOrSet
deriving DecidableEq

namespace Demand

/-- The name of a demand in messages. -/
def name : Demand → String
  | bool => "bool"
  | long => "long"
  | string => "string"
  | entity => "entity"
  | set => "set"
  | entityOrRecord => "entity or record"
  | entityOrSet => "entity or set of entities"

/-- Whether a static type meets a demand. -/
def admits : Demand → StaticType → Bool
  | _, .any => true
  | bool, .bool => true
  | long, .long => true
  | string, .string => true
  | entity, .entity _ => true
  | set, .set _ => true
  | entityOrRecord, .entity _ => true
  | entityOrRecord, .record _ => true
  | entityOrSet, .entity _ => true
  | entityOrSet, .set _ => true
  | _, _ => false

end Demand

/-! ### Errors -/

/-- Why an expression has no static type. -/
inductive TypingError
  | unknownType (type : String)
  | unknownAction (action : Uid)
  | mismatch (expected found : String)
  /-- An attribute that an entity type does not declare. -/
  | noEntityAttribute (name type : String)
  /-- A field that a record does not have. -/
  | noRecordField (name owner : String)
deriving DecidableEq

/-- The wording of the error. -/
def TypingError.message : TypingError → String
  | unknownType type => s!"unrecognized entity type \x60{type}\x60"
  | unknownAction action => "unrecognized action " ++ action.text
  | mismatch expected found => s!"type mismatch: expected {expected}, found {found}"
  | noEntityAttribute name type =>
    s!"attribute \x60{name}\x60 is not declared on entity type \x60{type}\x60"
  | noRecordField name owner => s!"attribute \x60{name}\x60 is not declared on {owner}"

/-- Check that a static type meets a demand. -/
def Demand.check (d : Demand) (t : StaticType) : Except TypingError Unit :=
  if d.admits t then .ok () else .error (.mismatch d.name t.name)

end AccessPolicy
