import AccessPolicy.Text.Name
import AccessPolicy.Text.Quoted

/-!
# Schema types

The types of attributes and of context entries. The fields of a record are listed by ascending name,
each with the mark whether it is required.
-/

namespace AccessPolicy

/-- A schema type. -/
inductive SchemaType
  | bool
  | long
  | string
  /-- The entities of one type. -/
  | entity (name : String)
  | set (element : SchemaType)
  /-- The records with the given fields. -/
  | record (fields : List (String × Bool × SchemaType))

/-- Declared fields by ascending name: whether each is required, and its type. -/
abbrev Attributes : Type :=
  List (String × Bool × SchemaType)

namespace SchemaType

/-! ### Equality -/

mutual

/-- Equality of types is decidable. -/
def decEq : (a b : SchemaType) → Decidable (a = b)
  | bool, b => by cases b <;> first | exact isTrue rfl | exact isFalse (by simp)
  | long, b => by cases b <;> first | exact isTrue rfl | exact isFalse (by simp)
  | string, b => by cases b <;> first | exact isTrue rfl | exact isFalse (by simp)
  | entity x, b => by
    cases b with
    | entity y => exact decidable_of_iff (x = y) (by simp)
    | _ => exact isFalse (by simp)
  | set x, b => by
    cases b with
    | set y => exact @decidable_of_iff _ (x = y) (by simp) (decEq x y)
    | _ => exact isFalse (by simp)
  | record xs, b => by
    cases b with
    | record ys => exact @decidable_of_iff _ (xs = ys) (by simp) (decEqFields xs ys)
    | _ => exact isFalse (by simp)

/-- Equality of field lists is decidable. -/
def decEqFields : (a b : List (String × Bool × SchemaType)) → Decidable (a = b)
  | [], [] => isTrue rfl
  | [], _ :: _ => isFalse (by simp)
  | _ :: _, [] => isFalse (by simp)
  | (k, r, x) :: xs, (l, s, y) :: ys =>
    if hk : k = l ∧ r = s then
      match decEq x y, decEqFields xs ys with
      | isTrue h, isTrue hs => isTrue (by rw [hk.1, hk.2, h, hs])
      | isFalse h, _ => isFalse (by simp [h])
      | _, isFalse hs => isFalse (by simp [hs])
    else isFalse (by intro h; simp at h; exact hk ⟨h.1.1, h.1.2.1⟩)

end

instance : DecidableEq SchemaType := decEq

/-! ### Text -/

/-- The mark behind the name of a field. -/
def mark (required : Bool) : String :=
  if required then "" else "?"

/-- How a name and a mark and a type make a field. -/
def fieldText (name : String) (required : Bool) (type : String) : String :=
  name ++ mark required ++ ": " ++ type

mutual

/-- The text of a type, given how the names of fields and of entity types are written. -/
def textWith (field entityName : String → String) : SchemaType → String
  | bool => "Bool"
  | long => "Long"
  | string => "String"
  | entity name => entityName name
  | set element => "Set<" ++ textWith field entityName element ++ ">"
  | record fields => "\x7b" ++ ", ".intercalate (fieldTexts field entityName fields) ++ "\x7d"

/-- The texts of fields. -/
def fieldTexts (field entityName : String → String) :
    List (String × Bool × SchemaType) → List String
  | [] => []
  | (k, r, t) :: fs =>
    fieldText (field k) r (textWith field entityName t) :: fieldTexts field entityName fs

end

/-- The text of a type in messages. -/
def text (t : SchemaType) : String :=
  t.textWith id id

end SchemaType

end AccessPolicy
