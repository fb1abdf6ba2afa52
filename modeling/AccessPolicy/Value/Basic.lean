import AccessPolicy.Ascending
import AccessPolicy.Long
import AccessPolicy.Uid

/-!
# Values

The data that policies compute with. A set is an ascending list of values, a record an ascending
list of fields; `Value.ofItems` and `Value.ofFields` build both from any list, and equal values are
then equal terms. The order of values is first by kind, then by content: sets and records compare
lexicographically.
-/

namespace AccessPolicy

/-- A value. -/
inductive Value
  | bool (b : Bool)
  | long (n : Long)
  | string (s : String)
  | entity (u : Uid)
  /-- A set, ascending and without repetition. -/
  | set (items : List Value)
  /-- A record, its names ascending and without repetition. -/
  | record (fields : List (String × Value))

/-- The kinds of values. -/
inductive Kind
  | bool
  | long
  | string
  | entity
  | set
  | record
deriving DecidableEq

namespace Kind

/-- The name of a kind. -/
def name : Kind → String
  | bool => "bool"
  | long => "long"
  | string => "string"
  | entity => "entity"
  | set => "set"
  | record => "record"

end Kind

namespace Value

/-- The kind of a value. -/
def kind : Value → Kind
  | bool _ => .bool
  | long _ => .long
  | string _ => .string
  | entity _ => .entity
  | set _ => .set
  | record _ => .record

/-! ### Equality -/

mutual

/-- Equality of values is decidable. -/
def decEq : (a b : Value) → Decidable (a = b)
  | bool x, b => by
    cases b with
    | bool y => exact decidable_of_iff (x = y) (by simp)
    | _ => exact isFalse (by simp)
  | long x, b => by
    cases b with
    | long y => exact decidable_of_iff (x = y) (by simp)
    | _ => exact isFalse (by simp)
  | string x, b => by
    cases b with
    | string y => exact decidable_of_iff (x = y) (by simp)
    | _ => exact isFalse (by simp)
  | entity x, b => by
    cases b with
    | entity y => exact decidable_of_iff (x = y) (by simp)
    | _ => exact isFalse (by simp)
  | set xs, b => by
    cases b with
    | set ys => exact @decidable_of_iff _ (xs = ys) (by simp) (decEqItems xs ys)
    | _ => exact isFalse (by simp)
  | record xs, b => by
    cases b with
    | record ys => exact @decidable_of_iff _ (xs = ys) (by simp) (decEqFields xs ys)
    | _ => exact isFalse (by simp)

/-- Equality of lists of values is decidable. -/
def decEqItems : (a b : List Value) → Decidable (a = b)
  | [], [] => isTrue rfl
  | [], _ :: _ => isFalse (by simp)
  | _ :: _, [] => isFalse (by simp)
  | x :: xs, y :: ys =>
    match decEq x y, decEqItems xs ys with
    | isTrue h, isTrue hs => isTrue (by rw [h, hs])
    | isFalse h, _ => isFalse (by simp [h])
    | _, isFalse hs => isFalse (by simp [hs])

/-- Equality of lists of fields is decidable. -/
def decEqFields : (a b : List (String × Value)) → Decidable (a = b)
  | [], [] => isTrue rfl
  | [], _ :: _ => isFalse (by simp)
  | _ :: _, [] => isFalse (by simp)
  | (k, x) :: xs, (l, y) :: ys =>
    if hk : k = l then
      match decEq x y, decEqFields xs ys with
      | isTrue h, isTrue hs => isTrue (by rw [hk, h, hs])
      | isFalse h, _ => isFalse (by simp [h])
      | _, isFalse hs => isFalse (by simp [hs])
    else isFalse (by simp [hk])

end

instance : DecidableEq Value := decEq

/-! ### Order -/

/-- The place of a kind in the order of values. -/
def rank : Value → Nat
  | bool _ => 0
  | long _ => 1
  | string _ => 2
  | entity _ => 3
  | set _ => 4
  | record _ => 5

mutual

/-- The order of values. -/
def order : Value → Value → Ordering
  | bool x, bool y => compare x y
  | long x, long y => compare x y
  | string x, string y => compare x y
  | entity x, entity y => compare x y
  | set xs, set ys => orderItems xs ys
  | record xs, record ys => orderFields xs ys
  | x, y => compare x.rank y.rank

/-- The lexicographic order of lists of values. -/
def orderItems : List Value → List Value → Ordering
  | [], [] => .eq
  | [], _ :: _ => .lt
  | _ :: _, [] => .gt
  | x :: xs, y :: ys => (order x y).then (orderItems xs ys)

/-- The lexicographic order of lists of fields; of two fields the names decide first. -/
def orderFields : List (String × Value) → List (String × Value) → Ordering
  | [], [] => .eq
  | [], _ :: _ => .lt
  | _ :: _, [] => .gt
  | (k, x) :: xs, (l, y) :: ys => ((compare k l).then (order x y)).then (orderFields xs ys)

end

instance : Ord Value := ⟨order⟩

/-! ### Building -/

/-- The set of the given values. -/
def ofItems (items : List Value) : Value :=
  set (Ascending.ofList items)

/-- The record of the given fields, of which later ones win. -/
def ofFields (fields : List (String × Value)) : Value :=
  record (Ascending.ofPairs fields)

/-! ### Text -/

mutual

/-- The literal form, as characters: sets in brackets, records in braces with quoted names. -/
def chars : Value → List Char
  | bool true => ['t', 'r', 'u', 'e']
  | bool false => ['f', 'a', 'l', 's', 'e']
  | long n => n.text.toList
  | string s => '"' :: Quoted.encode s.toList ++ ['"']
  | entity u => u.chars
  | set [] => ['[', ']']
  | set (v :: vs) => '[' :: chars v ++ restItems vs
  | record [] => ['\x7b', '\x7d']
  | record ((k, v) :: fs) =>
    '\x7b' :: '"' :: Quoted.encode k.toList ++ '"' :: ':' :: ' ' :: chars v ++ restFields fs

/-- The items after the first, each behind a comma, and the closing bracket. -/
def restItems : List Value → List Char
  | [] => [']']
  | v :: vs => ',' :: ' ' :: chars v ++ restItems vs

/-- The fields after the first, each behind a comma, and the closing brace. -/
def restFields : List (String × Value) → List Char
  | [] => ['\x7d']
  | (k, v) :: fs =>
    ',' :: ' ' :: '"' :: Quoted.encode k.toList ++ '"' :: ':' :: ' ' :: chars v ++ restFields fs

end

/-- The literal form. -/
def text (v : Value) : String :=
  String.ofList v.chars

/-! ### JSON -/

/-- The member that marks an entity in JSON data. -/
def entityKey : String := "__entity"

mutual

/-- The JSON form: an entity is an object whose only member is `entityKey`. -/
def toJson : Value → Json
  | bool b => .bool b
  | long n => .int n.toInt
  | string s => .str s
  | entity u => .obj [(entityKey, u.toJson)]
  | set items => .arr (toJsonItems items)
  | record fields => .obj (toJsonFields fields)

/-- The JSON forms of a list of values. -/
def toJsonItems : List Value → List Json
  | [] => []
  | v :: vs => toJson v :: toJsonItems vs

/-- The JSON forms of a list of fields. -/
def toJsonFields : List (String × Value) → List (String × Json)
  | [] => []
  | (k, v) :: fs => (k, toJson v) :: toJsonFields fs

end

end Value

end AccessPolicy
