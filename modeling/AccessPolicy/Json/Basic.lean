import AccessPolicy.Decimal.Shortest

/-!
# JSON values and paths into them

`Json` is a parsed JSON text. Objects keep their members in the order of the text. Integers are kept
exactly; every other number is a binary64 number and kept as its bits, so that equality of values is
decidable. `Json.merge` gives an object with repeated keys its usual meaning: a key stands where it
first stood and has its last value.
-/

namespace AccessPolicy

/-- A JSON value. -/
inductive Json
  | null
  | bool (b : Bool)
  | int (n : Int)
  /-- A number that is not an integer of the text, by the bits of its binary64 form. -/
  | float (bits : UInt64)
  | str (s : String)
  | arr (items : List Json)
  | obj (members : List (String × Json))
deriving Inhabited

namespace Json

/-! ### Equality -/

mutual

/-- Equality of values is decidable. -/
def decEq : (a b : Json) → Decidable (a = b)
  | null, b => by cases b <;> first | exact isTrue rfl | exact isFalse (by simp)
  | bool x, b => by
    cases b with
    | bool y => exact decidable_of_iff (x = y) (by simp)
    | _ => exact isFalse (by simp)
  | int x, b => by
    cases b with
    | int y => exact decidable_of_iff (x = y) (by simp)
    | _ => exact isFalse (by simp)
  | float x, b => by
    cases b with
    | float y => exact decidable_of_iff (x = y) (by simp)
    | _ => exact isFalse (by simp)
  | str x, b => by
    cases b with
    | str y => exact decidable_of_iff (x = y) (by simp)
    | _ => exact isFalse (by simp)
  | arr xs, b => by
    cases b with
    | arr ys => exact @decidable_of_iff _ (xs = ys) (by simp) (decEqItems xs ys)
    | _ => exact isFalse (by simp)
  | obj xs, b => by
    cases b with
    | obj ys => exact @decidable_of_iff _ (xs = ys) (by simp) (decEqMembers xs ys)
    | _ => exact isFalse (by simp)

/-- Equality of lists of values is decidable. -/
def decEqItems : (a b : List Json) → Decidable (a = b)
  | [], [] => isTrue rfl
  | [], _ :: _ => isFalse (by simp)
  | _ :: _, [] => isFalse (by simp)
  | x :: xs, y :: ys =>
    match decEq x y, decEqItems xs ys with
    | isTrue h, isTrue hs => isTrue (by rw [h, hs])
    | isFalse h, _ => isFalse (by simp [h])
    | _, isFalse hs => isFalse (by simp [hs])

/-- Equality of lists of members is decidable. -/
def decEqMembers : (a b : List (String × Json)) → Decidable (a = b)
  | [], [] => isTrue rfl
  | [], _ :: _ => isFalse (by simp)
  | _ :: _, [] => isFalse (by simp)
  | (k, x) :: xs, (l, y) :: ys =>
    if hk : k = l then
      match decEq x y, decEqMembers xs ys with
      | isTrue h, isTrue hs => isTrue (by rw [hk, h, hs])
      | isFalse h, _ => isFalse (by simp [h])
      | _, isFalse hs => isFalse (by simp [hs])
    else isFalse (by simp [hk])

end

instance : DecidableEq Json := decEq

/-! ### Members -/

/-- The first value of a key. -/
def find? {α : Type} (key : String) : List (String × α) → Option α
  | [] => none
  | (k, v) :: ms => if k = key then some v else find? key ms

/-- Whether a key occurs. -/
def hasKey (key : String) (members : List (String × Json)) : Bool :=
  (find? key members).isSome

/-- Give a key a value: in place where the key occurs, else at the end. -/
def put (key : String) (value : Json) : List (String × Json) → List (String × Json)
  | [] => [(key, value)]
  | (k, v) :: ms => if k = key then (k, value) :: ms else (k, v) :: put key value ms

/-- A list of members with each key once, at its first place and with its last value. -/
def mergeKeys (members : List (String × Json)) : List (String × Json) :=
  members.foldl (fun ms m => put m.1 m.2 ms) []

mutual

/-- A value in which no object repeats a key. -/
def merge : Json → Json
  | arr items => arr (mergeItems items)
  | obj members => obj (mergeKeys (mergeMembers members))
  | v => v

/-- `merge` of each value of a list. -/
def mergeItems : List Json → List Json
  | [] => []
  | v :: vs => merge v :: mergeItems vs

/-- `merge` of each value of a list of members. -/
def mergeMembers : List (String × Json) → List (String × Json)
  | [] => []
  | (k, v) :: ms => (k, merge v) :: mergeMembers ms

end

/-! ### Levels -/

mutual

/-- How many arrays and objects stand around the innermost value. -/
def levels : Json → Nat
  | arr items => levelsItems items + 1
  | obj members => levelsMembers members + 1
  | _ => 0

/-- The greatest level of a list. -/
def levelsItems : List Json → Nat
  | [] => 0
  | v :: vs => max (levels v) (levelsItems vs)

/-- The greatest level of a list of members. -/
def levelsMembers : List (String × Json) → Nat
  | [] => 0
  | (_, v) :: ms => max (levels v) (levelsMembers ms)

end

/-! ### Paths

A path is a root name followed by member and item steps, as in `$.conditions[0].body`. Errors say
with a path where a value does not have the expected shape. -/

/-- A path, its last step first and its root last. -/
structure Path where
  /-- The written steps. -/
  steps : List String

namespace Path

/-- The path of a whole value, by the name that stands for it. -/
def root (name : String) : Path :=
  ⟨[name]⟩

/-- The path of a member. -/
def member (p : Path) (key : String) : Path :=
  ⟨("." ++ key) :: p.steps⟩

/-- The path of an item. -/
def item (p : Path) (index : Nat) : Path :=
  ⟨s!"[{index}]" :: p.steps⟩

/-- The written form. -/
def text (p : Path) : String :=
  String.join p.steps.reverse

end Path

end Json

end AccessPolicy
