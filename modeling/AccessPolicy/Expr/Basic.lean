import AccessPolicy.Value.Basic

/-!
# Expressions

The conditions of policies. A condition reads the four variables of a request; in a template it may
also mention the two slots, which a link fills with entities. `Expr.depth` is the number of edges on
the longest path to a leaf, and `Expr.bind` puts entity literals in the place of slots.
-/

namespace AccessPolicy

/-- The variables of a request. -/
inductive Var
  | principal
  | action
  | resource
  | context
deriving DecidableEq

/-- The slots of a template. -/
inductive Slot
  | principal
  | resource
deriving DecidableEq

/-- A literal. -/
inductive Literal
  | bool (b : Bool)
  | long (n : Long)
  | string (s : String)
  | entity (u : Uid)
deriving DecidableEq

/-- The operations on one value. -/
inductive UnaryOp
  | not
  | neg
  | isEmpty
deriving DecidableEq

/-- The operations on two values, both of which are always evaluated. -/
inductive BinaryOp
  | eq
  | notEq
  | less
  | lessEq
  | greater
  | greaterEq
  | mem
  | add
  | sub
  | mul
  | contains
  | containsAll
  | containsAny
deriving DecidableEq

/-- An expression. -/
inductive Expr
  | lit (l : Literal)
  | var (v : Var)
  | slot (s : Slot)
  | unary (op : UnaryOp) (arg : Expr)
  | binary (op : BinaryOp) (left right : Expr)
  | and (left right : Expr)
  | or (left right : Expr)
  | ite (cond yes no : Expr)
  | getAttr (of : Expr) (name : String)
  | hasAttr (of : Expr) (name : String)
  | like (of : Expr) (pattern : List Glob)
  /-- Whether an entity has a type. -/
  | is (of : Expr) (type : String)
  /-- Whether an entity has a type and belongs to a group. -/
  | isMem (of : Expr) (type : String) (group : Expr)
  | set (items : List Expr)
  /-- A record; its names are distinct, and their order is that of the text. -/
  | record (fields : List (String × Expr))

/-! ### Names -/

namespace Var

/-- The name of a variable. -/
def name : Var → String
  | principal => "principal"
  | action => "action"
  | resource => "resource"
  | context => "context"

/-- The variable of a name. -/
def ofName? (s : String) : Option Var :=
  [principal, action, resource, context].find? (·.name = s)

end Var

namespace Slot

/-- The name of a slot. -/
def name : Slot → String
  | principal => "?principal"
  | resource => "?resource"

/-- All slots, in their order. -/
def all : List Slot :=
  [principal, resource]

/-- The slot of a name. -/
def ofName? (s : String) : Option Slot :=
  all.find? (·.name = s)

/-- The place of a slot in the order. -/
def rank : Slot → Nat
  | principal => 0
  | resource => 1

instance : Ord Slot := ⟨fun a b => compare a.rank b.rank⟩

end Slot

namespace BinaryOp

/-- The operator or the name of the method. -/
def symbol : BinaryOp → String
  | eq => "=="
  | notEq => "!="
  | less => "<"
  | lessEq => "<="
  | greater => ">"
  | greaterEq => ">="
  | mem => "in"
  | add => "+"
  | sub => "-"
  | mul => "*"
  | contains => "contains"
  | containsAll => "containsAll"
  | containsAny => "containsAny"

/-- All binary operations. -/
def all : List BinaryOp :=
  [eq, notEq, less, lessEq, greater, greaterEq, mem, add, sub, mul, contains, containsAll,
    containsAny]

/-- The operation of a symbol. -/
def ofSymbol? (s : String) : Option BinaryOp :=
  all.find? (·.symbol = s)

/-- Whether the operation is written as a method. -/
def isMethod : BinaryOp → Bool
  | contains | containsAll | containsAny => true
  | _ => false

end BinaryOp

/-- The value of a literal. -/
def Literal.value : Literal → Value
  | bool b => .bool b
  | long n => .long n
  | string s => .string s
  | entity u => .entity u

namespace Expr

/-! ### Equality -/

mutual

/-- Equality of expressions is decidable. -/
def decEq : (a b : Expr) → Decidable (a = b)
  | lit x, b => by
    cases b with
    | lit y => exact decidable_of_iff (x = y) (by simp)
    | _ => exact isFalse (by simp)
  | var x, b => by
    cases b with
    | var y => exact decidable_of_iff (x = y) (by simp)
    | _ => exact isFalse (by simp)
  | slot x, b => by
    cases b with
    | slot y => exact decidable_of_iff (x = y) (by simp)
    | _ => exact isFalse (by simp)
  | unary o x, b => by
    cases b with
    | unary p y =>
      have := decEq x y
      exact decidable_of_iff (o = p ∧ x = y) (by simp)
    | _ => exact isFalse (by simp)
  | binary o x₁ x₂, b => by
    cases b with
    | binary p y₁ y₂ =>
      have := decEq x₁ y₁
      have := decEq x₂ y₂
      exact decidable_of_iff (o = p ∧ x₁ = y₁ ∧ x₂ = y₂) (by simp)
    | _ => exact isFalse (by simp)
  | and x₁ x₂, b => by
    cases b with
    | and y₁ y₂ =>
      have := decEq x₁ y₁
      have := decEq x₂ y₂
      exact decidable_of_iff (x₁ = y₁ ∧ x₂ = y₂) (by simp)
    | _ => exact isFalse (by simp)
  | or x₁ x₂, b => by
    cases b with
    | or y₁ y₂ =>
      have := decEq x₁ y₁
      have := decEq x₂ y₂
      exact decidable_of_iff (x₁ = y₁ ∧ x₂ = y₂) (by simp)
    | _ => exact isFalse (by simp)
  | ite x₁ x₂ x₃, b => by
    cases b with
    | ite y₁ y₂ y₃ =>
      have := decEq x₁ y₁
      have := decEq x₂ y₂
      have := decEq x₃ y₃
      exact decidable_of_iff (x₁ = y₁ ∧ x₂ = y₂ ∧ x₃ = y₃) (by simp)
    | _ => exact isFalse (by simp)
  | getAttr x n, b => by
    cases b with
    | getAttr y m =>
      have := decEq x y
      exact decidable_of_iff (x = y ∧ n = m) (by simp)
    | _ => exact isFalse (by simp)
  | hasAttr x n, b => by
    cases b with
    | hasAttr y m =>
      have := decEq x y
      exact decidable_of_iff (x = y ∧ n = m) (by simp)
    | _ => exact isFalse (by simp)
  | like x p, b => by
    cases b with
    | like y q =>
      have := decEq x y
      exact decidable_of_iff (x = y ∧ p = q) (by simp)
    | _ => exact isFalse (by simp)
  | is x t, b => by
    cases b with
    | is y u =>
      have := decEq x y
      exact decidable_of_iff (x = y ∧ t = u) (by simp)
    | _ => exact isFalse (by simp)
  | isMem x t g, b => by
    cases b with
    | isMem y u h =>
      have := decEq x y
      have := decEq g h
      exact decidable_of_iff (x = y ∧ t = u ∧ g = h) (by simp)
    | _ => exact isFalse (by simp)
  | set xs, b => by
    cases b with
    | set ys => exact @decidable_of_iff _ (xs = ys) (by simp) (decEqItems xs ys)
    | _ => exact isFalse (by simp)
  | record xs, b => by
    cases b with
    | record ys => exact @decidable_of_iff _ (xs = ys) (by simp) (decEqFields xs ys)
    | _ => exact isFalse (by simp)

/-- Equality of lists of expressions is decidable. -/
def decEqItems : (a b : List Expr) → Decidable (a = b)
  | [], [] => isTrue rfl
  | [], _ :: _ => isFalse (by simp)
  | _ :: _, [] => isFalse (by simp)
  | x :: xs, y :: ys =>
    match decEq x y, decEqItems xs ys with
    | isTrue h, isTrue hs => isTrue (by rw [h, hs])
    | isFalse h, _ => isFalse (by simp [h])
    | _, isFalse hs => isFalse (by simp [hs])

/-- Equality of lists of fields is decidable. -/
def decEqFields : (a b : List (String × Expr)) → Decidable (a = b)
  | [], [] => isTrue rfl
  | [], _ :: _ => isFalse (by simp)
  | _ :: _, [] => isFalse (by simp)
  | (k, x) :: xs, (l, y) :: ys =>
    if hk : k = l then
      match decEq x y, decEqFields xs ys with
      | isTrue h, isTrue hs => isTrue (by rw [hk, h, hs])
      | isFalse h, _ => isFalse (by simp [h])
      | _, isFalse hs => isFalse (by simp [hs])
    else isFalse (by simp [hk])

end

instance : DecidableEq Expr := decEq

/-! ### Depth -/

mutual

/-- The number of edges on the longest path to a leaf. -/
def depth : Expr → Nat
  | lit _ | var _ | slot _ => 0
  | unary _ e | getAttr e _ | hasAttr e _ | like e _ | is e _ => depth e + 1
  | binary _ a b | and a b | or a b => max (depth a) (depth b) + 1
  | isMem e _ g => max (depth e) (depth g) + 1
  | ite c t e => max (depth c) (max (depth t) (depth e)) + 1
  | set items => depthItems items
  | record fields => depthFields fields

/-- The depth of a node with these items: one above the deepest item, and zero without any. -/
def depthItems : List Expr → Nat
  | [] => 0
  | e :: es => max (depth e + 1) (depthItems es)

/-- The depth of a node with these fields. -/
def depthFields : List (String × Expr) → Nat
  | [] => 0
  | (_, e) :: fs => max (depth e + 1) (depthFields fs)

end

/-! ### Slots -/

mutual

/-- Whether a slot occurs. -/
def mentions (s : Slot) : Expr → Bool
  | lit _ | var _ => false
  | slot t => s == t
  | unary _ e | getAttr e _ | hasAttr e _ | like e _ | is e _ => mentions s e
  | binary _ a b | and a b | or a b => mentions s a || mentions s b
  | isMem e _ g => mentions s e || mentions s g
  | ite c t e => mentions s c || (mentions s t || mentions s e)
  | set items => mentionsItems s items
  | record fields => mentionsFields s fields

/-- Whether a slot occurs in a list. -/
def mentionsItems (s : Slot) : List Expr → Bool
  | [] => false
  | e :: es => mentions s e || mentionsItems s es

/-- Whether a slot occurs in a list of fields. -/
def mentionsFields (s : Slot) : List (String × Expr) → Bool
  | [] => false
  | (_, e) :: fs => mentions s e || mentionsFields s fs

end

/-- The slots that occur, in their order. -/
def slots (e : Expr) : List Slot :=
  Slot.all.filter fun s => e.mentions s

mutual

/-- Put entity literals in the place of the bound slots. -/
def bind (values : List (Slot × Uid)) : Expr → Expr
  | lit l => lit l
  | var v => var v
  | slot s =>
    match Ascending.get? s values with
    | some u => lit (.entity u)
    | none => slot s
  | unary op e => unary op (bind values e)
  | binary op a b => binary op (bind values a) (bind values b)
  | and a b => and (bind values a) (bind values b)
  | or a b => or (bind values a) (bind values b)
  | ite c t e => ite (bind values c) (bind values t) (bind values e)
  | getAttr e n => getAttr (bind values e) n
  | hasAttr e n => hasAttr (bind values e) n
  | like e p => like (bind values e) p
  | is e t => is (bind values e) t
  | isMem e t g => isMem (bind values e) t (bind values g)
  | set items => set (bindItems values items)
  | record fields => record (bindFields values fields)

/-- `bind` in each expression of a list. -/
def bindItems (values : List (Slot × Uid)) : List Expr → List Expr
  | [] => []
  | e :: es => bind values e :: bindItems values es

/-- `bind` in each field of a list. -/
def bindFields (values : List (Slot × Uid)) : List (String × Expr) → List (String × Expr)
  | [] => []
  | (k, e) :: fs => (k, bind values e) :: bindFields values fs

end

end Expr

end AccessPolicy
