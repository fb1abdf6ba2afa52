import AccessPolicy.Entity.Store
import AccessPolicy.Expr.Basic
import AccessPolicy.Pattern
import AccessPolicy.Request.Basic

/-!
# Evaluating expressions

`Expr.evalAt` evaluates an expression that stands at a depth. Operands are evaluated from left to
right, and the first error is the result; `&&`, `||`, `if` and `is … in` leave operands out. The
attributes of the context are read without evaluating the context itself.

Membership of an entity in another one or in a set holds without a look into the store where the two
are equal; otherwise the entity must have a record.
-/

namespace AccessPolicy

/-- What an evaluation may read. The entities are those of a store in memory, the only kind of store
that is described here; an evaluation asks of it only for the record of an entity and whether one
entity is above another. -/
structure Env where
  /-- The request. -/
  request : Request
  /-- The entities. -/
  entities : Entities

namespace Value

/-- The error for a value of another kind. -/
def mismatch {α : Type} (expected : String) (v : Value) : Except EvalError α :=
  .error (.typeMismatch expected v.kind.name)

/-- The truth value. -/
def asBool : Value → Except EvalError Bool
  | bool b => .ok b
  | v => mismatch "bool" v

/-- The integer. -/
def asLong : Value → Except EvalError Long
  | long n => .ok n
  | v => mismatch "long" v

/-- The text. -/
def asString : Value → Except EvalError String
  | string s => .ok s
  | v => mismatch "string" v

/-- The entity. -/
def asEntity : Value → Except EvalError Uid
  | entity u => .ok u
  | v => mismatch "entity" v

/-- The elements of the set. -/
def asSet : Value → Except EvalError (List Value)
  | set items => .ok items
  | v => mismatch "set" v

/-- The entities of a list of values. -/
def asEntities : List Value → Except EvalError (List Uid)
  | [] => .ok []
  | v :: vs => do
    let u ← v.asEntity
    let us ← asEntities vs
    pure (u :: us)

end Value

namespace Env

variable (env : Env)

/-- The value of a variable. -/
def var : Var → Value
  | .principal => .entity env.request.principal
  | .action => .entity env.request.action
  | .resource => .entity env.request.resource
  | .context => env.request.context.toValue

/-- The entities that a group stands for. -/
def groupOf : Value → Except EvalError (List Uid)
  | .entity t => .ok [t]
  | .set items => Value.asEntities items
  | v => v.mismatch "entity or set of entities"

/-- Whether an entity belongs to one of some groups. -/
def memAny (u : Uid) (groups : List Uid) : Except EvalError Bool :=
  if u ∈ groups then .ok true
  else if groups.isEmpty then .ok false
  else if env.entities.contains u then .ok (groups.any fun t => env.entities.isDescendant u t)
  else .error (.unknownEntity u)

/-- Whether an entity belongs to a group, an entity or a set of entities. -/
def mem (u : Uid) (group : Value) : Except EvalError Bool := do
  env.memAny u (← groupOf group)

/-- The value of an attribute of an entity or a record. -/
def getAttr (v : Value) (name : String) : Except EvalError Value :=
  match v with
  | .entity u =>
    match env.entities.find? u with
    | none => .error (.unknownEntity u)
    | some e =>
      match e.attr? name with
      | some x => .ok x
      | none => .error (.attributeNotFound u.text name)
  | .record fields =>
    match Ascending.get? name fields with
    | some x => .ok x
    | none => .error (.attributeNotFound "record" name)
  | v => v.mismatch "entity or record"

/-- Whether an entity or a record has an attribute. -/
def hasAttr (v : Value) (name : String) : Except EvalError Bool :=
  match v with
  | .entity u => .ok ((env.entities.find? u).any fun e => (e.attr? name).isSome)
  | .record fields => .ok (Ascending.hasKey name fields)
  | v => v.mismatch "entity or record"

/-- The value of an attribute of the context. -/
def contextAttr (name : String) : Except EvalError Value :=
  match Ascending.get? name env.request.context with
  | some x => .ok x
  | none => .error (.attributeNotFound "context" name)

/-- The result of a unary operation. -/
def unary (op : UnaryOp) (v : Value) : Except EvalError Value :=
  match op with
  | .not => do pure (.bool !(← v.asBool))
  | .neg => do
    match (← v.asLong).neg? with
    | some n => pure (.long n)
    | none => .error (.integerOverflow "-")
  | .isEmpty => do pure (.bool (← v.asSet).isEmpty)

/-- Compare two integers. -/
def compareLongs (test : Int → Int → Bool) (a b : Value) : Except EvalError Value := do
  let x ← a.asLong
  let y ← b.asLong
  pure (.bool (test x.toInt y.toInt))

/-- Combine two integers. -/
def combineLongs (op : BinaryOp) (f : Long → Long → Option Long) (a b : Value) :
    Except EvalError Value := do
  let x ← a.asLong
  let y ← b.asLong
  match f x y with
  | some n => pure (.long n)
  | none => .error (.integerOverflow op.symbol)

/-- The result of a binary operation. -/
def binary (op : BinaryOp) (a b : Value) : Except EvalError Value :=
  match op with
  | .eq => .ok (.bool (a = b))
  | .notEq => .ok (.bool (a ≠ b))
  | .less => compareLongs (· < ·) a b
  | .lessEq => compareLongs (· ≤ ·) a b
  | .greater => compareLongs (· > ·) a b
  | .greaterEq => compareLongs (· ≥ ·) a b
  | .add => combineLongs .add Long.add? a b
  | .sub => combineLongs .sub Long.sub? a b
  | .mul => combineLongs .mul Long.mul? a b
  | .mem => do
    let u ← a.asEntity
    pure (.bool (← env.mem u b))
  | .contains => do pure (.bool ((← a.asSet).contains b))
  | .containsAll => do
    let xs ← a.asSet
    let ys ← b.asSet
    pure (.bool (ys.all xs.contains))
  | .containsAny => do
    let xs ← a.asSet
    let ys ← b.asSet
    pure (.bool (ys.any xs.contains))

end Env

namespace Expr

/-- Whether an expression is the context. -/
def isContext : Expr → Bool
  | var .context => true
  | _ => false

mutual

/-- The value of an expression at a depth, which must not exceed the limit. -/
def evalAt (env : Env) (limit : Nat) : Expr → (depth : Nat) → Except EvalError Value
  | lit l, d => if limit < d then .error (.recursionLimit limit) else .ok l.value
  | var v, d => if limit < d then .error (.recursionLimit limit) else .ok (env.var v)
  | slot s, d =>
    if limit < d then .error (.recursionLimit limit) else .error (.unlinkedSlot s.name)
  | unary op e, d =>
    if limit < d then .error (.recursionLimit limit)
    else do
      let v ← evalAt env limit e (d + 1)
      Env.unary op v
  | and a b, d =>
    if limit < d then .error (.recursionLimit limit)
    else do
      let v ← evalAt env limit a (d + 1)
      if ← v.asBool then
        let w ← evalAt env limit b (d + 1)
        pure (.bool (← w.asBool))
      else pure (.bool false)
  | or a b, d =>
    if limit < d then .error (.recursionLimit limit)
    else do
      let v ← evalAt env limit a (d + 1)
      if ← v.asBool then pure (.bool true)
      else
        let w ← evalAt env limit b (d + 1)
        pure (.bool (← w.asBool))
  | ite c t e, d =>
    if limit < d then .error (.recursionLimit limit)
    else do
      let v ← evalAt env limit c (d + 1)
      if ← v.asBool then evalAt env limit t (d + 1) else evalAt env limit e (d + 1)
  | binary op a b, d =>
    if limit < d then .error (.recursionLimit limit)
    else do
      let v ← evalAt env limit a (d + 1)
      let w ← evalAt env limit b (d + 1)
      env.binary op v w
  | getAttr e name, d =>
    if limit < d then .error (.recursionLimit limit)
    else if isContext e then env.contextAttr name
    else do
      let v ← evalAt env limit e (d + 1)
      env.getAttr v name
  | hasAttr e name, d =>
    if limit < d then .error (.recursionLimit limit)
    else if isContext e then .ok (.bool (Ascending.hasKey name env.request.context))
    else do
      let v ← evalAt env limit e (d + 1)
      pure (.bool (← env.hasAttr v name))
  | like e p, d =>
    if limit < d then .error (.recursionLimit limit)
    else do
      let v ← evalAt env limit e (d + 1)
      pure (.bool (Pattern.accepts p (← v.asString)))
  | is e t, d =>
    if limit < d then .error (.recursionLimit limit)
    else do
      let v ← evalAt env limit e (d + 1)
      let u ← v.asEntity
      pure (.bool (u.type = t))
  | isMem e t g, d =>
    if limit < d then .error (.recursionLimit limit)
    else do
      let v ← evalAt env limit e (d + 1)
      let u ← v.asEntity
      if u.type = t then
        let w ← evalAt env limit g (d + 1)
        pure (.bool (← env.mem u w))
      else pure (.bool false)
  | set items, d =>
    if limit < d then .error (.recursionLimit limit)
    else (evalItems env limit items (d + 1)).map .ofItems
  | record fields, d =>
    if limit < d then .error (.recursionLimit limit)
    else (evalFields env limit fields (d + 1)).map .ofFields

/-- The values of a list of expressions. -/
def evalItems (env : Env) (limit : Nat) :
    List Expr → (depth : Nat) → Except EvalError (List Value)
  | [], _ => .ok []
  | e :: es, d => do
    let v ← evalAt env limit e d
    let vs ← evalItems env limit es d
    pure (v :: vs)

/-- The values of a list of fields. -/
def evalFields (env : Env) (limit : Nat) :
    List (String × Expr) → (depth : Nat) → Except EvalError (List (String × Value))
  | [], _ => .ok []
  | (k, e) :: fs, d => do
    let v ← evalAt env limit e d
    let vs ← evalFields env limit fs d
    pure ((k, v) :: vs)

end

/-- A variable within the limit has its value. -/
theorem evalAt_var {env : Env} {limit d : Nat} {v : Var} (h : d ≤ limit) :
    (var v).evalAt env limit d = .ok (env.var v) := by
  rw [evalAt, if_neg (Nat.not_lt.mpr h)]

/-- The value of an expression. -/
def eval (env : Env) (limit : Nat) (e : Expr) : Except EvalError Value :=
  e.evalAt env limit 0

end Expr

end AccessPolicy
