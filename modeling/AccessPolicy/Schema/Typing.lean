import AccessPolicy.Expr.Basic
import AccessPolicy.Schema.Basic
import AccessPolicy.Schema.StaticType

/-!
# Typing expressions

`Expr.typeIn` finds the static type of an expression for requests of one action with a principal of
one type and a resource of another. The two branches of a conditional may differ, as may the items
of a set; nothing is then known of the value or of the elements.
-/

namespace AccessPolicy

/-- A kind of request: an action and the types of the principal and of the resource. -/
structure RequestShape where
  /-- The action. -/
  action : Uid
  /-- The type of the principal. -/
  principal : String
  /-- The type of the resource. -/
  resource : String
  /-- The declared context of the action. -/
  context : Attributes
deriving DecidableEq

namespace RequestShape

/-- The static type of a variable. -/
def typeOf (shape : RequestShape) : Var → StaticType
  | .principal => .entity (some shape.principal)
  | .action => .entity (some shape.action.type)
  | .resource => .entity (some shape.resource)
  | .context => .record (StaticType.ofAttributes shape.context)

end RequestShape

namespace Schema

/-- Whether a type name is the one that actions have in some namespace. -/
def isActionType (type : String) : Bool :=
  (splitName type).2 = "Action"

/-- The static type of a literal. An entity has to be a declared action or of a declared type. -/
def typeOfLiteral (s : Schema) : Literal → Except TypingError StaticType
  | .bool _ => .ok .bool
  | .long _ => .ok .long
  | .string _ => .ok .string
  | .entity u =>
    if s.hasType u.type || s.hasAction u then .ok (.entity (some u.type))
    else if isActionType u.type then .error (.unknownAction u)
    else .error (.unknownType u.type)

end Schema

namespace UnaryOp

/-- What the operation asks of its operand. -/
def demand : UnaryOp → Demand
  | not => .bool
  | neg => .long
  | isEmpty => .set

/-- The static type of the result. -/
def resultType : UnaryOp → StaticType
  | not => .bool
  | neg => .long
  | isEmpty => .bool

end UnaryOp

namespace BinaryOp

/-- What the operation asks of its operands, if anything. -/
def demands : BinaryOp → Option Demand × Option Demand
  | eq | notEq => (none, none)
  | less | lessEq | greater | greaterEq => (some .long, some .long)
  | add | sub | mul => (some .long, some .long)
  | mem => (some .entity, some .entityOrSet)
  | contains => (some .set, none)
  | containsAll | containsAny => (some .set, some .set)

/-- The static type of the result. -/
def resultType : BinaryOp → StaticType
  | add | sub | mul => .long
  | _ => .bool

end BinaryOp

/-- Check that a static type meets a demand, if there is one. -/
def Demand.checkOption (d : Option Demand) (t : StaticType) : Except TypingError Unit :=
  match d with
  | none => .ok ()
  | some d => d.check t

/-- The static type of the elements of a set with items of the given types. -/
def StaticType.elementOf : List StaticType → StaticType
  | [] => .any
  | t :: ts => if ts.all (· = t) then t else .any

namespace Expr

/-- How messages name a record that is not an entity. -/
def ownerName : Expr → String
  | var .context => "context"
  | _ => "record"

/-- The static type of an attribute of an expression with the given type. -/
def typeOfAttr (s : Schema) (of : Expr) (name : String) :
    StaticType → Except TypingError StaticType
  | .entity (some type) =>
    match (s.entityType? type).bind fun d => Ascending.get? name d.attributes with
    | some (_, t) => .ok (.ofSchema t)
    | none => .error (.noEntityAttribute name type)
  | .entity none | .any => .ok .any
  | .record fields =>
    match Ascending.get? name fields with
    | some t => .ok t
    | none => .error (.noRecordField name of.ownerName)
  | t => .error (.mismatch Demand.entityOrRecord.name t.name)

mutual

/-- The static type of an expression for a kind of request. -/
def typeIn (s : Schema) (shape : RequestShape) : Expr → Except TypingError StaticType
  | lit l => s.typeOfLiteral l
  | var v => .ok (shape.typeOf v)
  | slot _ => .ok (.entity none)
  | unary op e => do
    op.demand.check (← typeIn s shape e)
    pure op.resultType
  | binary op a b => do
    let ta ← typeIn s shape a
    let tb ← typeIn s shape b
    Demand.checkOption op.demands.1 ta
    Demand.checkOption op.demands.2 tb
    pure op.resultType
  | and a b => do
    Demand.bool.check (← typeIn s shape a)
    Demand.bool.check (← typeIn s shape b)
    pure .bool
  | or a b => do
    Demand.bool.check (← typeIn s shape a)
    Demand.bool.check (← typeIn s shape b)
    pure .bool
  | ite c t e => do
    Demand.bool.check (← typeIn s shape c)
    let tt ← typeIn s shape t
    let te ← typeIn s shape e
    pure (if tt = te then tt else .any)
  | getAttr e n => do
    let t ← typeIn s shape e
    typeOfAttr s e n t
  | hasAttr e _ => do
    Demand.entityOrRecord.check (← typeIn s shape e)
    pure .bool
  | like e _ => do
    Demand.string.check (← typeIn s shape e)
    pure .bool
  | is e type => do
    Demand.entity.check (← typeIn s shape e)
    if s.hasType type then pure .bool else throw (.unknownType type)
  | isMem e type g => do
    Demand.entity.check (← typeIn s shape e)
    if s.hasType type then
      Demand.entityOrSet.check (← typeIn s shape g)
      pure .bool
    else throw (.unknownType type)
  | set items => do
    let ts ← typesIn s shape items
    pure (.set (.elementOf ts))
  | record fields => do
    let ts ← fieldTypesIn s shape fields
    pure (.record (Ascending.ofPairs ts))

/-- The static types of expressions. -/
def typesIn (s : Schema) (shape : RequestShape) : List Expr → Except TypingError (List StaticType)
  | [] => .ok []
  | e :: es => do
    let t ← typeIn s shape e
    let ts ← typesIn s shape es
    pure (t :: ts)

/-- The static types of fields. -/
def fieldTypesIn (s : Schema) (shape : RequestShape) :
    List (String × Expr) → Except TypingError (List (String × StaticType))
  | [] => .ok []
  | (k, e) :: fs => do
    let t ← typeIn s shape e
    let ts ← fieldTypesIn s shape fs
    pure ((k, t) :: ts)

end

/-- The type of a unary operation is known from the operation alone, if its operand meets the
demand. -/
theorem typeIn_unary (s : Schema) (shape : RequestShape) (op : UnaryOp) (e : Expr) :
    (unary op e).typeIn s shape = (do
      op.demand.check (← e.typeIn s shape)
      pure op.resultType) := by
  rw [typeIn]

end Expr

end AccessPolicy
