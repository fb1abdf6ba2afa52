import AccessPolicy.Policy.Set

/-!
# Policy trees

The JSON form of expressions, policies and policy sets. A node of an expression is an object with
one member, whose key says what the node is: `Value`, `Var`, `Slot`, `Set`, `Record`, an operator or
the name of a method. A set has its templates and static policies as members by their ids, and its
links as a list.
-/

namespace AccessPolicy

/-- The JSON form of a literal. -/
def Literal.toTree : Literal → Json
  | bool b => .bool b
  | long n => .int n.toInt
  | string s => .str s
  | entity u => .obj [(Value.entityKey, u.toJson)]

/-- The JSON form of one place of a pattern. -/
def Glob.toTree : Glob → Json
  | .wildcard => .str "Wildcard"
  | .char c => .obj [("Literal", .str (String.singleton c))]

/-- The key of a unary operation. -/
def UnaryOp.key : UnaryOp → String
  | not => "!"
  | neg => "neg"
  | isEmpty => "isEmpty"

namespace Expr

/-- A node. -/
def node (key : String) (body : Json) : Json :=
  .obj [(key, body)]

/-- The body of a node with two operands. -/
def pair (left right : Json) : Json :=
  .obj [("left", left), ("right", right)]

mutual

/-- The JSON form of an expression. -/
def toTree : Expr → Json
  | lit l => node "Value" l.toTree
  | var v => node "Var" (.str v.name)
  | slot s => node "Slot" (.str s.name)
  | unary op e => node op.key (.obj [("arg", toTree e)])
  | binary op a b => node op.symbol (pair (toTree a) (toTree b))
  | and a b => node "&&" (pair (toTree a) (toTree b))
  | or a b => node "||" (pair (toTree a) (toTree b))
  | ite c t e =>
    node "if-then-else" (.obj [("if", toTree c), ("then", toTree t), ("else", toTree e)])
  | getAttr e n => node "." (.obj [("left", toTree e), ("attr", .str n)])
  | hasAttr e n => node "has" (.obj [("left", toTree e), ("attr", .str n)])
  | like e p => node "like" (.obj [("left", toTree e), ("pattern", .arr (p.map Glob.toTree))])
  | is e t => node "is" (.obj [("left", toTree e), ("entity_type", .str t)])
  | isMem e t g =>
    node "is" (.obj [("left", toTree e), ("entity_type", .str t), ("in", toTree g)])
  | set items => node "Set" (.arr (toTreeItems items))
  | record fields => node "Record" (.obj (toTreeFields fields))

/-- The JSON forms of a list of expressions. -/
def toTreeItems : List Expr → List Json
  | [] => []
  | e :: es => toTree e :: toTreeItems es

/-- The JSON forms of a list of fields. -/
def toTreeFields : List (String × Expr) → List (String × Json)
  | [] => []
  | (k, e) :: fs => (k, toTree e) :: toTreeFields fs

end

end Expr

/-- The member that a reference becomes. -/
def Reference.toTree : Reference → String × Json
  | uid u => ("entity", u.toJson)
  | slot s => ("slot", .str s.name)

/-- The JSON form of a scope. -/
def Scope.toTree : Scope → Json
  | any => .obj [("op", .str "All")]
  | eq r => .obj [("op", .str "=="), r.toTree]
  | mem r => .obj [("op", .str "in"), r.toTree]
  | memAny us => .obj [("op", .str "in"), ("entities", .arr (us.map Uid.toJson))]
  | is t => .obj [("op", .str "is"), ("entity_type", .str t)]
  | isMem t r => .obj [("op", .str "is"), ("entity_type", .str t), ("in", .obj [r.toTree])]

/-- The JSON form of a clause. -/
def Clause.toTree (c : Clause) : Json :=
  .obj [("kind", .str c.kind.name), ("body", c.body.toTree)]

/-- The JSON form of a policy, which does not hold its id. -/
def Policy.toTree (p : Policy) : Json :=
  .obj <|
    [("effect", .str p.effect.name), ("principal", p.principal.toTree),
      ("action", p.action.toTree), ("resource", p.resource.toTree),
      ("conditions", .arr (p.conditions.map Clause.toTree))] ++
    if p.annotations.isEmpty then []
    else [("annotations", .obj (p.annotations.map fun a => (a.1, .str a.2)))]

/-- The JSON form of a link. -/
def Link.toTree (l : Link) : Json :=
  .obj [("templateId", .str l.template), ("newId", .str l.id),
    ("values", .obj (l.values.map fun v => (v.1.name, v.2.toJson)))]

/-- The JSON form of a policy set. -/
def PolicySet.toTree (s : PolicySet) : Json :=
  .obj [("templates", .obj (s.templates.map fun p => (p.id, p.toTree))),
    ("staticPolicies", .obj (s.policies.map fun p => (p.id, p.toTree))),
    ("templateLinks", .arr (s.links.map Link.toTree))]

end AccessPolicy
