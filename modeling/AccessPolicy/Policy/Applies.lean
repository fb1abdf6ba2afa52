import AccessPolicy.Expr.Eval
import AccessPolicy.Policy.Basic

/-!
# When a policy applies

A policy applies to a request if its three scopes admit the principal, the action and the resource
and each clause holds; the first scope or clause that does not hold ends the matter. A scope looks
entities up more leniently than a condition: an entity without a record belongs to nothing but
itself.
-/

namespace AccessPolicy

/-- By which form of scope an entity was admitted. -/
inductive ScopeMatch
  | any
  | eq
  | mem
  | is
  | isMem
  | memAny
deriving DecidableEq

/-- The name of the form. -/
def ScopeMatch.name : ScopeMatch → String
  | any => "Any"
  | eq => "Eq"
  | mem => "In"
  | is => "Is"
  | isMem => "IsIn"
  | memAny => "InList"

/-- The entity of a reference; a slot has none. -/
def Reference.resolve : Reference → Except EvalError Uid
  | uid u => .ok u
  | slot s => .error (.unlinkedSlot s.name)

/-- How a scope admits an entity, if it does. -/
def Scope.admits (entities : Entities) (u : Uid) : Scope → Except EvalError (Option ScopeMatch)
  | any => .ok (some .any)
  | eq r => do
    let t ← r.resolve
    pure (if t = u then some .eq else none)
  | mem r => do
    let t ← r.resolve
    pure (if entities.isDescendant u t then some .mem else none)
  | memAny ts => .ok (if ts.any fun t => entities.isDescendant u t then some .memAny else none)
  | is type => .ok (if u.type = type then some .is else none)
  | isMem type r => do
    let t ← r.resolve
    pure (if u.type = type ∧ entities.isDescendant u t then some .isMem else none)

/-- Whether a clause holds. -/
def Clause.holds (env : Env) (limit : Nat) (c : Clause) : Except EvalError Bool := do
  let v ← c.body.eval env limit
  let b ← v.asBool
  match c.kind with
  | .whenTrue => pure b
  | .unlessTrue => pure !b

/-- Whether all clauses hold. -/
def Clause.allHold (env : Env) (limit : Nat) : List Clause → Except EvalError Bool
  | [] => .ok true
  | c :: cs => do
    if ← c.holds env limit then allHold env limit cs else pure false

/-- Whether the scopes admit the request. -/
def Policy.inScope (env : Env) (p : Policy) : Except EvalError Bool := do
  if (← p.principal.admits env.entities env.request.principal).isSome then
    if (← p.action.admits env.entities env.request.action).isSome then
      pure (← p.resource.admits env.entities env.request.resource).isSome
    else pure false
  else pure false

/-- Whether a policy applies. -/
def Policy.applies (env : Env) (limit : Nat) (p : Policy) : Except EvalError Bool := do
  if ← p.inScope env then Clause.allHold env limit p.conditions else pure false

end AccessPolicy
