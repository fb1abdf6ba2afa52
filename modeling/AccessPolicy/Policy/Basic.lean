import AccessPolicy.Error
import AccessPolicy.Expr.Basic

/-!
# Policies

A policy permits or forbids the requests that its three scopes and all its clauses admit. A policy
that mentions slots is a template; `Policy.link` makes a policy of it by giving every slot an
entity.
-/

namespace AccessPolicy

/-- What a policy does to the requests that it admits. -/
inductive Effect
  | permit
  | forbid
deriving DecidableEq

namespace Effect

/-- The keyword of an effect. -/
def name : Effect → String
  | permit => "permit"
  | forbid => "forbid"

/-- The effect of a keyword. -/
def ofName? (s : String) : Option Effect :=
  [permit, forbid].find? (·.name = s)

end Effect

/-- The entity of a scope constraint. -/
inductive Reference
  | uid (u : Uid)
  | slot (s : Slot)
deriving DecidableEq

namespace Reference

/-- The slot of a reference. -/
def slot? : Reference → Option Slot
  | uid _ => none
  | slot s => some s

/-- Put an entity in the place of a bound slot. -/
def bind (values : List (Slot × Uid)) : Reference → Reference
  | uid u => uid u
  | slot s =>
    match Ascending.get? s values with
    | some u => uid u
    | none => slot s

end Reference

/-- What a scope asks of the principal, the action or the resource. -/
inductive Scope
  | any
  | eq (target : Reference)
  | mem (target : Reference)
  /-- To belong to one of the groups; only actions are asked this. -/
  | memAny (targets : List Uid)
  | is (type : String)
  | isMem (type : String) (target : Reference)
deriving DecidableEq

namespace Scope

/-- The slot of a scope. -/
def slot? : Scope → Option Slot
  | any | memAny _ | is _ => none
  | eq r | mem r | isMem _ r => r.slot?

/-- Put an entity in the place of a bound slot. -/
def bind (values : List (Slot × Uid)) : Scope → Scope
  | eq r => eq (r.bind values)
  | mem r => mem (r.bind values)
  | isMem t r => isMem t (r.bind values)
  | s => s

end Scope

/-- The two kinds of clauses. -/
inductive ClauseKind
  /-- The body has to be true. -/
  | whenTrue
  /-- The body has to be false. -/
  | unlessTrue
deriving DecidableEq

namespace ClauseKind

/-- The keyword of a kind. -/
def name : ClauseKind → String
  | whenTrue => "when"
  | unlessTrue => "unless"

/-- The kind of a keyword. -/
def ofName? (s : String) : Option ClauseKind :=
  [whenTrue, unlessTrue].find? (·.name = s)

end ClauseKind

/-- A clause. -/
structure Clause where
  /-- What the body has to be. -/
  kind : ClauseKind
  /-- The condition. -/
  body : Expr
deriving DecidableEq

/-- A policy or a template. -/
structure Policy where
  /-- The id, unique within a set. -/
  id : String
  /-- What the policy does. -/
  effect : Effect
  /-- The scope of the principal. -/
  principal : Scope
  /-- The scope of the action. -/
  action : Scope
  /-- The scope of the resource. -/
  resource : Scope
  /-- The clauses, in order. -/
  conditions : List Clause
  /-- Annotations other than the id, by ascending key. -/
  annotations : List (String × String)
deriving DecidableEq

namespace Policy

/-- The id of the policy at a place of a text when it has none of its own. -/
def defaultId (place : Nat) : String :=
  s!"policy{place}"

/-- Add an annotation; the key `id` is reserved and changes nothing. -/
def annotate (p : Policy) (key value : String) : Policy :=
  if key = "id" then p else { p with annotations := Ascending.put key value p.annotations }

/-- Give the policy another id. -/
def withId (p : Policy) (id : String) : Policy :=
  { p with id := id }

/-- Whether a slot occurs in the scope of the principal or the resource or in a clause. -/
def mentions (s : Slot) (p : Policy) : Bool :=
  p.principal.slot? == some s || p.resource.slot? == some s ||
    p.conditions.any fun c => c.body.mentions s

/-- The slots that occur, in their order. -/
def slots (p : Policy) : List Slot :=
  Slot.all.filter fun s => p.mentions s

/-- Whether some slot occurs. -/
def isTemplate (p : Policy) : Bool :=
  !p.slots.isEmpty

/-- Put entities in the place of slots. -/
def bind (p : Policy) (values : List (Slot × Uid)) : Policy :=
  { p with
    principal := p.principal.bind values
    resource := p.resource.bind values
    conditions := p.conditions.map fun c => { c with body := c.body.bind values } }

/-- The policy that a template becomes under a new id. The values must name exactly its slots. -/
def link (p : Policy) (id : String) (values : List (Slot × Uid)) : Except Error Policy :=
  match p.slots.find? (fun s => !Ascending.hasKey s values) with
  | some s => .error (.templateLink (s!"template \x60{p.id}\x60 requires a value for " ++ s.name))
  | none =>
    match (Ascending.keys values).find? (fun s => !p.slots.contains s) with
    | some s => .error (.templateLink (s!"template \x60{p.id}\x60 has no slot " ++ s.name))
    | none => .ok ((p.bind values).withId id)

end Policy

end AccessPolicy
