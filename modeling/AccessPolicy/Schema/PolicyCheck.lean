import AccessPolicy.Policy.Set
import AccessPolicy.Schema.Typing

/-!
# Checking policies against a schema

A policy is checked for every kind of request that its scopes and the schema's actions allow: each
condition has to have the type of truth values. `Schema.checkPolicies` reports the errors of each
policy, and warns of a policy that no kind of request can reach.
-/

namespace AccessPolicy

/-- What a policy is warned of. -/
inductive PolicyWarning
  /-- The scopes allow no request that the schema allows. -/
  | impossible
deriving DecidableEq

namespace PolicyWarning

/-- The name of a warning. -/
def name : PolicyWarning → String
  | impossible => "ImpossiblePolicy"

/-- The wording of a warning. -/
def message : PolicyWarning → String
  | impossible => "policy scope matches no principal, action and resource combination " ++
    "allowed by the schema"

end PolicyWarning

/-- What a check of policies has found, each finding with the id of its policy. -/
structure PolicyReport where
  /-- The errors. -/
  errors : List (String × String)
  /-- The warnings. -/
  warnings : List (String × PolicyWarning)
deriving DecidableEq

namespace PolicyReport

/-- The report without findings. -/
def empty : PolicyReport :=
  ⟨[], []⟩

/-- The findings of two reports. -/
def append (a b : PolicyReport) : PolicyReport :=
  ⟨a.errors ++ b.errors, a.warnings ++ b.warnings⟩

/-- Whether there are no errors. -/
def passed (r : PolicyReport) : Bool :=
  r.errors.isEmpty

/-- Whether there are no findings. -/
def isClean (r : PolicyReport) : Bool :=
  r.errors.isEmpty && r.warnings.isEmpty

/-- The line of an error. -/
def errorText (e : String × String) : String :=
  "error in " ++ e.1 ++ ": " ++ e.2 ++ "\n"

/-- The line of a warning. -/
def warningText (w : String × PolicyWarning) : String :=
  "warning in " ++ w.1 ++ " (" ++ w.2.name ++ "): " ++ w.2.message ++ "\n"

/-- All findings, one on a line. -/
def text (r : PolicyReport) : String :=
  String.join (r.errors.map errorText) ++ String.join (r.warnings.map warningText)

/-- The errors on one line. -/
def summary (r : PolicyReport) : String :=
  " - ".intercalate (r.errors.map fun e => e.1 ++ ": " ++ e.2)

/-- The JSON form. -/
def toJson (r : PolicyReport) : Json :=
  .obj
    [("errors", .arr (r.errors.map fun e =>
       .obj [("policy_id", .str e.1), ("message", .str e.2)])),
     ("warnings", .arr (r.warnings.map fun w =>
       .obj [("policy_id", .str w.1), ("kind", .str w.2.name), ("message", .str w.2.message)]))]

end PolicyReport

/-! ### Scopes -/

namespace Reference

/-- The type of the entity; a slot has none. -/
def type? : Reference → Option String
  | uid u => some u.type
  | slot _ => none

end Reference

namespace Scope

/-- The entity types that a scope names. -/
def namedTypes : Scope → List String
  | any | memAny _ => []
  | eq r | mem r => r.type?.toList
  | is type => [type]
  | isMem type r => type :: r.type?.toList

/-- The actions that a scope names; none if it names no actions at all. -/
def namedActions : Scope → Option (List Uid)
  | eq (.uid u) | mem (.uid u) => some [u]
  | memAny us => some us
  | _ => none

end Scope

namespace Schema

/-- Whether an entity of a type can belong to the entity of a reference. -/
def canBeIn (s : Schema) (type : String) : Reference → Bool
  | .uid u => s.typeCanBeIn type u.type
  | .slot _ => true

/-- Whether a scope admits some entity of a type. -/
def scopeAdmits (s : Schema) (type : String) : Scope → Bool
  | .any | .memAny _ => true
  | .eq (.uid u) => u.type = type
  | .eq (.slot _) => true
  | .mem r => s.canBeIn type r
  | .is t => t = type
  | .isMem t r => t = type && s.canBeIn type r

/-- The declared actions that a scope admits, ascending. -/
def admittedActions (s : Schema) (scope : Scope) : List (Uid × ActionDecl) :=
  match scope with
  | .eq (.uid u) => s.actions.filter fun a => a.1 = u
  | _ =>
    match scope.namedActions with
    | none => s.actions
    | some groups =>
      let known := groups.filter s.hasAction
      s.actions.filter fun a => known.any fun g => s.inGroup a.1 g

/-- The errors of the names in a policy's scopes. -/
def scopeErrors (s : Schema) (p : Policy) : List TypingError :=
  let types := p.principal.namedTypes ++ p.resource.namedTypes
  let actions := p.action.namedActions.getD []
  (types.filter (!s.hasType ·)).map .unknownType ++
    (actions.filter (!s.hasAction ·)).map .unknownAction

/-- The kinds of requests that an action allows and a policy's scopes admit. -/
def shapesOf (s : Schema) (p : Policy) (action : Uid) (d : ActionDecl) : List RequestShape :=
  (d.principalTypes.filter (s.scopeAdmits · p.principal)).flatMap fun principal =>
    (d.resourceTypes.filter (s.scopeAdmits · p.resource)).map fun resource =>
      ⟨action, principal, resource, d.context⟩

/-- The kinds of requests that a policy can apply to. -/
def shapes (s : Schema) (p : Policy) : List RequestShape :=
  (s.admittedActions p.action).flatMap fun a => s.shapesOf p a.1 a.2

/-! ### Conditions -/

/-- Check that an expression is a condition. -/
def checkCondition (s : Schema) (shape : RequestShape) (e : Expr) : Except TypingError Unit := do
  Demand.bool.check (← e.typeIn s shape)

/-- The error of an expression that is no condition. -/
def conditionError? (s : Schema) (shape : RequestShape) (e : Expr) : Option TypingError :=
  match s.checkCondition shape e with
  | .ok _ => none
  | .error e => some e

/-- The errors of a policy's conditions. -/
def conditionErrors (s : Schema) (p : Policy) : List TypingError :=
  (s.shapes p).flatMap fun shape => p.conditions.filterMap fun c => s.conditionError? shape c.body

/-! ### Policies -/

/-- Check a policy. Its errors come in the order of their texts, each text once. -/
def checkPolicy (s : Schema) (p : Policy) : PolicyReport :=
  let named := s.scopeErrors p
  let texts := Ascending.ofList ((named ++ s.conditionErrors p).map TypingError.message)
  ⟨texts.map fun t => (p.id, t),
   if named.isEmpty && (s.shapes p).isEmpty then [(p.id, .impossible)] else []⟩

/-- The errors of a link: entities of undeclared types. -/
def linkErrors (s : Schema) (l : Link) : List (String × String) :=
  (l.values.filter fun v => !s.hasType v.2.type).map fun v =>
    (l.id, (TypingError.unknownType v.2.type).message ++ " bound to " ++ v.1.name)

/-- Check the static policies, the templates and the links of a set. -/
def checkPolicies (s : Schema) (set : PolicySet) : PolicyReport :=
  let policies := (set.policies ++ set.templates).map s.checkPolicy
  (policies.foldr PolicyReport.append .empty).append ⟨set.links.flatMap s.linkErrors, []⟩

end Schema

end AccessPolicy
