import AccessPolicy.Authorization.Options
import AccessPolicy.Authorization.Tally
import AccessPolicy.Journal
import AccessPolicy.Schema.Conformance

/-!
# Authorizers

An authorizer decides requests by a fixed policy set, with or without a schema. `Authorizer.decide`
is the decision itself; `Authorizer.authorize` also checks the request against the schema and notes
what went wrong. A `BatchAuthorizer` holds entities that have passed the check, and
`BatchAuthorizer.authorize` checks all requests before it decides the first. A policy that cannot be
evaluated never makes an authorization fail.
-/

namespace AccessPolicy

/-- A policy set ready to decide requests. -/
structure Authorizer where
  /-- The policies as they were given. -/
  policies : PolicySet
  /-- The static policies and the policies of the links. -/
  effective : List Policy
  /-- What requests and entities have to fit. -/
  schema : Option Schema
  /-- How requests are decided. -/
  options : AuthorizerOptions

namespace Authorizer

/-! ### Building -/

/-- An authorizer whose policies are not checked against the schema. -/
def unchecked (policies : PolicySet) (schema : Option Schema) : Except Error Authorizer :=
  policies.effective.map fun effective => ⟨policies, effective, schema, .standard⟩

/-- An authorizer whose policies have passed the check against a schema. -/
def checked (policies : PolicySet) (schema : Schema) : Logged Authorizer := do
  let report := schema.checkPolicies policies
  Logged.note (report.warnings.map fun w => .policyWarning w.1 w.2)
  if report.passed then unchecked policies (some schema)
  else Logged.ofResult (.error (.policyValidation report.summary))

/-- An authorizer whose policies have passed the check, if there is a schema. -/
def ofPolicies (policies : PolicySet) (schema : Option Schema) : Logged Authorizer :=
  match schema with
  | none => Logged.ofResult (unchecked policies none)
  | some s => checked policies s

/-- Change how requests are decided. -/
def withOptions (a : Authorizer) (options : AuthorizerOptions) : Authorizer :=
  { a with options := options }

/-! ### Checks -/

/-- Check a request against the schema. In the permissive mode a request that does not fit is noted
and let through. -/
def checkRequest (a : Authorizer) (r : Request) : Logged Unit :=
  match a.schema with
  | none => pure ()
  | some s =>
    match s.checkRequest r with
    | .ok _ => pure ()
    | .error e =>
      match a.options.mode with
      | .strict => Logged.ofResult (.error (.requestValidation e))
      | .permissive => Logged.note [.requestMismatch r e]

/-- Check entities against the schema, where the options ask for it. -/
def checkEntities (a : Authorizer) (es : Entities) : Except Error Unit :=
  match a.schema with
  | none => .ok ()
  | some s => if a.options.checksEntities then s.checkEntities es else .ok ()

/-! ### Decisions -/

/-- Whether each policy applies. -/
def outcomes (a : Authorizer) (r : Request) (es : Entities) :
    List (Policy × Except EvalError Bool) :=
  a.effective.map fun p => (p, p.applies ⟨r, es⟩ a.options.depth)

/-- The response to a request. -/
def decide (a : Authorizer) (r : Request) (es : Entities) : Response :=
  (Tally.ofOutcomes (a.outcomes r es)).response r.correlationId

/-- The notice of a policy that failed. -/
def failureNotice? (o : Policy × Except EvalError Bool) : Option Notice :=
  match o.2 with
  | .ok _ => none
  | .error e => some (.policyFailed o.1.id e)

/-- The response to a request, with a notice for each policy that failed. -/
def respond (a : Authorizer) (r : Request) (es : Entities) : Logged Response :=
  let outcomes := a.outcomes r es
  ⟨⟨outcomes.filterMap failureNotice?, []⟩,
   .ok ((Tally.ofOutcomes outcomes).response r.correlationId)⟩

/-- Responding is deciding. -/
@[simp] theorem result_respond (a : Authorizer) (r : Request) (es : Entities) :
    (a.respond r es).result = .ok (a.decide r es) := rfl

/-- Check and decide a request. -/
def authorize (a : Authorizer) (r : Request) (es : Entities) : Logged Response := do
  a.checkRequest r
  a.respond r es

end Authorizer

/-! ### Batches -/

/-- An authorizer and the entities of its decisions. -/
structure BatchAuthorizer where
  /-- The authorizer. -/
  authorizer : Authorizer
  /-- The entities. -/
  entities : Entities
  /-- The entities have passed the check, where the options ask for it. -/
  checked : authorizer.checkEntities entities = .ok ()

namespace BatchAuthorizer

/-- Check the entities, once for all batches. -/
def ofEntities (a : Authorizer) (es : Entities) : Except Error BatchAuthorizer :=
  match h : a.checkEntities es with
  | .error e => .error e
  | .ok () => .ok ⟨a, es, h⟩

/-- Check and decide several requests. All of them are checked before the first is decided. -/
def authorize (b : BatchAuthorizer) (rs : List Request) : Logged (List Response) := do
  let _ ← Logged.each b.authorizer.checkRequest rs
  Logged.each (b.authorizer.respond · b.entities) rs

end BatchAuthorizer

/-- Check the entities and several requests, and decide them. -/
def Authorizer.authorizeBatch (a : Authorizer) (rs : List Request) (es : Entities) :
    Logged (List Response) := do
  let b ← BatchAuthorizer.ofEntities a es
  b.authorize rs

/-! ### At once -/

namespace PolicySet

/-- Check the entities and a request, and decide it. The policies are not checked. -/
def authorize (s : PolicySet) (r : Request) (es : Entities) (schema : Option Schema) :
    Logged Response := do
  let a ← Authorizer.unchecked s schema
  a.checkEntities es
  a.authorize r es

/-- Check the entities and several requests, and decide them. The policies are not checked. -/
def authorizeBatch (s : PolicySet) (rs : List Request) (es : Entities) (schema : Option Schema) :
    Logged (List Response) := do
  let a ← Authorizer.unchecked s schema
  a.authorizeBatch rs es

end PolicySet

end AccessPolicy
