import AccessPolicy.Authorization.Authorizer
import AccessPolicy.Engine.Version
import AccessPolicy.Grammar.Policy
import AccessPolicy.Schema.Json

/-!
# Snapshots

A snapshot is everything that a decision needs: an authorizer, the entities and the version of the
policy text. Snapshots are never changed. The functions below build a new one from an old one, or
fail. Those that load a policy text are told the time.
-/

namespace AccessPolicy

/-- A schema, or a text to read one from. -/
inductive SchemaSource
  | given (schema : Schema)
  | text (text : String)

namespace SchemaSource

/-- The schema of a source. -/
def read : SchemaSource → Except Error Schema
  | given schema => .ok schema
  | text t => Schema.ofText t

/-- The schema of a source that may be missing. -/
def readOption : Option SchemaSource → Except Error (Option Schema)
  | none => .ok none
  | some source => source.read.map some

end SchemaSource

/-- A state that an engine can be in. -/
structure Snapshot where
  /-- The policies, the schema and the options. -/
  authorizer : Authorizer
  /-- The entities. -/
  entities : Entities
  /-- The version of the policy text. -/
  version : PolicyVersion

namespace Snapshot

/-! ### Building -/

/-- The snapshot of a policy text, without entities. -/
def load (text : String) (source : Option SchemaSource) (now : String) : Logged Snapshot := do
  let schema ← SchemaSource.readOption source
  let policies ← (PolicySet.parse text : Except Error PolicySet)
  let authorizer ← Authorizer.ofPolicies policies schema
  pure ⟨authorizer, .empty, .ofText text now⟩

/-- Replace the entities, which have to fit the schema. -/
def withEntities (s : Snapshot) (es : Entities) : Except Error Snapshot :=
  (s.authorizer.checkEntities es).map fun _ => { s with entities := es }

/-- Replace the options. -/
def withOptions (s : Snapshot) (options : AuthorizerOptions) : Snapshot :=
  { s with authorizer := s.authorizer.withOptions options }

/-- Replace the policies. They have to pass the check against the schema. -/
def withPolicies (s : Snapshot) (text now : String) : Logged Snapshot := do
  let policies ← (PolicySet.parse text : Except Error PolicySet)
  let authorizer ← Authorizer.ofPolicies policies s.authorizer.schema
  pure ⟨authorizer.withOptions s.authorizer.options, s.entities, .ofText text now⟩

/-- Replace the policies and the schema. The policies have to pass the check against the new schema,
and the entities have to fit it. -/
def withPoliciesAndSchema (s : Snapshot) (text : String) (source : SchemaSource) (now : String) :
    Logged Snapshot := do
  let schema ← source.read
  let policies ← (PolicySet.parse text : Except Error PolicySet)
  let authorizer ← Authorizer.checked policies schema
  let authorizer := authorizer.withOptions s.authorizer.options
  authorizer.checkEntities s.entities
  pure ⟨authorizer, s.entities, .ofText text now⟩

/-! ### Counts -/

/-- How many policies take part in decisions. -/
def policyCount (s : Snapshot) : Nat :=
  s.authorizer.effective.length

/-- Whether there is a schema. -/
def hasSchema (s : Snapshot) : Bool :=
  s.authorizer.schema.isSome

/-- Note that the snapshot has replaced another one. -/
def noteReload (s : Snapshot) (phase : ReloadPhase) (withNewSchema : Bool) : Logged Unit := do
  Logged.note
    [.reloaded phase s.version.hash s.policyCount s.entities.size s.hasSchema withNewSchema]
  Logged.measure [.reload s.policyCount s.entities.size s.hasSchema]

/-! ### Decisions -/

/-- Check, decide and measure a request. The entities are not checked again. -/
def evaluate (s : Snapshot) (r : Request) : Logged Response := do
  let response ← s.authorizer.authorize r s.entities
  Logged.measure
    [.evaluation response.isAllowed r.principal.text r.action.text response.errors.length,
     .phases response.isAllowed]
  pure response

/-- Check and decide several requests. The entities are checked again. -/
def evaluateBatch (s : Snapshot) (rs : List Request) : Logged (List Response) :=
  s.authorizer.authorizeBatch rs s.entities

/-- The policies among some whose scope admits a principal. -/
def listingOf (s : Snapshot) (principal : Uid) : List Policy → Logged (List Policy)
  | [] => pure []
  | p :: ps =>
    match p.principal.admits s.entities principal with
    | .error e => Logged.ofResult (.error (.evaluation e))
    | .ok none => s.listingOf principal ps
    | .ok (some reason) => do
      Logged.note [.listed principal p.id reason]
      let rest ← s.listingOf principal ps
      pure (p :: rest)

/-- The policies whose scope admits a principal. -/
def listing (s : Snapshot) (principal : Uid) : Logged (List Policy) :=
  s.listingOf principal s.authorizer.effective

end Snapshot

end AccessPolicy
