import AccessPolicy.Engine.Snapshot

/-!
# Engines

An engine is a name for a cell that holds a snapshot. Clones of an engine share its cell, so that
all of them see what one of them reloads; an engine with other entities or other options has a cell
of its own. A registry also keeps snapshots that were taken from engines, which nothing changes any
more.

`Registry.step?` runs one step. A step that fails leaves the registry as it is.
-/

namespace AccessPolicy

/-- Engines and held snapshots by name. -/
structure Registry where
  /-- The snapshots of the cells, by their numbers. -/
  cells : List Snapshot
  /-- The cell of each engine, by ascending name. -/
  engines : List (String × Nat)
  /-- The held snapshots, by ascending name. -/
  held : List (String × Snapshot)

/-- What can be done with an engine. What makes something stores it under the name `as`. -/
inductive EngineAction
  | clone (as : String)
  | withEntities (as : String) (entities : Entities)
  | withOptions (as : String) (options : AuthorizerOptions)
  /-- Replace the policies, together with the schema if there is a new one. -/
  | reload (text : String) (schema : Option SchemaSource) (now : String)
  | reloadEntities (entities : Entities)
  | evaluate (request : Request)
  | evaluateBatch (requests : List Request)
  /-- List the policies whose scope admits a principal. -/
  | listing (principal : Uid)
  /-- Keep the current snapshot. -/
  | hold (as : String)

/-- A step: make an engine of a policy text, or do something with an engine. -/
inductive EngineStep
  | create (as text : String) (schema : Option SchemaSource) (now : String)
  | act (on : String) (action : EngineAction)

/-- What a step answers. -/
inductive EngineAnswer
  | done
  | response (r : Response)
  | responses (rs : List Response)
  | policies (ps : List Policy)

namespace Registry

/-- The registry without engines. -/
def empty : Registry :=
  ⟨[], [], []⟩

/-! ### Looking up -/

/-- The cell of an engine. -/
def cell? (reg : Registry) (name : String) : Option Nat :=
  Ascending.get? name reg.engines

/-- The current snapshot of an engine. -/
def current? (reg : Registry) (name : String) : Option Snapshot :=
  (reg.cell? name).bind (reg.cells[·]?)

/-- A held snapshot. -/
def held? (reg : Registry) (name : String) : Option Snapshot :=
  Ascending.get? name reg.held

/-! ### Changing -/

/-- Make an engine with a cell of its own. -/
def create (reg : Registry) (name : String) (s : Snapshot) : Registry :=
  { reg with
    cells := reg.cells ++ [s]
    engines := Ascending.put name reg.cells.length reg.engines }

/-- Make an engine share a cell. -/
def share (reg : Registry) (name : String) (cell : Nat) : Registry :=
  { reg with engines := Ascending.put name cell reg.engines }

/-- Replace the snapshot of a cell. -/
def replace (reg : Registry) (cell : Nat) (s : Snapshot) : Registry :=
  { reg with cells := reg.cells.set cell s }

/-- Keep a snapshot. -/
def hold (reg : Registry) (name : String) (s : Snapshot) : Registry :=
  { reg with held := Ascending.put name s reg.held }

/-! ### Steps -/

/-- Store a snapshot that was built, if it was, in the way `store` says. -/
def commit (reg : Registry) (built : Logged Snapshot) (store : Snapshot → Registry) :
    Registry × Logged EngineAnswer :=
  match built.result with
  | .error e => (reg, ⟨built.journal, .error e⟩)
  | .ok s => (store s, ⟨built.journal, .ok .done⟩)

/-- Build the snapshot that replaces one, and note that it does. -/
def reloaded (built : Logged Snapshot) (phase : ReloadPhase) (withNewSchema : Bool) :
    Logged Snapshot := do
  let s ← built
  s.noteReload phase withNewSchema
  pure s

/-- Answer without a change. -/
def answer {α : Type} (reg : Registry) (result : Logged α) (wrap : α → EngineAnswer) :
    Registry × Logged EngineAnswer :=
  (reg, ⟨result.journal, result.result.map wrap⟩)

/-- Do something with the engine that has the given cell and snapshot. -/
def act (reg : Registry) (cell : Nat) (s : Snapshot) :
    EngineAction → Registry × Logged EngineAnswer
  | .clone as => (reg.share as cell, pure .done)
  | .withEntities as es => reg.commit (Logged.ofResult (s.withEntities es)) (reg.create as)
  | .withOptions as options => reg.commit (pure (s.withOptions options)) (reg.create as)
  | .reload text none now =>
    reg.commit (reloaded (s.withPolicies text now) .policies false) (reg.replace cell)
  | .reload text (some source) now =>
    reg.commit (reloaded (s.withPoliciesAndSchema text source now) .policies true)
      (reg.replace cell)
  | .reloadEntities es =>
    reg.commit (reloaded (Logged.ofResult (s.withEntities es)) .entities false) (reg.replace cell)
  | .evaluate r => reg.answer (s.evaluate r) .response
  | .evaluateBatch rs => reg.answer (s.evaluateBatch rs) .responses
  | .listing principal => reg.answer (s.listing principal) .policies
  | .hold as => (reg.hold as s, pure .done)

/-- Run a step; there is no answer if it names an engine that does not exist. -/
def step? (reg : Registry) : EngineStep → Option (Registry × Logged EngineAnswer)
  | .create as text source now => some (reg.commit (Snapshot.load text source now) (reg.create as))
  | .act on action =>
    match reg.cell? on with
    | none => none
    | some cell =>
      match reg.cells[cell]? with
      | none => none
      | some s => some (reg.act cell s action)

end Registry

end AccessPolicy
