import AccessPolicy.Policy.Applies
import AccessPolicy.Schema.PolicyCheck

/-!
# Journals

Besides its result, an operation may leave notices for a log and measurements for a metrics sink.
`Logged` is a result with the journal of what led to it; an operation that fails keeps the journal
that it has written so far. What is noted never changes a result: `Logged.result_bind` gives the
result of a sequence from the results of its parts, `Logged.result_bind_eq_ok` opens one step of a
sequence that succeeded, and `Logged.result_each` says that the steps over a list come to what they
come to without a journal.
-/

namespace AccessPolicy

/-! ### Notices -/

/-- Why a snapshot was replaced. -/
inductive ReloadPhase
  | policies
  | entities
deriving DecidableEq

/-- The name of the phase. -/
def ReloadPhase.name : ReloadPhase → String
  | policies => "Policies"
  | entities => "Entities"

/-- An entry of the log. -/
inductive Notice
  /-- A checked policy was warned of. -/
  | policyWarning (policy : String) (warning : PolicyWarning)
  /-- A request that does not fit the schema is decided all the same. -/
  | requestMismatch (request : Request) (error : RequestError)
  /-- A policy could not be evaluated. -/
  | policyFailed (policy : String) (error : EvalError)
  /-- A policy was listed for a principal. -/
  | listed (principal : Uid) (policy : String) (reason : ScopeMatch)
  /-- A snapshot was replaced by one with the given digest and counts. -/
  | reloaded (phase : ReloadPhase) (hash : String) (policies entities : Nat)
      (hasSchema withNewSchema : Bool)
  /-- A second metrics sink was left out. -/
  | sinkIgnored
deriving DecidableEq

namespace Notice

/-- The level of an entry. -/
def level : Notice → String
  | policyWarning .. | requestMismatch .. | policyFailed .. | sinkIgnored => "WARN"
  | reloaded .. => "INFO"
  | listed .. => "DEBUG"

/-- The message of an entry, if it has one. -/
def message? : Notice → Option String
  | policyWarning _ w => some w.message
  | requestMismatch .. => some "Evaluating request that does not match the schema"
  | policyFailed .. => some "Policy evaluation failed"
  | sinkIgnored => some "Metrics sink was already initialized, ignoring set_sink"
  | listed .. | reloaded .. => none

/-- The text of a truth value. -/
def flagText (b : Bool) : String :=
  if b then "true" else "false"

/-- The fields of an entry. -/
def fields : Notice → List (String × String)
  | policyWarning policy w =>
    [("event", "Schema"), ("phase", "ValidatePolicies"), ("policy", policy), ("kind", w.name)]
  | requestMismatch r e =>
    [("event", "Request"), ("phase", "Validation"), ("principal", r.principal.text),
     ("action", r.action.text), ("resource", r.resource.text), ("error", e.message)]
  | policyFailed policy e =>
    [("event", "Request"), ("phase", "Policy"), ("policy", policy), ("error", e.message)]
  | listed principal policy reason =>
    [("event", "Listing"), ("principal", principal.text), ("policy", policy),
     ("reason", reason.name)]
  | reloaded phase hash policies entities hasSchema withNewSchema =>
    [("event", "PolicyReload"), ("phase", phase.name), ("hash", hash),
     ("policies", toString policies), ("entities", toString entities),
     ("has_schema", flagText hasSchema), ("schema_reloaded", flagText withNewSchema)]
  | sinkIgnored => [("event", "Metrics")]

/-- The JSON form: the fields, the level and the message, by ascending key. -/
def toJson (n : Notice) : Json :=
  let message :=
    match n.message? with
    | none => []
    | some m => [("message", m)]
  .obj ((Ascending.ofPairs (n.fields ++ ("level", n.level) :: message)).map fun f =>
    (f.1, .str f.2))

end Notice

/-! ### Measurements -/

/-- An entry of the metrics. -/
inductive Measurement
  /-- A request was decided, with this many failed policies. -/
  | evaluation (allowed : Bool) (principal action : String) (failed : Nat)
  /-- The phases of the same decision were timed. -/
  | phases (allowed : Bool)
  /-- A snapshot was replaced. -/
  | reload (policies entities : Nat) (hasSchema : Bool)
deriving DecidableEq

namespace Measurement

/-- The JSON form, without times. -/
def toJson : Measurement → Json
  | evaluation allowed principal action failed =>
    .obj [("evaluation", .obj
      [("allowed", .bool allowed), ("principal", .str principal), ("action", .str action),
       ("errored", .int failed)])]
  | phases allowed => .obj [("phases", .bool allowed)]
  | reload policies entities hasSchema =>
    .obj [("reload", .obj
      [("policies", .int policies), ("entities", .int entities), ("schema", .bool hasSchema)])]

/-- The part of a decision's time, in milliseconds, that no phase covers. -/
def overhead (validation authorization total : Float) : Float :=
  total - (validation + authorization)

end Measurement

/-! ### Results with a journal -/

/-- What an operation has noted. -/
structure Journal where
  /-- The entries of the log. -/
  notices : List Notice
  /-- The entries of the metrics. -/
  measurements : List Measurement
deriving DecidableEq

namespace Journal

/-- The journal without entries. -/
def empty : Journal :=
  ⟨[], []⟩

/-- The entries of two journals. -/
def append (a b : Journal) : Journal :=
  ⟨a.notices ++ b.notices, a.measurements ++ b.measurements⟩

end Journal

/-- A result with the journal of what led to it. -/
structure Logged (α : Type) where
  /-- What was noted. -/
  journal : Journal
  /-- What came out. -/
  result : Except Error α

namespace Logged

variable {α β : Type}

/-- A result without entries. -/
def ofResult (r : Except Error α) : Logged α :=
  ⟨.empty, r⟩

/-- Go on with a result, unless it is a failure. -/
def andThen (x : Logged α) (f : α → Logged β) : Logged β :=
  match x.result with
  | .error e => ⟨x.journal, .error e⟩
  | .ok a => ⟨x.journal.append (f a).journal, (f a).result⟩

instance : Monad Logged where
  pure a := ofResult (.ok a)
  bind := andThen

instance : MonadLift (Except Error) Logged := ⟨ofResult⟩

/-- Note entries of the log. -/
def note (ns : List Notice) : Logged Unit :=
  ⟨⟨ns, []⟩, .ok ()⟩

/-- Note entries of the metrics. -/
def measure (ms : List Measurement) : Logged Unit :=
  ⟨⟨[], ms⟩, .ok ()⟩

@[simp] theorem result_pure (a : α) : (pure a : Logged α).result = .ok a := rfl

@[simp] theorem result_ofResult (r : Except Error α) : (ofResult r).result = r := rfl

@[simp] theorem result_note (ns : List Notice) : (note ns).result = .ok () := rfl

@[simp] theorem result_measure (ms : List Measurement) : (measure ms).result = .ok () := rfl

/-- The result of a sequence does not depend on what was noted on the way. -/
@[simp] theorem result_bind (x : Logged α) (f : α → Logged β) :
    (x >>= f).result = x.result.bind fun a => (f a).result := by
  change (x.andThen f).result = _
  unfold andThen
  cases x.result <;> rfl

/-- Run an operation on each item in order, up to the first failure. -/
def each (f : α → Logged β) : List α → Logged (List β)
  | [] => pure []
  | a :: as => do
    let b ← f a
    let bs ← each f as
    pure (b :: bs)

/-- A sequence with a journal succeeds exactly if both of its parts do. -/
theorem result_bind_eq_ok {x : Logged α} {f : α → Logged β} {b : β} :
    (x >>= f).result = .ok b ↔ ∃ a, x.result = .ok a ∧ (f a).result = .ok b := by
  rw [result_bind]
  cases x.result with
  | error e => exact ⟨nofun, nofun⟩
  | ok a => exact ⟨fun h => ⟨a, rfl, h⟩, fun ⟨_, ha, h⟩ => Except.ok.inj ha ▸ h⟩

/-- The result of an operation on each item: the items are gone through up to the first failure. -/
theorem result_each (f : α → Logged β) (as : List α) :
    (each f as).result = as.mapM fun a => (f a).result := by
  induction as with
  | nil => rfl
  | cons a as ih =>
      rw [each, result_bind, List.mapM_cons, ← ih]
      simp only [result_bind]
      rfl

end Logged

/-- Install a metrics sink. Only the first one counts. -/
def installSink (installed : Bool) : Logged Unit :=
  if installed then .note [.sinkIgnored] else pure ()

end AccessPolicy
