import AccessPolicy.Authorization.Response
import AccessPolicy.Policy.Basic

/-!
# Counting outcomes

A tally takes the outcomes of policies one by one: whether a policy applies, or why that cannot be
known. `Tally.response` decides: a forbid overrides every permit, and without a permit the answer is
no.
-/

namespace AccessPolicy

/-- The outcomes of some policies. -/
structure Tally where
  /-- The permits that apply, ascending. -/
  permits : List String
  /-- The forbids that apply, ascending. -/
  forbids : List String
  /-- The policies that failed, ascending, each with its error. -/
  failures : List (String × EvalError)
deriving DecidableEq

namespace Tally

/-- The tally of no policies. -/
def empty : Tally :=
  ⟨[], [], []⟩

/-- Record the outcome of a policy. -/
def record (t : Tally) (p : Policy) : Except EvalError Bool → Tally
  | .error e => { t with failures := Ascending.put p.id e t.failures }
  | .ok false => t
  | .ok true =>
    match p.effect with
    | .permit => { t with permits := Ascending.insert p.id t.permits }
    | .forbid => { t with forbids := Ascending.insert p.id t.forbids }

/-- The tally of policies with their outcomes. -/
def ofOutcomes (outcomes : List (Policy × Except EvalError Bool)) : Tally :=
  outcomes.foldl (fun t o => t.record o.1 o.2) empty

/-- The decision and the policies that brought it about. -/
def verdict (t : Tally) : Decision × List String :=
  if !t.forbids.isEmpty then (.deny, t.forbids)
  else if !t.permits.isEmpty then (.allow, t.permits)
  else (.deny, [])

/-- The response of a tally to a request with the given token. -/
def response (t : Tally) (correlationId : Option String) : Response :=
  ⟨t.verdict.1, correlationId, t.verdict.2, Ascending.keys t.failures, t.failures⟩

end Tally

end AccessPolicy
