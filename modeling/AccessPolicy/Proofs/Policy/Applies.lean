import AccessPolicy.Policy.Applies
import AccessPolicy.Proofs.Except

/-!
# When a policy applies

A policy applies exactly if its three scopes admit their parts of the request and all its clauses
hold (`Policy.applies_eq_true_iff`). The order in which they are looked at matters only for what is
said of a policy that does not apply.
-/

namespace AccessPolicy

variable {env : Env} {limit : Nat}

/-- A sequence of two tests comes out true exactly if both do. -/
theorem bind_ite_eq_true_iff {x y : Except EvalError Bool} :
    (x >>= fun b => if b then y else pure false) = .ok true ↔ x = .ok true ∧ y = .ok true := by
  rw [bind_eq_ok]
  constructor
  · rintro ⟨b, hb, h⟩
    cases b with
    | true => exact ⟨hb, h⟩
    | false => cases h
  · rintro ⟨hx, hy⟩
    exact ⟨true, hx, hy⟩

/-- All clauses hold exactly if each of them does. -/
theorem Clause.allHold_eq_true_iff {cs : List Clause} :
    Clause.allHold env limit cs = .ok true ↔ ∀ c ∈ cs, c.holds env limit = .ok true := by
  induction cs with
  | nil => exact iff_of_true rfl (List.forall_mem_nil _)
  | cons c cs ih =>
      rw [List.forall_mem_cons, ← ih]
      exact bind_ite_eq_true_iff

namespace Policy

variable {p : Policy}

/-- The scopes admit a request exactly if each of them admits its part. -/
theorem inScope_eq_true_iff : p.inScope env = .ok true ↔
    (∃ m, p.principal.admits env.entities env.request.principal = .ok (some m)) ∧
      (∃ m, p.action.admits env.entities env.request.action = .ok (some m)) ∧
      ∃ m, p.resource.admits env.entities env.request.resource = .ok (some m) := by
  have hsome : ∀ {x : Except EvalError (Option ScopeMatch)},
      x.map Option.isSome = .ok true ↔ ∃ m, x = .ok (some m) := by
    intro x
    rw [map_eq_ok]
    constructor
    · rintro ⟨o, rfl, ho⟩
      obtain ⟨m, rfl⟩ := Option.isSome_iff_exists.mp ho
      exact ⟨m, rfl⟩
    · rintro ⟨m, rfl⟩
      exact ⟨some m, rfl, rfl⟩
  rw [← hsome, ← hsome, ← hsome, ← bind_ite_eq_true_iff, ← bind_ite_eq_true_iff]
  unfold inScope
  cases p.principal.admits env.entities env.request.principal with
  | error e => rfl
  | ok o₁ =>
      cases p.action.admits env.entities env.request.action with
      | error e => rfl
      | ok o₂ => cases p.resource.admits env.entities env.request.resource <;> rfl

/-- **A policy applies** exactly if its scopes admit the request and each clause holds. -/
theorem applies_eq_true_iff : p.applies env limit = .ok true ↔
    p.inScope env = .ok true ∧ ∀ c ∈ p.conditions, c.holds env limit = .ok true := by
  rw [← Clause.allHold_eq_true_iff]
  exact bind_ite_eq_true_iff

end Policy

end AccessPolicy
