import AccessPolicy.Proofs.Authorization.Batch

/-!
# What authorizers are made of

* `Authorizer.Made set schema a` — the authorizer `a` holds the policies, what they stand for, the
  schema and the standard options. **Every way to build an authorizer** makes it so
  (`Authorizer.made_of_unchecked`, `Authorizer.made_of_checked`, `Authorizer.made_of_ofPolicies`),
  and where policies are checked, they have passed.
* `Authorizer.Serves s a`, `PolicySet.Answers s r` — the authorizers of a set and their responses.
  **Every response is a decision** of an authorizer of the set (`PolicySet.Answers.exists_decide`).
-/

namespace AccessPolicy

namespace Authorizer

variable {policies : PolicySet} {schema : Option Schema} {a : Authorizer}

/-- What an authorizer is made of. -/
structure Made (set : PolicySet) (given : Option Schema) (a : Authorizer) : Prop where
  /-- The policies are held as they were given. -/
  policies : a.policies = set
  /-- The policies of decisions are those that the set stands for. -/
  effective : set.effective = .ok a.effective
  /-- The schema is held. -/
  schema : a.schema = given
  /-- The options are the standard ones. -/
  options : a.options = .standard

/-- An authorizer without a check is made of its policies and its schema. -/
theorem made_of_unchecked (h : unchecked policies schema = .ok a) : a.Made policies schema := by
  obtain ⟨effective, heffective, rfl⟩ := map_eq_ok.mp h
  exact ⟨rfl, heffective, rfl, rfl⟩

/-- An authorizer with a check is made of its policies and its schema, and the policies have
passed. -/
theorem made_of_checked {schema : Schema} (h : (checked policies schema).result = .ok a) :
    a.Made policies (some schema) ∧ (schema.checkPolicies policies).passed := by
  unfold checked at h
  rw [Logged.result_bind, Logged.result_note] at h
  simp only [Except.bind] at h
  split at h
  · rename_i hpassed
    exact ⟨made_of_unchecked h, hpassed⟩
  · cases h

/-- An authorizer is made of the policies and the schema, which they have passed. -/
theorem made_of_ofPolicies (h : (ofPolicies policies schema).result = .ok a) :
    a.Made policies schema ∧ ∀ s, schema = some s → (s.checkPolicies policies).passed := by
  cases schema with
  | none => exact ⟨made_of_unchecked h, nofun⟩
  | some s =>
      obtain ⟨hmade, hpassed⟩ := made_of_checked h
      refine ⟨hmade, fun t ht => ?_⟩
      cases ht
      exact hpassed

/-- The authorizers of a set, however they are built and whatever their options are. -/
inductive Serves (s : PolicySet) : Authorizer → Prop
  | unchecked {schema : Option Schema} {a : Authorizer} (h : unchecked s schema = .ok a) :
      Serves s a
  | ofPolicies {schema : Option Schema} {a : Authorizer}
      (h : (ofPolicies s schema).result = .ok a) : Serves s a
  | withOptions {a : Authorizer} {options : AuthorizerOptions} (ha : Serves s a) :
      Serves s (a.withOptions options)

/-- An authorizer of a set decides by the policies that the set stands for. -/
theorem Serves.effective {s : PolicySet} (h : a.Serves s) : s.effective = .ok a.effective := by
  induction h with
  | unchecked h => exact (made_of_unchecked h).effective
  | ofPolicies h => exact (made_of_ofPolicies h).1.effective
  | withOptions _ ih => exact ih

end Authorizer

/-! ### Responses -/

namespace PolicySet

open Logged

variable {s : PolicySet} {response : Response}

/-- The responses that are computed from a set, by an authorizer or at once. -/
inductive Answers (s : PolicySet) : Response → Prop
  | single {a : Authorizer} {r : Request} {es : Entities} {response : Response} (ha : a.Serves s)
      (h : (a.authorize r es).result = .ok response) : Answers s response
  | batch {a : Authorizer} {rs : List Request} {es : Entities} {responses : List Response}
      {response : Response} (ha : a.Serves s) (h : (a.authorizeBatch rs es).result = .ok responses)
      (hmem : response ∈ responses) : Answers s response
  | singleAtOnce {r : Request} {es : Entities} {schema : Option Schema} {response : Response}
      (h : (s.authorize r es schema).result = .ok response) : Answers s response
  | batchAtOnce {rs : List Request} {es : Entities} {schema : Option Schema}
      {responses : List Response} {response : Response}
      (h : (s.authorizeBatch rs es schema).result = .ok responses) (hmem : response ∈ responses) :
      Answers s response

/-- What an authorization responds is the decision. -/
theorem eq_decide_of_authorize {a : Authorizer} {r : Request} {es : Entities}
    (h : (a.authorize r es).result = .ok response) : response = a.decide r es := by
  obtain ⟨_, -, h⟩ := result_bind_eq_ok.mp h
  exact (Except.ok.inj h).symm

/-- Each response of a batch is a decision. -/
theorem exists_decide_of_authorizeBatch {a : Authorizer} {rs : List Request} {es : Entities}
    {responses : List Response} (h : (a.authorizeBatch rs es).result = .ok responses)
    (hmem : response ∈ responses) : ∃ r, response = a.decide r es := by
  rw [BatchAuthorizer.result_authorizeBatch] at h
  obtain ⟨_, -, h⟩ := bind_eq_ok.mp h
  obtain ⟨r, -, hr⟩ := exists_of_mem_mapM h hmem
  exact ⟨r, eq_decide_of_authorize hr⟩

/-- **Every response is a decision** of an authorizer of the set. -/
theorem Answers.exists_decide (h : s.Answers response) :
    ∃ a : Authorizer, a.Serves s ∧ ∃ r es, response = a.decide r es := by
  cases h with
  | single ha h => exact ⟨_, ha, _, _, eq_decide_of_authorize h⟩
  | batch ha h hmem =>
      obtain ⟨r, hr⟩ := exists_decide_of_authorizeBatch h hmem
      exact ⟨_, ha, r, _, hr⟩
  | singleAtOnce h =>
      obtain ⟨a, ha, h⟩ := result_bind_eq_ok.mp h
      obtain ⟨_, -, h⟩ := result_bind_eq_ok.mp h
      exact ⟨a, .unchecked ha, _, _, eq_decide_of_authorize h⟩
  | batchAtOnce h hmem =>
      obtain ⟨a, ha, h⟩ := result_bind_eq_ok.mp h
      obtain ⟨r, hr⟩ := exists_decide_of_authorizeBatch h hmem
      exact ⟨a, .unchecked ha, r, _, hr⟩

end PolicySet

end AccessPolicy
