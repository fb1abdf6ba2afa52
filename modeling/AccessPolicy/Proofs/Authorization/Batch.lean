import AccessPolicy.Authorization.Authorizer
import AccessPolicy.Journal
import AccessPolicy.Proofs.Except

/-!
# In a batch and one by one

A batch checks the entities once, then all of its requests, and decides them after that; a single
authorization checks its request and decides it at once.

* **Entities are refused** (`Authorizer.exists_checkEntities_error_iff`) exactly if there is a
  schema, the options ask for their check and a record violates the schema.
* **The order makes no difference** (`BatchAuthorizer.result_authorize`): a check changes nothing
  for the decisions, and a decision never fails. A batch comes to what single authorizations come
  to, up to the first one that is refused.
* Where an authorizer is made for the occasion (`PolicySet.result_authorizeBatch_of_ne_nil`), the
  entities are checked with each single request, so that a batch without requests alone looks at
  them.
* `BatchAuthorizer.refines_authorize` puts the three together.
-/

namespace AccessPolicy

open Logged

/-! ### Checks of entities -/

namespace Schema

variable {s : Schema}

theorem checkRecords_eq_ok_iff {es : List Entity} :
    s.checkRecords es = .ok () ↔ ∀ e ∈ es, s.checkEntity e = .ok () := by
  induction es with
  | nil => exact iff_of_true rfl nofun
  | cons e es ih =>
      rw [checkRecords, List.forall_mem_cons, ← ih]
      cases s.checkEntity e <;> simp

/-- A store is refused exactly if one of its records is. -/
theorem exists_checkEntities_error_iff {es : Entities} : (∃ err, s.checkEntities es = .error err) ↔
    ∃ e ∈ es.records, ∃ err, s.checkEntity e = .error err := by
  have hunit : ∀ {x : Except Error Unit}, (∃ u, x = .ok u) ↔ x = .ok () :=
    ⟨fun ⟨_, h⟩ => h, fun h => ⟨(), h⟩⟩
  simp only [exists_error_iff, hunit, checkEntities, checkRecords_eq_ok_iff, not_forall, exists_prop]

end Schema

namespace Authorizer

variable {a : Authorizer} {r : Request} {es : Entities}

/-- Entities are refused exactly if there is a schema, the options ask for the check and a record
violates the schema. -/
theorem exists_checkEntities_error_iff : (∃ err, a.checkEntities es = .error err) ↔
    ∃ s, a.schema = some s ∧ a.options.checksEntities = true ∧
      ∃ e ∈ es.records, ∃ err, s.checkEntity e = .error err := by
  unfold checkEntities
  cases a.schema with
  | none => simp
  | some s =>
      cases a.options.checksEntities with
      | false => simp
      | true => simp [Schema.exists_checkEntities_error_iff]

/-- A single authorization checks the request and decides it. -/
theorem result_authorize : (a.authorize r es).result =
    (a.checkRequest r).result >>= fun _ => pure (a.decide r es) := by
  rw [authorize, result_bind]
  rfl

end Authorizer

/-! ### Batches -/

namespace BatchAuthorizer

variable {a : Authorizer} {es : Entities} {b : BatchAuthorizer}

/-- A batch authorizer is made of an authorizer and entities; that they have passed the check is
part of it. -/
theorem ofEntities_eq_ok_iff : ofEntities a es = .ok b ↔ b.authorizer = a ∧ b.entities = es := by
  unfold ofEntities
  constructor
  · intro h
    split at h
    · cases h
    · cases h
      exact ⟨rfl, rfl⟩
  · rintro ⟨rfl, rfl⟩
    split
    · rename_i e he
      exact absurd (he.symm.trans b.checked) nofun
    · rfl

/-- Making a batch authorizer is checking the entities. -/
theorem ofEntities_eq_error_iff {err : Error} :
    ofEntities a es = .error err ↔ a.checkEntities es = .error err := by
  unfold ofEntities
  split
  · rename_i e he
    simp [he]
  · rename_i hok
    simp [hok]

/-- **A batch comes to what single authorizations come to**, up to the first one that fails. -/
theorem result_authorize (b : BatchAuthorizer) (rs : List Request) :
    (b.authorize rs).result = rs.mapM fun r => (b.authorizer.authorize r b.entities).result := by
  have hrespond : (each (b.authorizer.respond · b.entities) rs).result =
      pure (rs.map (b.authorizer.decide · b.entities)) := by
    rw [result_each]
    exact List.mapM_pure
  calc (b.authorize rs).result
    _ = (each b.authorizer.checkRequest rs).result >>= fun _ =>
          pure (rs.map (b.authorizer.decide · b.entities)) := by
        rw [authorize, result_bind, hrespond]
        rfl
    _ = rs.mapM fun r => (b.authorizer.checkRequest r).result >>= fun _ =>
          pure (b.authorizer.decide r b.entities) := by
        rw [result_each, mapM_check_then_map]
    _ = rs.mapM fun r => (b.authorizer.authorize r b.entities).result := by
        simp only [Authorizer.result_authorize]

/-- A batch checks the entities, once, and authorizes one request after the other. -/
theorem result_authorizeBatch (a : Authorizer) (rs : List Request) (es : Entities) :
    (a.authorizeBatch rs es).result =
      a.checkEntities es >>= fun _ => rs.mapM fun r => (a.authorize r es).result := by
  have hbatch :
      (a.authorizeBatch rs es).result = ofEntities a es >>= fun b => (b.authorize rs).result := by
    rw [Authorizer.authorizeBatch, result_bind]
    rfl
  cases hchecked : a.checkEntities es with
  | error e =>
      rw [hbatch, ofEntities_eq_error_iff.mpr hchecked]
      rfl
  | ok u =>
      rw [hbatch, ofEntities_eq_ok_iff (b := ⟨a, es, hchecked⟩) |>.mpr ⟨rfl, rfl⟩]
      exact result_authorize _ rs

end BatchAuthorizer

/-! ### At once -/

namespace PolicySet

/-- An authorizer of a set whose check the entities pass. -/
def authorizerFor (s : PolicySet) (es : Entities) (schema : Option Schema) :
    Except Error Authorizer := do
  let a ← Authorizer.unchecked s schema
  a.checkEntities es
  pure a

variable (s : PolicySet) (es : Entities) (schema : Option Schema)

/-- Authorizing at once makes an authorizer that the entities pass, and authorizes by it. -/
theorem result_authorize (r : Request) : (s.authorize r es schema).result =
    s.authorizerFor es schema >>= fun a => (a.authorize r es).result := by
  rw [authorize, authorizerFor, result_bind]
  cases Authorizer.unchecked s schema with
  | error e => rfl
  | ok a =>
      rw [ok_bind]
      change (ofResult (a.checkEntities es) >>= fun _ => a.authorize r es).result = _
      rw [result_bind, result_ofResult]
      cases a.checkEntities es <;> rfl

/-- So does authorizing a batch at once. -/
theorem result_authorizeBatch (rs : List Request) : (s.authorizeBatch rs es schema).result =
    s.authorizerFor es schema >>= fun a => rs.mapM fun r => (a.authorize r es).result := by
  rw [authorizeBatch, authorizerFor, result_bind]
  cases Authorizer.unchecked s schema with
  | error e => rfl
  | ok a =>
      rw [ok_bind]
      change (a.authorizeBatch rs es).result = _
      rw [BatchAuthorizer.result_authorizeBatch]
      cases a.checkEntities es <;> rfl

/-- **Authorizing a batch at once comes to what authorizing at once comes to** on each request in
turn, where there are requests: the authorizer, and the check of the entities, are the same for all
of them. -/
theorem result_authorizeBatch_of_ne_nil {rs : List Request} (hne : rs ≠ []) :
    (s.authorizeBatch rs es schema).result = rs.mapM fun r => (s.authorize r es schema).result := by
  rw [result_authorizeBatch, mapM_of_start _ _ hne]
  simp only [result_authorize]

end PolicySet

/-- **A batch refines single authorizations.** Whatever the authorizer, its schema and its options
are:

* a batch authorizer is refused exactly if there is a schema, the options ask for the check of the
  entities and a record violates the schema;
* the requests of a batch come to what they come to one after the other, up to the first failure;
* so do those of a batch that is authorized at once, if there are requests. -/
theorem BatchAuthorizer.refines_authorize :
    (∀ (a : Authorizer) (es : Entities),
      ((∃ err, ofEntities a es = .error err) ↔ ∃ s, a.schema = some s ∧
        a.options.checksEntities = true ∧ ∃ e ∈ es.records, ∃ err, s.checkEntity e = .error err) ∧
      ∀ b, ofEntities a es = .ok b → ∀ rs,
        (b.authorize rs).result = rs.mapM fun r => (a.authorize r es).result) ∧
    ∀ (s : PolicySet) (rs : List Request) (es : Entities) (schema : Option Schema), rs ≠ [] →
      (s.authorizeBatch rs es schema).result = rs.mapM fun r => (s.authorize r es schema).result := by
  refine ⟨fun a es => ⟨?refused, fun b hb rs => ?authorized⟩, fun s rs es schema hne => ?atOnce⟩
  case refused =>
    simp only [ofEntities_eq_error_iff]
    exact Authorizer.exists_checkEntities_error_iff
  case authorized =>
    obtain ⟨rfl, rfl⟩ := ofEntities_eq_ok_iff.mp hb
    exact b.result_authorize rs
  case atOnce => exact s.result_authorizeBatch_of_ne_nil es schema hne

/-- A schema in which users view photos and a policy that permits everything: two requests that fit
come to two responses, a request the wrong way round is what a batch fails on, and an entity of a
type that is not declared is refused before any request is. -/
theorem BatchAuthorizer.refines_authorize_viewing :
    let set : PolicySet := ⟨[⟨"p", .permit, .any, .any, .any, [], []⟩], [], []⟩
    let viewing : Schema := ⟨[("Photo", ⟨[], []⟩), ("User", ⟨[], []⟩)],
      [(⟨"Action", "view"⟩, ⟨[], ["User"], ["Photo"], []⟩)]⟩
    let a : Authorizer := ⟨set, set.policies, some viewing, .standard⟩
    let users : Entities := ⟨[.ofUid ⟨"User", "ann"⟩]⟩
    let fits : Request := .ofUids ⟨"User", "ann"⟩ ⟨"Action", "view"⟩ ⟨"Photo", "sea"⟩
    let reversed : Request := .ofUids ⟨"Photo", "sea"⟩ ⟨"Action", "view"⟩ ⟨"User", "ann"⟩
    let allowed : Response := ⟨.allow, none, ["p"], [], []⟩
    (∃ err, ofEntities a ⟨[.ofUid ⟨"Robot", "r2"⟩]⟩ = .error err) ∧
    (∃ b, ofEntities a users = .ok b ∧ (b.authorize [fits, fits]).result = .ok [allowed, allowed] ∧
      ∃ err, (a.authorize reversed users).result = .error err ∧
        (b.authorize [fits, reversed, fits]).result = .error err) ∧
    [fits] ≠ [] ∧ (set.authorizeBatch [fits] users (some viewing)).result = .ok [allowed] := by
  intro set viewing a users fits reversed allowed
  obtain ⟨hsingle, hatOnce⟩ := refines_authorize
  have hb : ofEntities a users = .ok ⟨a, users, rfl⟩ := rfl
  refine ⟨(hsingle a ⟨[.ofUid ⟨"Robot", "r2"⟩]⟩).1.mpr ?refused, ?single, by simp, ?atOnce⟩
  case refused => exact ⟨viewing, rfl, rfl, _, List.mem_singleton_self _, _, rfl⟩
  case single =>
    exact ⟨_, hb, (hsingle a users).2 _ hb [fits, fits], _, rfl,
      (hsingle a users).2 _ hb [fits, reversed, fits]⟩
  case atOnce => exact hatOnce set [fits] users (some viewing) (by simp)

end AccessPolicy
