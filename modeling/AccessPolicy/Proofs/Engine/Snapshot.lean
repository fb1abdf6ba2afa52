import AccessPolicy.Engine.Snapshot
import AccessPolicy.Proofs.Authorization.Made

/-!
# What a new snapshot keeps

* **New policies** (`Snapshot.keeps_of_withPolicies`) leave the schema, the options and the
  entities.
* **New entities** (`Snapshot.keeps_of_withEntities`) leave the policies, the schema, the options
  and the version.
* `Snapshot.EntitiesFit s` — the entities pass the check that a batch makes. Every way to build a
  snapshot keeps this or establishes it, but for a change of options that asks for the check anew.
-/

namespace AccessPolicy

/-! ### Authorizers -/

namespace Authorizer

/-- The check of entities looks at the schema and at one of the options only. -/
theorem checkEntities_congr {a b : Authorizer} (hschema : a.schema = b.schema)
    (hasked : a.options.checksEntities = b.options.checksEntities) (es : Entities) :
    a.checkEntities es = b.checkEntities es := by
  unfold checkEntities
  rw [hschema, hasked]

/-- Where there are no entities, there is nothing to refuse. -/
theorem checkEntities_empty (a : Authorizer) : a.checkEntities .empty = .ok () := by
  unfold checkEntities
  split
  · rfl
  · split <;> rfl

end Authorizer

/-! ### Snapshots -/

namespace Snapshot

open Logged

variable {s t : Snapshot} {text now : String} {es : Entities}

/-- **New policies** leave the schema, the options and the entities. -/
theorem keeps_of_withPolicies (h : (s.withPolicies text now).result = .ok t) :
    t.authorizer.schema = s.authorizer.schema ∧ t.authorizer.options = s.authorizer.options ∧
      t.entities = s.entities := by
  unfold withPolicies at h
  obtain ⟨policies, -, h⟩ := result_bind_eq_ok.mp h
  obtain ⟨a, ha, h⟩ := result_bind_eq_ok.mp h
  have hschema : a.schema = s.authorizer.schema := (Authorizer.made_of_ofPolicies ha).1.schema
  cases h
  exact ⟨hschema, rfl, rfl⟩

/-- **New entities** leave everything else. -/
theorem keeps_of_withEntities (h : s.withEntities es = .ok t) :
    t.authorizer = s.authorizer ∧ t.version = s.version ∧ t.entities = es := by
  obtain ⟨-, -, rfl⟩ := map_eq_ok.mp h
  exact ⟨rfl, rfl, rfl⟩

/-- With a new schema, the options and the entities stay, and the entities are checked again. -/
theorem keeps_of_withPoliciesAndSchema {source : SchemaSource}
    (h : (s.withPoliciesAndSchema text source now).result = .ok t) :
    t.authorizer.options = s.authorizer.options ∧ t.entities = s.entities ∧
      t.authorizer.checkEntities t.entities = .ok () := by
  unfold withPoliciesAndSchema at h
  obtain ⟨schema, -, h⟩ := result_bind_eq_ok.mp h
  obtain ⟨policies, -, h⟩ := result_bind_eq_ok.mp h
  obtain ⟨a, -, h⟩ := result_bind_eq_ok.mp h
  obtain ⟨u, hcheck, h⟩ := result_bind_eq_ok.mp h
  cases h
  exact ⟨rfl, rfl, hcheck⟩

/-- A snapshot starts with the standard options and without entities. -/
theorem made_of_load {source : Option SchemaSource} (h : (load text source now).result = .ok s) :
    s.authorizer.options = .standard ∧ s.entities = .empty := by
  unfold load at h
  obtain ⟨schema, -, h⟩ := result_bind_eq_ok.mp h
  obtain ⟨policies, -, h⟩ := result_bind_eq_ok.mp h
  obtain ⟨a, ha, h⟩ := result_bind_eq_ok.mp h
  cases h
  exact ⟨(Authorizer.made_of_ofPolicies ha).1.options, rfl⟩

/-! ### Entities that fit -/

/-- The entities pass the check against the schema, where the options ask for it. -/
def EntitiesFit (s : Snapshot) : Prop :=
  s.authorizer.checkEntities s.entities = .ok ()

/-- A snapshot starts without entities. -/
theorem entitiesFit_of_load {source : Option SchemaSource}
    (h : (load text source now).result = .ok s) : s.EntitiesFit := by
  rw [EntitiesFit, (made_of_load h).2]
  exact s.authorizer.checkEntities_empty

/-- New entities are checked. -/
theorem entitiesFit_of_withEntities (h : s.withEntities es = .ok t) : t.EntitiesFit := by
  obtain ⟨u, hcheck, rfl⟩ := map_eq_ok.mp h
  exact hcheck

/-- New policies change nothing that the check looks at. -/
theorem EntitiesFit.withPolicies (hs : s.EntitiesFit)
    (h : (s.withPolicies text now).result = .ok t) : t.EntitiesFit := by
  obtain ⟨hschema, hoptions, hentities⟩ := keeps_of_withPolicies h
  unfold EntitiesFit
  rw [Authorizer.checkEntities_congr hschema (congrArg _ hoptions), hentities]
  exact hs

/-- Options that ask for the check as before change nothing that it looks at. -/
theorem EntitiesFit.withOptions {options : AuthorizerOptions} (hs : s.EntitiesFit)
    (hasked : options.checksEntities = s.authorizer.options.checksEntities) :
    (s.withOptions options).EntitiesFit := by
  have hschema : (s.withOptions options).authorizer.schema = s.authorizer.schema := rfl
  exact (Authorizer.checkEntities_congr hschema hasked s.entities).trans hs

end Snapshot

end AccessPolicy
