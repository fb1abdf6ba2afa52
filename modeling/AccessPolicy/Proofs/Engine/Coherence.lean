import AccessPolicy.Proofs.Engine.Kept
import AccessPolicy.Proofs.Engine.Snapshot

/-!
# Coherent snapshots

A snapshot stores its policies, what they stand for, the schema and the version side by side.

* `Snapshot.Coherent s text` — all of these belong to one policy text.
* **Every way to build a snapshot makes a coherent one** (`Snapshot.coherent_of_load`,
  `Snapshot.coherent_of_withPolicies`, `Snapshot.coherent_of_withPoliciesAndSchema`) or keeps what
  coherence looks at (`Snapshot.Coherent.of_eq`).
* **Engines show coherent snapshots** (`Registry.Run.coherent`) after every run.
-/

namespace AccessPolicy

namespace Snapshot

open Logged

variable {s t : Snapshot} {text now : String}

/-- The version, the policies, what they stand for and the schema belong to one policy text. -/
structure Coherent (s : Snapshot) (text : String) : Prop where
  /-- The version has the digest of the text. -/
  hash : s.version.hash = Sha256.hex text
  /-- The policies are those of the text. -/
  policies : PolicySet.parse text = .ok s.authorizer.policies
  /-- Decisions are made by what the policies stand for. -/
  effective : s.authorizer.policies.effective = .ok s.authorizer.effective
  /-- The policies pass the check against the schema, if there is one. -/
  passed : ∀ schema, s.authorizer.schema = some schema →
    (schema.checkPolicies s.authorizer.policies).passed

/-- A snapshot with the version of a text and with an authorizer that was made of its policies is
coherent, whatever the options are. -/
theorem coherent_of_made {set : PolicySet} {given : Option Schema} {a : Authorizer}
    (hparse : PolicySet.parse text = .ok set) (ha : a.Made set given)
    (hpassed : ∀ schema, given = some schema → (schema.checkPolicies set).passed)
    (options : AuthorizerOptions) (es : Entities) :
    Coherent ⟨a.withOptions options, es, .ofText text now⟩ text where
  hash := rfl
  policies := hparse.trans (congrArg _ ha.policies.symm)
  effective := (congrArg _ ha.policies).trans ha.effective
  passed schema hschema := by
    have hset : (a.withOptions options).policies = set := ha.policies
    rw [hset]
    exact hpassed schema (ha.schema.symm.trans hschema)

/-- A snapshot that is loaded belongs to its text. -/
theorem coherent_of_load {source : Option SchemaSource}
    (h : (load text source now).result = .ok s) : s.Coherent text := by
  unfold load at h
  obtain ⟨schema, -, h⟩ := result_bind_eq_ok.mp h
  obtain ⟨policies, hparse, h⟩ := result_bind_eq_ok.mp h
  obtain ⟨a, ha, h⟩ := result_bind_eq_ok.mp h
  cases h
  obtain ⟨hmade, hpassed⟩ := Authorizer.made_of_ofPolicies ha
  exact coherent_of_made hparse hmade hpassed a.options .empty

/-- New policies pass the check against the schema that is kept. -/
theorem coherent_of_withPolicies (h : (s.withPolicies text now).result = .ok t) :
    t.Coherent text := by
  unfold withPolicies at h
  obtain ⟨policies, hparse, h⟩ := result_bind_eq_ok.mp h
  obtain ⟨a, ha, h⟩ := result_bind_eq_ok.mp h
  cases h
  obtain ⟨hmade, hpassed⟩ := Authorizer.made_of_ofPolicies ha
  exact coherent_of_made hparse hmade hpassed s.authorizer.options s.entities

/-- New policies pass the check against the schema that comes with them. -/
theorem coherent_of_withPoliciesAndSchema {source : SchemaSource}
    (h : (s.withPoliciesAndSchema text source now).result = .ok t) : t.Coherent text := by
  unfold withPoliciesAndSchema at h
  obtain ⟨schema, -, h⟩ := result_bind_eq_ok.mp h
  obtain ⟨policies, hparse, h⟩ := result_bind_eq_ok.mp h
  obtain ⟨a, ha, h⟩ := result_bind_eq_ok.mp h
  obtain ⟨_, -, h⟩ := result_bind_eq_ok.mp h
  cases h
  obtain ⟨hmade, hpassed⟩ := Authorizer.made_of_checked ha
  refine coherent_of_made hparse hmade (fun given hgiven => ?_) s.authorizer.options s.entities
  cases hgiven
  exact hpassed

/-- Coherence looks neither at the entities nor at the options. -/
theorem Coherent.of_eq (hs : s.Coherent text)
    (hpolicies : t.authorizer.policies = s.authorizer.policies)
    (heffective : t.authorizer.effective = s.authorizer.effective)
    (hschema : t.authorizer.schema = s.authorizer.schema) (hversion : t.version = s.version) :
    t.Coherent text where
  hash := hversion ▸ hs.hash
  policies := hpolicies ▸ hs.policies
  effective := by
    rw [hpolicies, heffective]
    exact hs.effective
  passed := by
    rw [hpolicies, hschema]
    exact hs.passed

/-- Replacing the entities keeps a snapshot coherent. -/
theorem Coherent.withEntities {es : Entities} (hs : s.Coherent text)
    (h : s.withEntities es = .ok t) : t.Coherent text := by
  obtain ⟨ha, hversion, -⟩ := keeps_of_withEntities h
  exact hs.of_eq (ha ▸ rfl) (ha ▸ rfl) (ha ▸ rfl) hversion

/-- Replacing the options keeps a snapshot coherent. -/
theorem Coherent.withOptions {options : AuthorizerOptions} (hs : s.Coherent text) :
    (s.withOptions options).Coherent text :=
  hs.of_eq rfl rfl rfl rfl

end Snapshot

namespace EngineAction

variable {s t : Snapshot} {as on : String} {action : EngineAction}

/-- An engine that is made from another one belongs to the same text. -/
theorem Does.coherent_of_derived {text : String} (h : Does on s action (.derived as on t))
    (hs : s.Coherent text) : t.Coherent text := by
  cases h with
  | withEntities ht => exact hs.withEntities ht
  | withOptions => exact hs.withOptions

/-- What replaces a coherent snapshot is coherent: new policies are checked against the schema that
they are stored with. -/
theorem coherent_of_replacement? (hs : ∃ text, s.Coherent text)
    (h : action.replacement? s = some (.ok t)) : ∃ text, t.Coherent text := by
  cases action with
  | reload text source now =>
      cases source with
      | none => exact ⟨text, Snapshot.coherent_of_withPolicies (Option.some.inj h)⟩
      | some source => exact ⟨text, Snapshot.coherent_of_withPoliciesAndSchema (Option.some.inj h)⟩
  | reloadEntities es =>
      obtain ⟨text, hs⟩ := hs
      exact ⟨text, hs.withEntities (Option.some.inj h)⟩
  | clone as | withEntities as es | withOptions as options | evaluate r | evaluateBatch rs
  | listing principal | hold as => cases h

end EngineAction

namespace Registry

variable {reg : Registry} {events : List EngineEvent} {name : String} {s : Snapshot}

/-- **Engines show coherent snapshots.** After every run of steps, those that fail included,
whatever an engine shows has the digest, the policies and what they stand for from one policy text,
and the policies pass the check against its schema, if it has one. -/
theorem Run.coherent (hrun : Run events reg) (hs : reg.current? name = some s) :
    ∃ text, s.Coherent text := by
  have hcells : ∀ t ∈ reg.cells, ∃ text, t.Coherent text :=
    hrun.forall_cells (fun hload => ⟨_, Snapshot.coherent_of_load hload⟩)
      (fun _ hdoes hs => hs.imp fun _ hs => hdoes.coherent_of_derived hs)
      fun hbuilt hs => EngineAction.coherent_of_replacement? hs hbuilt
  exact hcells s (mem_cells_of_current? hs)

/-- An engine is made of a text and cloned, and the clone gets a policy together with a schema: then
the engine shows them as well. -/
theorem coherent_reloadedClone :
    ∃ (events : List EngineEvent) (reg : Registry) (s : Snapshot), Run events reg ∧
      reg.current? "a" = some s ∧ s.authorizer.schema = some viewing ∧ s.policyCount = 1 ∧
      ∃ text, s.Coherent text := by
  let text := "permit(principal,action,resource);"
  let set : PolicySet := ⟨[⟨"policy0", .permit, .any, .any, .any, [], []⟩], [], []⟩
  let a : Authorizer := ⟨set, set.policies, some viewing, .standard⟩
  have hparse : PolicySet.parse text = .ok set := by decide +kernel
  have hpassed : (viewing.checkPolicies set).passed = true := by decide +kernel
  have hchecked : (Authorizer.checked set viewing).result = .ok a := by
    simp only [Authorizer.checked, hpassed]
    rfl
  -- Options and entities are taken over, the schema is given with the new text.
  have hnew : ∀ s : Snapshot, s.authorizer.options = .standard → s.entities = .empty →
      (s.withPoliciesAndSchema text (.given viewing) "later").result =
        .ok ⟨a, .empty, .ofText text "later"⟩ := by
    intro s hoptions hentities
    unfold Snapshot.withPoliciesAndSchema
    rw [hoptions, hentities]
    refine Logged.result_bind_eq_ok.mpr ⟨viewing, rfl, ?_⟩
    refine Logged.result_bind_eq_ok.mpr ⟨set, hparse, ?_⟩
    exact Logged.result_bind_eq_ok.mpr ⟨a, hchecked, rfl⟩
  have hbuilt := Run.start.step
    (show Registry.empty.step? (.create "a" "" none "now") = some _ from rfl)
  have hcloned := hbuilt.step (show step? _ (.act "a" (.clone "b")) = some _ from rfl)
  have hreloaded := hcloned.step
    (show step? _ (.act "b" (.reload text (some (.given viewing)) "later")) = some (_, _) from
      congrArg some (commit_of_ok ((result_reloaded _ _ _).trans (hnew _ rfl rfl))))
  exact ⟨_, _, _, hreloaded, rfl, rfl, rfl,
    Run.coherent hreloaded (show current? _ "a" = some _ from rfl)⟩

end Registry

end AccessPolicy
