import AccessPolicy.Proofs.Engine.Kept
import AccessPolicy.Proofs.Engine.Snapshot

/-!
# One by one and in a batch

A batch checks the entities of its snapshot and then all of its requests; a single evaluation checks
its request only.

* `Snapshot.BatchAgrees s rs` — a batch succeeds exactly if each request does one by one, and then
  with the same responses in the same order.
* **They agree where the entities fit** (`Snapshot.EntitiesFit.agrees`), and nowhere else
  (`Snapshot.batchAgrees_iff`).
* **Engines keep entities that fit** (`Registry.Run.entitiesChecked`) as long as no engine is given
  options that leave out their check: every step checks the entities or leaves all that the check
  looks at.
* `Registry.Run.batchAgrees` puts the two together; `Registry.not_batchAgrees_of_withOptions` is a
  run that leaves out the check, puts anything in and asks for the check again.
-/

namespace AccessPolicy

namespace Snapshot

open Logged

variable {s : Snapshot} {rs : List Request} {responses : List Response}

/-! ### One snapshot -/

/-- A batch succeeds exactly if each of its requests does one by one, with the same responses in the
same order. -/
def BatchAgrees (s : Snapshot) (rs : List Request) : Prop :=
  ∀ responses, (s.evaluateBatch rs).result = .ok responses ↔
    List.Forall₂ (fun r response => (s.evaluate r).result = .ok response) rs responses

/-- What a single evaluation measures changes nothing in its result. -/
theorem result_evaluate (r : Request) :
    (s.evaluate r).result = (s.authorizer.authorize r s.entities).result := by
  rw [evaluate, result_bind]
  cases (s.authorizer.authorize r s.entities).result <;> rfl

/-- **A batch checks the entities** and does what single evaluations do. -/
theorem result_evaluateBatch_eq_ok_iff : (s.evaluateBatch rs).result = .ok responses ↔
    s.EntitiesFit ∧
      List.Forall₂ (fun r response => (s.evaluate r).result = .ok response) rs responses := by
  simp only [result_evaluate]
  rw [evaluateBatch, BatchAuthorizer.result_authorizeBatch, ← mapM_eq_ok]
  constructor
  · intro h
    obtain ⟨u, hentities, h⟩ := bind_eq_ok.mp h
    exact ⟨hentities, h⟩
  · rintro ⟨hentities, h⟩
    exact bind_eq_ok.mpr ⟨(), hentities, h⟩

/-- Where the entities fit, batches agree. -/
theorem EntitiesFit.agrees (h : s.EntitiesFit) (rs : List Request) : s.BatchAgrees rs :=
  fun _ => result_evaluateBatch_eq_ok_iff.trans (and_iff_right h)

/-- Batches agree where the entities fit, and nowhere else. -/
theorem batchAgrees_iff : (∀ rs, s.BatchAgrees rs) ↔ s.EntitiesFit := by
  constructor
  · intro h
    -- without requests, the entities are all that is checked
    exact (result_evaluateBatch_eq_ok_iff.mp ((h [] []).mpr .nil)).1
  · exact fun h => h.agrees

end Snapshot

/-! ### Runs -/

/-- The options ask for the check of entities, and the entities pass it. -/
structure Snapshot.EntitiesChecked (s : Snapshot) : Prop where
  /-- The check is asked for. -/
  asked : s.authorizer.options.checksEntities = true
  /-- The entities pass it. -/
  fit : s.EntitiesFit

namespace EngineAction

variable {s t : Snapshot} {as on : String} {action : EngineAction}

/-- What replaces a snapshot has the options of it, and entities that fit. -/
theorem entitiesChecked_of_replacement? (hs : s.EntitiesChecked)
    (h : action.replacement? s = some (.ok t)) : t.EntitiesChecked := by
  cases action with
  | reload text source now =>
      cases source with
      | none =>
          have ht : (s.withPolicies text now).result = .ok t := Option.some.inj h
          obtain ⟨-, hoptions, -⟩ := Snapshot.keeps_of_withPolicies ht
          exact ⟨hoptions ▸ hs.asked, hs.fit.withPolicies ht⟩
      | some source =>
          have ht : (s.withPoliciesAndSchema text source now).result = .ok t := Option.some.inj h
          obtain ⟨hoptions, -, hfit⟩ := Snapshot.keeps_of_withPoliciesAndSchema ht
          exact ⟨hoptions ▸ hs.asked, hfit⟩
  | reloadEntities es =>
      have ht : s.withEntities es = .ok t := Option.some.inj h
      obtain ⟨ha, -⟩ := Snapshot.keeps_of_withEntities ht
      exact ⟨ha ▸ hs.asked, Snapshot.entitiesFit_of_withEntities ht⟩
  | clone as | withEntities as es | withOptions as options | evaluate r | evaluateBatch rs
  | listing principal | hold as => cases h

/-- An engine that is made from another one has entities that fit, if its options ask for their
check. -/
theorem Does.entitiesChecked (h : Does on s action (.derived as on t)) (hs : s.EntitiesChecked)
    (hasked : t.authorizer.options.checksEntities = true) : t.EntitiesChecked := by
  cases h with
  | withEntities ht => exact ⟨hasked, Snapshot.entitiesFit_of_withEntities ht⟩
  | withOptions => exact ⟨hasked, hs.fit.withOptions (hasked.trans hs.asked.symm)⟩

end EngineAction

namespace Registry

variable {reg reg' : Registry} {events : List EngineEvent} {step : EngineStep}
  {answer : Logged EngineAnswer} {event : EngineEvent} {name : String} {s t : Snapshot}

/-- **A run** in which the check of entities is never left out keeps entities that fit. -/
theorem Run.entitiesChecked (hrun : Run events reg)
    (hasked : ∀ as on t, .derived as on t ∈ events → t.authorizer.options.checksEntities = true) :
    ∀ t ∈ reg.cells, t.EntitiesChecked := by
  refine hrun.forall_cells (fun hload => ?_) (fun hevent hdoes hs => ?_) fun hbuilt hs => ?_
  · have hoptions := (Snapshot.made_of_load hload).1
    exact ⟨congrArg AuthorizerOptions.checksEntities hoptions, Snapshot.entitiesFit_of_load hload⟩
  · exact hdoes.entitiesChecked hs (hasked _ _ _ hevent)
  · exact EngineAction.entitiesChecked_of_replacement? hs hbuilt

/-- **Engines agree with themselves**: on a list of requests, a batch and single evaluations come to
the same exactly as long as the entities of the engine fit; and they do in every run in which no
engine is given options that leave out their check. -/
theorem Run.batchAgrees (hrun : Run events reg) (hs : reg.current? name = some s) :
    ((∀ rs, s.BatchAgrees rs) ↔ s.EntitiesFit) ∧
      ((∀ as on t, .derived as on t ∈ events → t.authorizer.options.checksEntities = true) →
        ∀ rs, s.BatchAgrees rs) := by
  refine ⟨Snapshot.batchAgrees_iff, fun hasked => ?_⟩
  exact (hrun.entitiesChecked hasked s (mem_cells_of_current? hs)).fit.agrees

/-- An engine with a schema that is given an entity of a declared type agrees with itself. -/
theorem batchAgrees_of_declared : ∃ (events : List EngineEvent) (reg : Registry) (s : Snapshot),
    Run events reg ∧ reg.current? "b" = some s ∧ s.entities.size = 1 ∧ ∀ rs, s.BatchAgrees rs := by
  have hbuilt := Run.start.step
    (show Registry.empty.step? (.create "a" "" (some (.given viewing)) "now") = some _ from rfl)
  have hderived := hbuilt.step
    (show step? _ (.act "a" (.withEntities "b" ⟨[.ofUid ⟨"User", "alice"⟩]⟩)) = some _ from rfl)
  refine ⟨_, _, _, hderived, rfl, rfl,
    (Run.batchAgrees hderived (show current? _ "b" = some _ from rfl)).2 ?_⟩
  intro as on t ht
  rcases List.mem_cons.mp ht with heq | ht
  · obtain ⟨-, -, rfl⟩ := EngineEvent.derived.inj heq
    rfl
  · cases List.mem_singleton.mp ht

/-- A change of options can lose entities that fit: where their check is left out, anything can be
put in, and nothing looks at it when the check is switched on again. A batch then fails on a request
that is decided by itself. -/
theorem not_batchAgrees_of_withOptions :
    ∃ (events : List EngineEvent) (reg : Registry) (s : Snapshot) (r : Request),
      Run events reg ∧ reg.current? "d" = some s ∧ ¬ s.BatchAgrees [r] := by
  have hbuilt := Run.start.step
    (show Registry.empty.step? (.create "a" "" (some (.given viewing)) "now") = some _ from rfl)
  have hloose := hbuilt.step
    (show step? _ (.act "a" (.withOptions "b" ⟨.strict, 8, false⟩)) = some _ from rfl)
  have hentities := hloose.step
    (show step? _ (.act "b" (.withEntities "c" ⟨[.ofUid ⟨"Robot", "r2"⟩]⟩)) = some _ from rfl)
  have hstrict := hentities.step
    (show step? _ (.act "c" (.withOptions "d" ⟨.strict, 8, true⟩)) = some _ from rfl)
  refine ⟨_, _, _, ⟨⟨"User", "alice"⟩, ⟨"Action", "view"⟩, ⟨"Photo", "beach"⟩, [], none⟩,
    hstrict, rfl, fun h => ?_⟩
  have hbatch := (h [_]).mpr (.cons rfl .nil)
  cases hbatch

end Registry

end AccessPolicy
