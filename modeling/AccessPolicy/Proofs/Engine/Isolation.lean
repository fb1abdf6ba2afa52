import AccessPolicy.Proofs.Engine.Cells

/-!
# Engines are isolated and reloads are atomic

What a further step does to the engines and to the held snapshots of a registry after any run.

* `Registry.Leaves events reg y z` — steps on an engine with the handle `y` leave what engines with
  the handle `z` show.
* `Registry.Isolated events reg` — a step that fails changes nothing, a reload changes exactly what
  is connected by clone, derived engines and held snapshots keep apart from what they came from, and
  every engine shows what was installed last.
* **After every run, engines are isolated** (`Registry.Run.isolated`).
-/

namespace AccessPolicy

namespace EngineEvent

/-- The snapshot that was kept last under a name. -/
def heldAs : List EngineEvent → String → Option Snapshot
  | [], _ => none
  | .held as s :: es, name => if name = as then some s else heldAs es name
  | _ :: es, name => heldAs es name

end EngineEvent

namespace Registry

open EngineEvent

/-! ### What isolation means -/

/-- Steps on an engine with the first handle leave what the engines with the second one show. -/
def Leaves (events : List EngineEvent) (reg : Registry) (y z : Nat) : Prop :=
  ∀ {on name : String} {action : EngineAction} {reg' : Registry} {answer : Logged EngineAnswer},
    handleOf events on = some y → handleOf events name = some z →
    reg.step? (.act on action) = some (reg', answer) →
    -- the step may give the name to a new engine
    handleOf ((EngineStep.act on action).event reg.current? :: events) name = some z →
    reg'.current? name = reg.current? name

/-- The engines and the held snapshots of a registry after a run keep to themselves. -/
structure Isolated (events : List EngineEvent) (reg : Registry) : Prop where
  /-- A step that fails changes nothing. -/
  failed : ∀ {step : EngineStep} {reg' : Registry} {answer : Logged EngineAnswer} {e : Error},
    reg.step? step = some (reg', answer) → answer.result = .error e → reg' = reg
  /-- A reload that succeeds gives the new snapshot to everything that is connected with its engine
  by clone, and to nothing else. -/
  reloaded : ∀ {on : String} {x : Nat} {action : EngineAction} {s : Snapshot}
    {built : Except Error Snapshot} {reg' : Registry} {answer : Logged EngineAnswer}
    {a : EngineAnswer}, handleOf events on = some x → reg.current? on = some s →
    action.replacement? s = some built → reg.step? (.act on action) = some (reg', answer) →
    answer.result = .ok a →
    ∃ t, built = .ok t ∧ ∀ name y, handleOf events name = some y →
      (Connected events x y → reg'.current? name = some t) ∧
      (¬ Connected events x y → reg'.current? name = reg.current? name)
  /-- An engine with other entities or other options and the engine that it came from leave each
  other alone, and so do their clones. -/
  derived : ∀ {new old : List EngineEvent} {as on : String} {s : Snapshot} {x y z : Nat},
    events = new ++ .derived as on s :: old → handleOf old on = some x →
    Connected events x y → Connected events old.length z →
    Leaves events reg y z ∧ Leaves events reg z y
  /-- A held snapshot is the one that was kept last under its name. -/
  held : ∀ name, reg.held? name = heldAs events name
  /-- Keeping a snapshot keeps the one that the engine shows, and changes no engine. -/
  hold : ∀ {on name : String} {s : Snapshot} {reg' : Registry} {answer : Logged EngineAnswer},
    reg.current? on = some s → reg.step? (.act on (.hold name)) = some (reg', answer) →
    reg'.held? name = some s ∧ ∀ other, reg'.current? other = reg.current? other
  /-- No other step changes a held snapshot. -/
  heldStays : ∀ {step : EngineStep} {name : String} {reg' : Registry}
    {answer : Logged EngineAnswer}, reg.step? step = some (reg', answer) →
    (∀ on, step ≠ .act on (.hold name)) → reg'.held? name = reg.held? name
  /-- Every engine shows the snapshot that was installed last in its group of clones. -/
  shows : ∀ {name : String} {x : Nat}, handleOf events name = some x →
    ∃ s, reg.current? name = some s ∧ LastInstalled (Connected events x) events s
  /-- New policies keep the schema, the options and the entities. -/
  newPolicies : ∀ {on text now : String} {s : Snapshot} {reg' : Registry}
    {answer : Logged EngineAnswer} {a : EngineAnswer}, reg.current? on = some s →
    reg.step? (.act on (.reload text none now)) = some (reg', answer) → answer.result = .ok a →
    ∃ t, reg'.current? on = some t ∧ t.authorizer.schema = s.authorizer.schema ∧
      t.authorizer.options = s.authorizer.options ∧ t.entities = s.entities
  /-- New entities keep the policies, the schema, the options and the version. -/
  newEntities : ∀ {on : String} {es : Entities} {s : Snapshot} {reg' : Registry}
    {answer : Logged EngineAnswer} {a : EngineAnswer}, reg.current? on = some s →
    reg.step? (.act on (.reloadEntities es)) = some (reg', answer) → answer.result = .ok a →
    ∃ t, reg'.current? on = some t ∧ t.authorizer = s.authorizer ∧ t.version = s.version ∧
      t.entities = es

variable {reg reg' : Registry} {events new old : List EngineEvent} {step : EngineStep}
  {action : EngineAction} {answer : Logged EngineAnswer} {a : EngineAnswer} {e : Error}
  {name on as : String} {s t : Snapshot} {x y z : Nat} {built : Except Error Snapshot}

/-! ### Frames -/

/-- A name that keeps its handle shows what it showed, where nothing is installed in the group of
the handle. -/
theorem Run.current?_of_not_installs (hrun : Run events reg)
    (hstep : reg.step? step = some (reg', answer)) (hy : handleOf events name = some y)
    (hy' : handleOf (step.event reg.current? :: events) name = some y)
    (hinstalls : ∀ x t, (step.event reg.current?).installs events = some (x, t) →
      ¬ Connected (step.event reg.current? :: events) y x) :
    reg'.current? name = reg.current? name := by
  have hlt : y < events.length := (isHandle_of_handleOf hy).lt
  obtain ⟨s, hs, hlast⟩ := hrun.exists_current? hy
  have hlast' : LastInstalled (Connected (step.event reg.current? :: events) y)
      (step.event reg.current? :: events) s := by
    refine .before hinstalls (hlast.congr fun x hx => ?_)
    exact (connected_cons_iff hlt hx).symm
  rw [hs]
  exact (hrun.step hstep).current?_eq_some_iff.mpr ⟨y, hy', hlast'⟩

/-- Steps on a handle leave what is not connected with it. -/
theorem Run.leaves (hrun : Run events reg) (h : ¬ Connected events y z) :
    Leaves events reg y z := by
  intro on name action reg' answer hy hz hstep hz'
  have hylt : y < events.length := (isHandle_of_handleOf hy).lt
  have hzlt : z < events.length := (isHandle_of_handleOf hz).lt
  refine hrun.current?_of_not_installs hstep hz hz' fun w t hw hcon => ?_
  rcases cases_of_installs hw with ⟨on', heq, hon'⟩ | ⟨rfl, hclone⟩
  · -- a reload, and of the handle itself
    have hdoes := EngineStep.does_event reg.current? (.act on action)
    have hon : on' = on := hdoes.eq_of_source? (by rw [heq]; rfl)
    obtain rfl : y = w := Option.some.inj (hy.symm.trans (hon ▸ hon'))
    exact h ((connected_cons_iff hzlt hylt).mp hcon).symm
  · -- an engine is made, with a handle of its own
    rw [connected_cons_of_ne hclone] at hcon
    exact Nat.ne_of_lt hzlt (hcon.eq_of_length_le (.inr (Nat.le_refl _)))

/-! ### Reloads -/

theorem result_act_of_replacement? {cell : Nat} (h : action.replacement? s = some built) :
    (reg.act cell s action).2.result = built.map fun _ => .done := by
  cases action with
  | reload text source now =>
      cases source with
      | none =>
          obtain rfl := Option.some.inj h
          rw [act, result_commit, result_reloaded]
      | some source =>
          obtain rfl := Option.some.inj h
          rw [act, result_commit, result_reloaded]
  | reloadEntities es =>
      obtain rfl := Option.some.inj h
      rw [act, result_commit, result_reloaded]
      rfl
  | clone as | withEntities as es | withOptions as options | evaluate r | evaluateBatch rs
  | listing principal | hold as => cases h

/-- A reload that succeeds has built a snapshot and replaces the one of its engine. -/
theorem event_of_reload (hs : reg.current? on = some s)
    (hbuilt : action.replacement? s = some built)
    (hstep : reg.step? (.act on action) = some (reg', answer)) (ha : answer.result = .ok a) :
    ∃ t, built = .ok t ∧ (EngineStep.act on action).event reg.current? = .reloaded on t := by
  obtain ⟨cell, s', hcell, hs', hact⟩ := step?_act_eq_some hstep
  obtain rfl : s' = s :=
    Option.some.inj ((current?_eq_some_iff.mpr ⟨cell, hcell, hs'⟩).symm.trans hs)
  obtain ⟨-, rfl⟩ := Prod.ext_iff.mp hact
  rw [result_act_of_replacement? hbuilt] at ha
  obtain ⟨t, rfl, -⟩ := map_eq_ok.mp ha
  refine ⟨t, rfl, ?_⟩
  rw [EngineStep.event, hs]
  exact EngineAction.event_of_replacement? hbuilt

/-- **A reload reaches exactly what is connected by clone.** -/
theorem Run.current?_of_reload (hrun : Run events reg) (hx : handleOf events on = some x)
    (hstep : reg.step? step = some (reg', answer))
    (hevent : step.event reg.current? = .reloaded on t) (hy : handleOf events name = some y) :
    (Connected events x y → reg'.current? name = some t) ∧
      (¬ Connected events x y → reg'.current? name = reg.current? name) := by
  have hinstalls : (step.event reg.current?).installs events = some (x, t) := by
    rw [hevent]
    exact installs_reloaded hx
  have hy' : handleOf (step.event reg.current? :: events) name = some y := by
    rw [hevent]
    exact hy
  have hconnected : ∀ {x y}, Connected (step.event reg.current? :: events) x y ↔
      Connected events x y := by
    rw [hevent]
    exact connected_cons_of_ne nofun
  constructor
  · intro hcon
    refine (hrun.step hstep).current?_eq_some_iff.mpr ⟨y, hy', .here hinstalls ?_⟩
    exact hconnected.mpr hcon.symm
  · intro hcon
    refine hrun.current?_of_not_installs hstep hy hy' fun w u hw hw' => hcon ?_
    obtain ⟨rfl, -⟩ := Prod.mk.inj (Option.some.inj (hinstalls.symm.trans hw))
    exact (hconnected.mp hw').symm

/-- The engine that is reloaded shows what was built. -/
theorem Run.exists_current?_of_reload (hrun : Run events reg) (hs : reg.current? on = some s)
    (hbuilt : action.replacement? s = some built)
    (hstep : reg.step? (.act on action) = some (reg', answer)) (ha : answer.result = .ok a) :
    ∃ t, built = .ok t ∧ reg'.current? on = some t := by
  obtain ⟨x, hx, -⟩ := hrun.current?_eq_some_iff.mp hs
  obtain ⟨t, ht, hevent⟩ := event_of_reload hs hbuilt hstep ha
  exact ⟨t, ht, (hrun.current?_of_reload hx hstep hevent hx).1 (connected_refl _ _)⟩

/-! ### Held snapshots

Snapshots that are held are values. No event but keeping another one under the same name changes
what is held. -/

theorem held?_apply (h : ∀ name, reg.held? name = heldAs events name) (event : EngineEvent) :
    (reg.apply event).held? name = heldAs (event :: events) name := by
  cases event with
  | nothing | built as s | derived as on s => exact h name
  | cloned as on =>
      simp only [apply]
      split <;> exact h name
  | reloaded on s =>
      simp only [apply]
      split <;> exact h name
  | held as s =>
      refine held?_hold.trans ?_
      rw [h]
      rfl

/-- **A held snapshot** is the one that was kept last under its name. -/
theorem Run.held? (hrun : Run events reg) : ∀ name, reg.held? name = heldAs events name := by
  induction hrun with
  | start => exact fun name => rfl
  | step hrun hstep ih =>
      intro name
      rw [eq_apply_of_step hstep]
      exact held?_apply ih _

/-- A step that keeps no snapshot under a name leaves what is held there. -/
theorem Run.held?_of_ne_hold (hrun : Run events reg) (hstep : reg.step? step = some (reg', answer))
    (hne : ∀ on, step ≠ .act on (.hold name)) : reg'.held? name = reg.held? name := by
  rw [hrun.held?, (hrun.step hstep).held?]
  cases hevent : step.event reg.current? with
  | held as s =>
      refine if_neg ?_
      rintro rfl
      obtain ⟨on, hon⟩ := (hevent ▸ EngineStep.does_event reg.current? step).eq_hold
      exact hne on hon
  | nothing | built as s | derived as on s | cloned as on | reloaded on s => rfl

/-- Keeping a snapshot keeps what the engine shows, and changes no engine. -/
theorem eq_hold_of_step (hs : reg.current? on = some s)
    (hstep : reg.step? (.act on (.hold name)) = some (reg', answer)) : reg' = reg.hold name s := by
  rw [eq_apply_of_step hstep, EngineStep.event, hs]
  rfl

/-! ### Isolation -/

/-- An engine that was made from another one, with entities or options of its own, has nothing to do
with it. -/
theorem not_connected_of_derived (hevents : events = new ++ .derived as on s :: old)
    (hx : handleOf old on = some x) (hy : Connected events x y)
    (hz : Connected events old.length z) : ¬ Connected events y z := by
  intro hyz
  subst hevents
  have hclone : ∀ as' on', EngineEvent.derived as on s ≠ .cloned as' on' := nofun
  have hlt : x < old.length := (isHandle_of_handleOf hx).lt
  exact not_connected_length hclone hlt (hy.trans (hyz.trans hz.symm))

/-- **After every run, engines are isolated** and reloads are atomic. -/
theorem Run.isolated (hrun : Run events reg) : Isolated events reg where
  failed := by
    intro step reg' answer e hstep he
    rw [eq_apply_of_step hstep, EngineStep.event_of_error hstep he]
    rfl
  reloaded := by
    intro on x action s built reg' answer a hx hs hbuilt hstep ha
    obtain ⟨t, ht, hevent⟩ := event_of_reload hs hbuilt hstep ha
    exact ⟨t, ht, fun name y hy => hrun.current?_of_reload hx hstep hevent hy⟩
  derived := by
    intro new old as on s x y z hevents hx hy hz
    have hapart : ¬ Connected events y z := not_connected_of_derived hevents hx hy hz
    exact ⟨hrun.leaves hapart, hrun.leaves fun h => hapart h.symm⟩
  held := hrun.held?
  hold := by
    intro on name s reg' answer hs hstep
    obtain rfl := eq_hold_of_step hs hstep
    exact ⟨held?_hold.trans (if_pos rfl), fun other => rfl⟩
  heldStays := fun hstep hne => hrun.held?_of_ne_hold hstep hne
  shows := fun hx => hrun.exists_current? hx
  newPolicies := by
    intro on text now s reg' answer a hs hstep ha
    obtain ⟨t, ht, hshows⟩ := hrun.exists_current?_of_reload hs rfl hstep ha
    exact ⟨t, hshows, Snapshot.keeps_of_withPolicies ht⟩
  newEntities := by
    intro on es s reg' answer a hs hstep ha
    obtain ⟨t, ht, hshows⟩ := hrun.exists_current?_of_reload hs rfl hstep ha
    exact ⟨t, hshows, Snapshot.keeps_of_withEntities ht⟩

/-- A run in which the clone of an engine is reloaded: the engine shows what the clone was given,
the engine that was made from it with other options and the held snapshot are as they were. -/
theorem isolated_reloaded_clone : ∃ (s d t : Snapshot) (events : List EngineEvent) (reg : Registry),
    events = [.reloaded "b" t, .derived "c" "a" d, .held "h" s, .cloned "b" "a", .built "a" s] ∧
    Run events reg ∧ Isolated events reg ∧ reg.current? "a" = some t ∧
    reg.current? "c" = some d ∧ reg.held? "h" = some s ∧ t.version.loadedAt = "later" := by
  have hbuilt := Run.start.step
    (show Registry.empty.step? (.create "a" "" none "now") = some _ from rfl)
  have hcloned := hbuilt.step (show step? _ (.act "a" (.clone "b")) = some _ from rfl)
  have hheld := hcloned.step (show step? _ (.act "a" (.hold "h")) = some _ from rfl)
  have hderived := hheld.step
    (show step? _ (.act "a" (.withOptions "c" ⟨.permissive, 8, true⟩)) = some _ from rfl)
  have hreloaded := hderived.step
    (show step? _ (.act "b" (.reload "" none "later")) = some _ from rfl)
  exact ⟨_, _, _, _, _, rfl, hreloaded, Run.isolated hreloaded, rfl, rfl, rfl, rfl⟩

end Registry

end AccessPolicy
