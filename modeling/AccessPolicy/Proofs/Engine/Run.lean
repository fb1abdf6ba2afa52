import AccessPolicy.Engine.Registry
import AccessPolicy.Proofs.Except

/-!
# Runs of engines

What steps on engines do, apart from the cells in which a registry keeps snapshots.

* `EngineEvent` — what a step does: it makes an engine, from a text, from another engine or as a
  clone, it replaces the snapshot of an engine, it keeps a snapshot, or it does none of these.
  `EngineStep.event` tells the event of a step from the current snapshots alone.
* **A step does its event** (`Registry.eq_apply_of_step`): what becomes of a registry is determined
  by the event, and a step that fails has none (`EngineStep.event_of_error`).
* `Registry.Run events reg` — the registry `reg` comes of a run with the given events, the latest
  first, from the registry without engines.
-/

namespace AccessPolicy

/-! ### Events

Steps differ in what they are given and in how they fail. What they do to a registry comes down to a
few events. -/

/-- What a step on engines does. -/
inductive EngineEvent
  /-- Nothing is made and nothing changes. -/
  | nothing
  /-- An engine is made from a policy text. -/
  | built (as : String) (s : Snapshot)
  /-- An engine is made from another one, with other entities or other options. -/
  | derived (as on : String) (s : Snapshot)
  /-- An engine is made as a clone of another one. -/
  | cloned (as on : String)
  /-- The snapshot of an engine is replaced. -/
  | reloaded (on : String) (s : Snapshot)
  /-- A snapshot is kept. -/
  | held (as : String) (s : Snapshot)

namespace EngineEvent

/-- The event of a step that builds a snapshot, if it does. -/
def ofBuilt (event : Snapshot → EngineEvent) : Except Error Snapshot → EngineEvent
  | .error _ => nothing
  | .ok s => event s

/-- The name of the engine that is made. -/
def makes? : EngineEvent → Option String
  | built as _ | derived as _ _ | cloned as _ => some as
  | nothing | reloaded _ _ | held _ _ => none

/-- The name of the engine that it is done to, where that makes or replaces anything. -/
def source? : EngineEvent → Option String
  | derived _ on _ | cloned _ on | reloaded on _ => some on
  | nothing | built _ _ | held _ _ => none

/-- A step that builds a snapshot does nothing, or it has built one. -/
theorem ofBuilt_eq (event : Snapshot → EngineEvent) (built : Except Error Snapshot) :
    ofBuilt event built = nothing ∨ ∃ s, built = .ok s ∧ ofBuilt event built = event s := by
  cases built with
  | error e => exact .inl rfl
  | ok s => exact .inr ⟨s, rfl, rfl⟩

end EngineEvent

/-- What an action does to an engine with the given snapshot. -/
def EngineAction.event (on : String) (s : Snapshot) : EngineAction → EngineEvent
  | clone as => .cloned as on
  | withEntities as es => .ofBuilt (.derived as on) (s.withEntities es)
  | withOptions as options => .derived as on (s.withOptions options)
  | reload text none now => .ofBuilt (.reloaded on) (s.withPolicies text now).result
  | reload text (some source) now =>
    .ofBuilt (.reloaded on) (s.withPoliciesAndSchema text source now).result
  | reloadEntities es => .ofBuilt (.reloaded on) (s.withEntities es)
  | hold as => .held as s
  | evaluate _ | evaluateBatch _ | listing _ => .nothing

/-- What a step does where engines show the given snapshots. -/
def EngineStep.event (current? : String → Option Snapshot) : EngineStep → EngineEvent
  | create as text source now => .ofBuilt (.built as) (Snapshot.load text source now).result
  | act on action =>
    match current? on with
    | none => .nothing
    | some s => action.event on s

/-! ### What a step can do -/

namespace EngineAction

variable {s t : Snapshot} {on : String} {action : EngineAction} {built : Except Error Snapshot}

/-- What an action builds in order to replace a snapshot, if it is a reload. -/
def replacement? (s : Snapshot) : EngineAction → Option (Except Error Snapshot)
  | reload text none now => some (s.withPolicies text now).result
  | reload text (some source) now => some (s.withPoliciesAndSchema text source now).result
  | reloadEntities es => some (s.withEntities es)
  | clone _ | withEntities _ _ | withOptions _ _ | evaluate _ | evaluateBatch _ | listing _
  | hold _ => none

/-- An action with a replacement reloads the engine with it, if it could be built. -/
theorem event_of_replacement? (h : action.replacement? s = some built) :
    action.event on s = .ofBuilt (.reloaded on) built := by
  cases action with
  | reload text source now =>
      cases source with
      | none => exact congrArg (EngineEvent.ofBuilt (.reloaded on)) (Option.some.inj h)
      | some source => exact congrArg (EngineEvent.ofBuilt (.reloaded on)) (Option.some.inj h)
  | reloadEntities es => exact congrArg (EngineEvent.ofBuilt (.reloaded on)) (Option.some.inj h)
  | clone as | withEntities as es | withOptions as options | evaluate r | evaluateBatch rs
  | listing principal | hold as => cases h

/-- The events that an action on an engine with a given snapshot can have. -/
inductive Does (on : String) (s : Snapshot) : EngineAction → EngineEvent → Prop
  | nothing {action : EngineAction} : Does on s action .nothing
  | clone {as : String} : Does on s (.clone as) (.cloned as on)
  | withEntities {as : String} {es : Entities} {t : Snapshot} (h : s.withEntities es = .ok t) :
      Does on s (.withEntities as es) (.derived as on t)
  | withOptions {as : String} {options : AuthorizerOptions} :
      Does on s (.withOptions as options) (.derived as on (s.withOptions options))
  | reload {action : EngineAction} {t : Snapshot} (h : action.replacement? s = some (.ok t)) :
      Does on s action (.reloaded on t)
  | hold {as : String} : Does on s (.hold as) (.held as s)

/-- The event of a reload is one that the action can have. -/
theorem does_of_replacement? (h : action.replacement? s = some built) :
    Does on s action (action.event on s) := by
  rw [event_of_replacement? h]
  rcases EngineEvent.ofBuilt_eq (.reloaded on) built with heq | ⟨t, rfl, heq⟩
  · exact heq ▸ .nothing
  · exact heq ▸ .reload h

/-- The event of an action is one that it can have. -/
theorem does_event (on : String) (s : Snapshot) (action : EngineAction) :
    Does on s action (action.event on s) := by
  cases action with
  | clone as => exact .clone
  | withEntities as es =>
      rcases EngineEvent.ofBuilt_eq (.derived as on) (s.withEntities es) with heq | ⟨t, ht, heq⟩
      · rw [event, heq]
        exact .nothing
      · rw [event, heq]
        exact .withEntities ht
  | withOptions as options => exact .withOptions
  | reload text source now =>
      cases source with
      | none => exact does_of_replacement? rfl
      | some source => exact does_of_replacement? rfl
  | reloadEntities es => exact does_of_replacement? rfl
  | evaluate r | evaluateBatch rs | listing principal => exact .nothing
  | hold as => exact .hold

end EngineAction

namespace EngineStep

variable {current? : String → Option Snapshot} {step : EngineStep} {event : EngineEvent}
  {as on name : String} {s t : Snapshot} {action : EngineAction}

/-- The events that a step can have where engines show the given snapshots. -/
inductive Does (current? : String → Option Snapshot) : EngineStep → EngineEvent → Prop
  | nothing {step : EngineStep} : Does current? step .nothing
  | load {as text : String} {source : Option SchemaSource} {now : String} {t : Snapshot}
      (h : (Snapshot.load text source now).result = .ok t) :
      Does current? (.create as text source now) (.built as t)
  | act {on : String} {s : Snapshot} {action : EngineAction} {event : EngineEvent}
      (hs : current? on = some s) (h : EngineAction.Does on s action event) :
      Does current? (.act on action) event

/-- The event of a step is one that it can have. -/
theorem does_event (current? : String → Option Snapshot) (step : EngineStep) :
    Does current? step (step.event current?) := by
  cases step with
  | create as text source now =>
      rcases EngineEvent.ofBuilt_eq (.built as) (Snapshot.load text source now).result with
        heq | ⟨t, ht, heq⟩
      · rw [event, heq]
        exact .nothing
      · rw [event, heq]
        exact .load ht
  | act on action =>
      rw [event]
      cases hs : current? on with
      | none => exact .nothing
      | some s => exact .act hs (action.does_event on s)

/-- A step that is done to an engine finds a snapshot in it. -/
theorem Does.exists_of_source? (h : Does current? step event) (hon : event.source? = some on) :
    ∃ s, current? on = some s := by
  cases h with
  | nothing | load h => cases hon
  | act hs h => cases h <;> cases hon <;> exact ⟨_, hs⟩

/-- An action of a step is done to the engine that the step names. -/
theorem Does.eq_of_source? (h : Does current? (.act on action) event)
    (hname : event.source? = some name) : name = on := by
  cases h with
  | nothing => cases hname
  | act hs h => cases h <;> cases hname <;> rfl

/-- Only the action that keeps a snapshot does so. -/
theorem Does.eq_hold (h : Does current? step (.held as s)) : ∃ on, step = .act on (.hold as) := by
  cases h with
  | act hs h =>
      cases h
      exact ⟨_, rfl⟩

/-- Only a step that loads a text makes an engine from one. -/
theorem Does.exists_load (h : Does current? step (.built as t)) :
    ∃ text source now, (Snapshot.load text source now).result = .ok t := by
  cases h with
  | load h => exact ⟨_, _, _, h⟩
  | act hs h => cases h

/-- An engine that is made from another one is made by an action on what that one shows. -/
theorem Does.exists_derived (h : Does current? step (.derived as on t)) :
    ∃ s action, current? on = some s ∧ EngineAction.Does on s action (.derived as on t) := by
  cases h with
  | act hs h =>
      cases h with
      | withEntities ht => exact ⟨_, _, hs, .withEntities ht⟩
      | withOptions => exact ⟨_, _, hs, .withOptions⟩

/-- What replaces a snapshot is built from one that an engine shows. -/
theorem Does.exists_replacement? (h : Does current? step (.reloaded on t)) :
    ∃ s action, current? on = some s ∧ EngineAction.replacement? s action = some (.ok t) := by
  cases h with
  | act hs h =>
      cases h with
      | reload h => exact ⟨_, _, hs, h⟩

end EngineStep

namespace Registry

variable {reg reg' : Registry} {events : List EngineEvent} {step : EngineStep}
  {answer : Logged EngineAnswer} {name : String}

/-! ### Steps -/

/-- What an event does to a registry. -/
def apply (reg : Registry) : EngineEvent → Registry
  | .nothing => reg
  | .built as s | .derived as _ s => reg.create as s
  | .cloned as on =>
    match reg.cell? on with
    | none => reg
    | some cell => reg.share as cell
  | .reloaded on s =>
    match reg.cell? on with
    | none => reg
    | some cell => reg.replace cell s
  | .held as s => reg.hold as s

/-- A commit changes a registry as the event of what was built does. -/
theorem commit_fst {built : Logged Snapshot} {store : Snapshot → Registry}
    {event : Snapshot → EngineEvent} (h : ∀ s, store s = reg.apply (event s)) :
    (reg.commit built store).1 = reg.apply (.ofBuilt event built.result) := by
  unfold commit
  cases built.result with
  | error e => rfl
  | ok s => exact h s

/-- A commit of a snapshot that was built stores it. -/
theorem commit_of_ok {built : Logged Snapshot} {store : Snapshot → Registry} {s : Snapshot}
    (h : built.result = .ok s) :
    reg.commit built store = (store s, ⟨built.journal, .ok .done⟩) := by
  rw [commit, h]

/-- A step that stores a snapshot succeeds exactly if the snapshot is built. -/
theorem result_commit (built : Logged Snapshot) (store : Snapshot → Registry) :
    (reg.commit built store).2.result = built.result.map fun _ => .done := by
  unfold commit
  cases built.result with
  | error e => rfl
  | ok s => rfl

/-- Noting a reload does not change what was built. -/
@[simp] theorem result_reloaded (built : Logged Snapshot) (phase : ReloadPhase) (new : Bool) :
    (reloaded built phase new).result = built.result := by
  unfold reloaded
  rw [Logged.result_bind]
  cases built.result <;> rfl

/-- An engine shows the snapshot in its cell. -/
theorem current?_eq_some_iff {s : Snapshot} :
    reg.current? name = some s ↔ ∃ cell, reg.cell? name = some cell ∧ reg.cells[cell]? = some s :=
  Option.bind_eq_some_iff

/-- What an action does to a registry. -/
theorem act_fst {on : String} {cell : Nat} {s : Snapshot} (h : reg.cell? on = some cell)
    (action : EngineAction) : (reg.act cell s action).1 = reg.apply (action.event on s) := by
  have hreload : ∀ t, reg.replace cell t = reg.apply (.reloaded on t) := fun t => by
    simp only [apply, h]
  cases action with
  | clone as => simp only [act, EngineAction.event, apply, h]
  | withEntities as es => exact commit_fst fun t => rfl
  | withOptions as options => rfl
  | reload text source now =>
      cases source with
      | none =>
          rw [act, commit_fst hreload, result_reloaded]
          rfl
      | some source =>
          rw [act, commit_fst hreload, result_reloaded]
          rfl
  | reloadEntities es =>
      rw [act, commit_fst hreload, result_reloaded]
      rfl
  | evaluate r => rfl
  | evaluateBatch rs => rfl
  | listing principal => rfl
  | hold as => rfl

/-- A step that is run acts on an engine that there is. -/
theorem step?_act_eq_some {on : String} {action : EngineAction}
    (h : reg.step? (.act on action) = some (reg', answer)) :
    ∃ cell s, reg.cell? on = some cell ∧ reg.cells[cell]? = some s ∧
      reg.act cell s action = (reg', answer) := by
  simp only [step?] at h
  cases hcell : reg.cell? on with
  | none => simp [hcell] at h
  | some cell =>
      cases hs : reg.cells[cell]? with
      | none => simp [hcell, hs] at h
      | some s => exact ⟨cell, s, rfl, hs, by simpa [hcell, hs] using h⟩

/-- **A step does its event.** -/
theorem eq_apply_of_step (h : reg.step? step = some (reg', answer)) :
    reg' = reg.apply (step.event reg.current?) := by
  cases step with
  | create as text source now =>
      have hcommit := Prod.ext_iff.mp (Option.some.inj h)
      exact hcommit.1.symm.trans (commit_fst fun s => rfl)
  | act on action =>
      obtain ⟨cell, s, hcell, hs, hact⟩ := step?_act_eq_some h
      have hcurrent : reg.current? on = some s := current?_eq_some_iff.mpr ⟨cell, hcell, hs⟩
      rw [EngineStep.event, hcurrent]
      exact (congrArg Prod.fst hact).symm.trans (act_fst hcell action)

/-- A commit that fails has no event. -/
theorem ofBuilt_of_commit_error {built : Logged Snapshot} {store : Snapshot → Registry} {e : Error}
    (event : Snapshot → EngineEvent) (h : (reg.commit built store).2.result = .error e) :
    EngineEvent.ofBuilt event built.result = .nothing := by
  rw [result_commit] at h
  cases hb : built.result with
  | error e => rfl
  | ok s => rw [hb] at h; cases h

end Registry

namespace EngineStep

open Registry

variable {reg reg' : Registry} {step : EngineStep} {answer : Logged EngineAnswer}

/-- **A step that fails does nothing.** -/
theorem event_of_error {e : Error} (h : reg.step? step = some (reg', answer))
    (he : answer.result = .error e) : step.event reg.current? = .nothing := by
  cases step with
  | create as text source now =>
      obtain ⟨-, rfl⟩ := Prod.ext_iff.mp (Option.some.inj h)
      exact ofBuilt_of_commit_error (.built as) he
  | act on action =>
      obtain ⟨cell, s, hcell, hs, hact⟩ := step?_act_eq_some h
      have hcurrent : reg.current? on = some s := current?_eq_some_iff.mpr ⟨cell, hcell, hs⟩
      obtain ⟨-, rfl⟩ := Prod.ext_iff.mp hact
      rw [EngineStep.event, hcurrent]
      -- The three reloads commit in one way.
      have hreload : ∀ {built : Logged Snapshot} {phase : ReloadPhase} {new : Bool},
          (reg.commit (reloaded built phase new) (reg.replace cell)).2.result = .error e →
          EngineEvent.ofBuilt (.reloaded on) built.result = .nothing := by
        intro built phase new hcommit
        have := ofBuilt_of_commit_error (.reloaded on) hcommit
        rwa [result_reloaded] at this
      cases action with
      | clone as => cases he
      | withEntities as es => exact ofBuilt_of_commit_error (.derived as on) he
      | withOptions as options => cases he
      | reload text source now =>
          cases source with
          | none => exact hreload he
          | some source => exact hreload he
      | reloadEntities es => exact hreload he
      | evaluate r => rfl
      | evaluateBatch rs => rfl
      | listing principal => rfl
      | hold as => cases he

end EngineStep

/-! ### Runs -/

/-- The registries that come of a run, each with the events of its steps, the latest first. -/
inductive Registry.Run : List EngineEvent → Registry → Prop
  | start : Run [] .empty
  | step {events : List EngineEvent} {reg reg' : Registry} {step : EngineStep}
      {answer : Logged EngineAnswer} (hrun : Run events reg)
      (hstep : reg.step? step = some (reg', answer)) :
      Run (step.event reg.current? :: events) reg'

end AccessPolicy
