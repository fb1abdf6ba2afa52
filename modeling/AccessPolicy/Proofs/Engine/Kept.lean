import AccessPolicy.Proofs.Engine.Run

/-!
# What snapshots keep over runs

**What every new snapshot has, all have** (`Registry.Run.forall_cells`): it is enough to look at
what is loaded, at what is derived from another snapshot and at what replaces one, since an event
puts no other snapshot into a cell (`Registry.mem_cells_apply`). `Registry.viewing` is a schema for
engines to be tried on.
-/

namespace AccessPolicy.Registry

variable {reg reg' : Registry} {events : List EngineEvent} {step : EngineStep}
  {answer : Logged EngineAnswer} {event : EngineEvent} {name : String} {s t : Snapshot}
  {P : Snapshot → Prop}

/-- What an event puts into the cells: nothing new, or one snapshot. -/
theorem mem_cells_apply (h : s ∈ (reg.apply event).cells) : s ∈ reg.cells ∨
    (∃ as, event = .built as s) ∨ (∃ as on, event = .derived as on s) ∨
      ∃ on, event = .reloaded on s := by
  cases event with
  | nothing => exact .inl h
  | held as t => exact .inl h
  | built as t =>
      rcases List.mem_append.mp h with h | h
      · exact .inl h
      · obtain rfl := List.mem_singleton.mp h
        exact .inr (.inl ⟨as, rfl⟩)
  | derived as on t =>
      rcases List.mem_append.mp h with h | h
      · exact .inl h
      · obtain rfl := List.mem_singleton.mp h
        exact .inr (.inr (.inl ⟨as, on, rfl⟩))
  | cloned as on =>
      simp only [apply] at h
      split at h <;> exact .inl h
  | reloaded on t =>
      simp only [apply] at h
      split at h
      · exact .inl h
      · rcases List.mem_or_eq_of_mem_set h with h | rfl
        · exact .inl h
        · exact .inr (.inr (.inr ⟨on, rfl⟩))

theorem mem_cells_of_current? (h : reg.current? name = some s) : s ∈ reg.cells := by
  obtain ⟨cell, -, hs⟩ := current?_eq_some_iff.mp h
  exact List.mem_of_getElem? hs

/-- **One step** keeps what new snapshots have. -/
theorem forall_cells_of_step (hreg : ∀ t ∈ reg.cells, P t)
    (hstep : reg.step? step = some (reg', answer))
    (hload : ∀ {text source now t}, (Snapshot.load text source now).result = .ok t → P t)
    (hderived : ∀ {as on s action t}, step.event reg.current? = .derived as on t →
      EngineAction.Does on s action (.derived as on t) → P s → P t)
    (hreplaced : ∀ {s : Snapshot} {action : EngineAction} {t : Snapshot},
      action.replacement? s = some (.ok t) → P s → P t) :
    ∀ t ∈ reg'.cells, P t := by
  intro t ht
  have hdoes := EngineStep.does_event reg.current? step
  rw [eq_apply_of_step hstep] at ht
  rcases mem_cells_apply ht with ht | ⟨as, hevent⟩ | ⟨as, on, hevent⟩ | ⟨on, hevent⟩
  · exact hreg t ht
  · obtain ⟨text, source, now, hloaded⟩ := (hevent ▸ hdoes).exists_load
    exact hload hloaded
  · obtain ⟨s, action, hs, hdone⟩ := (hevent ▸ hdoes).exists_derived
    exact hderived hevent hdone (hreg s (mem_cells_of_current? hs))
  · obtain ⟨s, action, hs, hbuilt⟩ := (hevent ▸ hdoes).exists_replacement?
    exact hreplaced hbuilt (hreg s (mem_cells_of_current? hs))

/-- **What every new snapshot has, all have**, by induction on the run. -/
theorem Run.forall_cells (hrun : Run events reg)
    (hload : ∀ {text source now t}, (Snapshot.load text source now).result = .ok t → P t)
    (hderived : ∀ {as on s action t}, .derived as on t ∈ events →
      EngineAction.Does on s action (.derived as on t) → P s → P t)
    (hreplaced : ∀ {s : Snapshot} {action : EngineAction} {t : Snapshot},
      action.replacement? s = some (.ok t) → P s → P t) :
    ∀ t ∈ reg.cells, P t := by
  induction hrun with
  | start => exact nofun
  | step hrun hstep ih =>
      have hreg := ih fun hevent => hderived (List.mem_cons_of_mem _ hevent)
      exact forall_cells_of_step hreg hstep hload
        (fun hevent => hderived (hevent ▸ List.mem_cons_self)) hreplaced

/-- A schema with one action, on which users view photos. -/
def viewing : Schema :=
  ⟨[("Photo", ⟨[], []⟩), ("User", ⟨[], []⟩)],
   [(⟨"Action", "view"⟩, ⟨[], ["User"], ["Photo"], []⟩)]⟩

end AccessPolicy.Registry
