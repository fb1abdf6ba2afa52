import AccessPolicy.Proofs.Ascending
import AccessPolicy.Proofs.Engine.Handles
import AccessPolicy.Proofs.Engine.Snapshot
import Mathlib.Logic.Function.Basic

/-!
# Cells and handles

A registry keeps the snapshots of its engines in cells. What its engines show is told by the handles
of its run alone.

* `EngineEvent.LastInstalled group events s` — the snapshot `s` is the last that a reload through a
  handle of the group, or the making of one, has installed.
* `Registry.Simulates cellOf events reg` — the invariant between the cells of a registry and the
  handles of its run: two handles have one cell exactly if they are connected by clone, and the cell
  holds what was installed last.
* **Every event keeps the invariant** (`Registry.Simulates.apply`), and so does a run
  (`Registry.Run.simulates`).
* `Registry.Run.current?_eq_some_iff` — what an engine shows after a run.
-/

namespace AccessPolicy

/-! ### What was installed last -/

namespace EngineEvent

variable {e : EngineEvent} {es : List EngineEvent} {s t : Snapshot} {x : Nat} {name : String}

/-- The handle that an event behind the given ones gives a snapshot, and the snapshot: a handle that
is made with a snapshot of its own, or one that is reloaded. -/
def installs (es : List EngineEvent) : EngineEvent → Option (Nat × Snapshot)
  | built _ s | derived _ _ s => some (es.length, s)
  | reloaded on s => (handleOf es on).map (·, s)
  | nothing | cloned _ _ | held _ _ => none

/-- A reload installs its snapshot for the handle of its engine. -/
theorem installs_reloaded {on : String} (h : handleOf es on = some x) :
    (reloaded on s).installs es = some (x, s) :=
  congrArg (Option.map (·, s)) h

/-- The snapshot that was installed last in a group of handles. -/
inductive LastInstalled (group : Nat → Prop) : List EngineEvent → Snapshot → Prop
  /-- The last event has installed it. -/
  | here {e : EngineEvent} {es : List EngineEvent} {x : Nat} {s : Snapshot}
      (he : e.installs es = some (x, s)) (hx : group x) : LastInstalled group (e :: es) s
  /-- It was installed before, and the last event has not touched the group. -/
  | before {e : EngineEvent} {es : List EngineEvent} {s : Snapshot}
      (he : ∀ x t, e.installs es = some (x, t) → ¬ group x) (hs : LastInstalled group es s) :
      LastInstalled group (e :: es) s

/-- What gives a handle a snapshot is a reload of the handle, or it makes the handle and is no
clone. -/
theorem cases_of_installs (h : e.installs es = some (x, s)) :
    (∃ on, e = .reloaded on s ∧ handleOf es on = some x) ∨
      (x = es.length ∧ ∀ as on, e ≠ .cloned as on) := by
  cases e with
  | built as s' | derived as on s' =>
      obtain ⟨rfl, -⟩ := Prod.mk.inj (Option.some.inj h)
      exact .inr ⟨rfl, nofun⟩
  | reloaded on s' =>
      obtain ⟨y, hy, heq⟩ := Option.map_eq_some_iff.mp h
      obtain ⟨rfl, rfl⟩ := Prod.mk.inj heq
      exact .inl ⟨on, rfl, hy⟩
  | nothing | cloned as on | held as s' => cases h

/-- What an event installs is for a handle that is there or is being made. -/
theorem le_length_of_installs (h : e.installs es = some (x, s)) : x ≤ es.length := by
  rcases cases_of_installs h with ⟨on, -, hx⟩ | ⟨rfl, -⟩
  · exact Nat.le_of_lt (isHandle_of_handleOf hx).lt
  · exact Nat.le_refl _

/-- At most one snapshot was installed last. -/
theorem LastInstalled.unique {group : Nat → Prop} (hs : LastInstalled group es s)
    (ht : LastInstalled group es t) : s = t := by
  induction hs with
  | here he hx =>
      cases ht with
      | here he' _ => exact congrArg Prod.snd (Option.some.inj (he.symm.trans he'))
      | before hne _ => exact absurd hx (hne _ _ he)
  | before hne _ ih =>
      cases ht with
      | here he hx => exact absurd hx (hne _ _ he)
      | before _ ht => exact ih ht

/-- Only the handles that a run has made matter for what it has installed. -/
theorem LastInstalled.congr {group group' : Nat → Prop} (hs : LastInstalled group es s) :
    (∀ x < es.length, group x ↔ group' x) → LastInstalled group' es s := by
  induction hs with
  | here he hx =>
      intro h
      exact .here he ((h _ (Nat.lt_succ_of_le (le_length_of_installs he))).mp hx)
  | @before e es s hne _ ih =>
      intro h
      refine .before (fun x t he hx => hne x t he ?_) (ih fun x hx => h x (Nat.lt_succ_of_lt hx))
      exact (h x (Nat.lt_succ_of_le (le_length_of_installs he))).mpr hx

end EngineEvent

namespace Registry

open EngineEvent

variable {reg reg' : Registry} {events : List EngineEvent} {e : EngineEvent} {step : EngineStep}
  {answer : Logged EngineAnswer} {name on as : String} {s : Snapshot} {x y z : Nat}
  {cellOf : Nat → Nat}

/-! ### Looking up after a change -/

/-- A new engine has a cell of its own, and the other engines keep theirs. -/
theorem cell?_create : (reg.create as s).cell? name =
    if name = as then some reg.cells.length else reg.cell? name :=
  Ascending.get?_put name as reg.cells.length reg.engines

/-- A clone has the cell of its original, and the other engines keep theirs. -/
theorem cell?_share {cell : Nat} :
    (reg.share as cell).cell? name = if name = as then some cell else reg.cell? name :=
  Ascending.get?_put name as cell reg.engines

/-- A snapshot that is kept is found by its name, and the other kept snapshots stay. -/
theorem held?_hold : (reg.hold as s).held? name = if name = as then some s else reg.held? name :=
  Ascending.get?_put name as s reg.held

/-! ### Cells and handles

A registry knows nothing of handles: it has cells and names for them. The invariant compares it with
the run that led to it. -/

/-- The cells of a registry are those of the handles of its run. -/
structure Simulates (cellOf : Nat → Nat) (events : List EngineEvent) (reg : Registry) : Prop where
  /-- A name has the cell of the handle that it stands for. -/
  cell : ∀ name, reg.cell? name = (handleOf events name).map cellOf
  /-- Handles share a cell exactly if they are connected. -/
  shared : ∀ x y, IsHandle events x → IsHandle events y →
    (cellOf x = cellOf y ↔ Connected events x y)
  /-- The cell of a handle holds what was installed last in the group of the handle. -/
  holds : ∀ x, IsHandle events x →
    ∃ s, reg.cells[cellOf x]? = some s ∧ LastInstalled (Connected events x) events s

namespace Simulates

/-- The cell of a handle is there. -/
theorem cellOf_lt (h : Simulates cellOf events reg) (hx : IsHandle events x) :
    cellOf x < reg.cells.length := by
  obtain ⟨s, hs, -⟩ := h.holds x hx
  exact (List.getElem?_eq_some_iff.mp hs).1

/-- What a name shows is what was installed last in the group of its handle. -/
theorem current?_eq_some_iff (h : Simulates cellOf events reg) : reg.current? name = some s ↔
    ∃ x, handleOf events name = some x ∧ LastInstalled (Connected events x) events s := by
  rw [Registry.current?_eq_some_iff, h.cell]
  constructor
  · rintro ⟨cell, hcell, hs⟩
    obtain ⟨x, hx, rfl⟩ := Option.map_eq_some_iff.mp hcell
    obtain ⟨t, ht, hlast⟩ := h.holds x (isHandle_of_handleOf hx)
    obtain rfl : t = s := Option.some.inj (ht.symm.trans hs)
    exact ⟨x, hx, hlast⟩
  · rintro ⟨x, hx, hlast⟩
    obtain ⟨t, ht, hlast'⟩ := h.holds x (isHandle_of_handleOf hx)
    exact ⟨cellOf x, by rw [hx]; rfl, hlast.unique hlast' ▸ ht⟩

/-- An engine that shows a snapshot has a handle, and its cell is that of the handle. -/
theorem exists_handle (h : Simulates cellOf events reg) (hs : reg.current? name = some s) :
    ∃ x, handleOf events name = some x ∧ reg.cell? name = some (cellOf x) := by
  obtain ⟨x, hx, -⟩ := h.current?_eq_some_iff.mp hs
  exact ⟨x, hx, by rw [h.cell, hx]; rfl⟩

/-- An event that makes and installs nothing leaves the cells to the handles. -/
theorem idle (h : Simulates cellOf events reg) (hmakes : e.makes? = none)
    (hinstalls : e.installs events = none) (hengines : reg'.engines = reg.engines)
    (hcells : reg'.cells = reg.cells) : Simulates cellOf (e :: events) reg' := by
  have hclone : ∀ as on, e ≠ .cloned as on := by
    rintro as on rfl
    cases hmakes
  have hhandle : ∀ x, IsHandle (e :: events) x ↔ IsHandle events x := fun x => by
    simp [IsHandle, hmakes]
  refine ⟨fun name => ?_, fun x y hx hy => ?_, fun x hx => ?_⟩
  · rw [handleOf_cons_of_ne (by simp [hmakes]), ← h.cell]
    exact congrArg (Ascending.get? name) hengines
  · rw [connected_cons_of_ne hclone]
    exact h.shared x y ((hhandle x).mp hx) ((hhandle y).mp hy)
  · obtain ⟨s, hs, hlast⟩ := h.holds x ((hhandle x).mp hx)
    refine ⟨s, by rw [hcells]; exact hs, .before (by simp [hinstalls]) ?_⟩
    exact hlast.congr fun y _ => (connected_cons_of_ne hclone).symm

/-- An engine with a cell of its own. -/
theorem make (h : Simulates cellOf events reg) (hmakes : e.makes? = some as)
    (hinstalls : e.installs events = some (events.length, s))
    (hclone : ∀ as on, e ≠ .cloned as on) :
    Simulates (Function.update cellOf events.length reg.cells.length) (e :: events)
      (reg.create as s) := by
  have hold : ∀ {x}, IsHandle events x →
      Function.update cellOf events.length reg.cells.length x = cellOf x := fun hx =>
    Function.update_of_ne (Nat.ne_of_lt hx.lt) _ _
  have hnew : Function.update cellOf events.length reg.cells.length events.length
      = reg.cells.length := Function.update_self _ _ _
  have happart : ∀ {x}, IsHandle events x → ¬ Connected events x events.length := fun hx hcon =>
    Nat.ne_of_lt hx.lt (hcon.eq_of_length_le (.inr (Nat.le_refl _)))
  refine ⟨fun name => ?_, ?_, ?_⟩
  · rw [cell?_create]
    by_cases hname : name = as
    · rw [if_pos hname, handleOf, if_pos (hname ▸ hmakes), Option.map_some, hnew]
    · have hne : e.makes? ≠ some name := fun heq =>
        hname (Option.some.inj (heq.symm.trans hmakes))
      rw [if_neg hname, handleOf_cons_of_ne hne, h.cell]
      refine Option.map_congr fun x hx => ?_
      exact (hold (isHandle_of_handleOf hx)).symm
  · intro x y hx hy
    rw [connected_cons_of_ne hclone]
    -- The new cell belongs to the new handle alone, and the old ones are shared as before.
    rcases hx with ⟨-, rfl⟩ | hx <;> rcases hy with ⟨-, rfl⟩ | hy
    · exact ⟨fun _ => connected_refl events _, fun _ => rfl⟩
    · rw [hnew, hold hy]
      refine ⟨fun heq => ?_, fun hcon => absurd hcon.symm (happart hy)⟩
      exact absurd heq.symm (Nat.ne_of_lt (h.cellOf_lt hy))
    · rw [hnew, hold hx]
      refine ⟨fun heq => ?_, fun hcon => absurd hcon (happart hx)⟩
      exact absurd heq (Nat.ne_of_lt (h.cellOf_lt hx))
    · rw [hold hx, hold hy]
      exact h.shared x y hx hy
  · rintro x (⟨-, rfl⟩ | hx)
    · refine ⟨s, ?_, .here hinstalls (connected_refl _ _)⟩
      rw [hnew]
      exact List.getElem?_concat_length
    · obtain ⟨t, ht, hlast⟩ := h.holds x hx
      refine ⟨t, ?_, .before ?_ (hlast.congr fun y _ => (connected_cons_of_ne hclone).symm)⟩
      · rw [hold hx]
        exact (List.getElem?_append_left (h.cellOf_lt hx)).trans ht
      · intro y u hinst hcon
        obtain ⟨rfl, -⟩ := Prod.mk.inj (Option.some.inj (hinst.symm.trans hinstalls))
        exact happart hx ((connected_cons_of_ne hclone).mp hcon)

/-- A clone has the cell of its original. -/
theorem clone (h : Simulates cellOf events reg) (hz : handleOf events on = some z) :
    Simulates (fun x => cellOf (original events z x)) (.cloned as on :: events)
      (reg.share as (cellOf z)) := by
  have hsource : ∀ {x}, IsHandle (.cloned as on :: events) x →
      IsHandle events (original events z x) := by
    rintro x (⟨-, rfl⟩ | hx)
    · rw [original_length]
      exact isHandle_of_handleOf hz
    · rwa [original_of_lt z hx.lt]
  refine ⟨fun name => ?_, fun x y hx hy => ?_, fun x hx => ?_⟩
  · rw [cell?_share]
    by_cases hname : name = as
    · rw [if_pos hname, handleOf, if_pos (hname ▸ rfl), Option.map_some, original_length]
    · have hne : (EngineEvent.cloned as on).makes? ≠ some name := fun heq =>
        hname (Option.some.inj heq).symm
      rw [if_neg hname, handleOf_cons_of_ne hne, h.cell]
      refine Option.map_congr fun x hx => ?_
      rw [original_of_lt z (isHandle_of_handleOf hx).lt]
  · rw [connected_cloned_iff hz]
    exact h.shared _ _ (hsource hx) (hsource hy)
  · obtain ⟨s, hs, hlast⟩ := h.holds _ (hsource hx)
    refine ⟨s, hs, .before (by simp [installs]) (hlast.congr fun y hy => ?_)⟩
    rw [connected_cloned_iff hz, original_of_lt z hy]

/-- A reload gives the cell of the handle a new snapshot. -/
theorem reload (h : Simulates cellOf events reg) (hz : handleOf events on = some z) :
    Simulates cellOf (.reloaded on s :: events) (reg.replace (cellOf z) s) := by
  have hconnected : ∀ {x y}, Connected (.reloaded on s :: events) x y ↔ Connected events x y :=
    connected_cons_of_ne nofun
  have hinstalls : (EngineEvent.reloaded on s).installs events = some (z, s) :=
    installs_reloaded hz
  have hhandle : ∀ x, IsHandle (.reloaded on s :: events) x → IsHandle events x := by
    rintro x (⟨hmakes, -⟩ | hx)
    · cases hmakes
    · exact hx
  refine ⟨fun name => ?_, fun x y hx hy => ?_, fun x hx => ?_⟩
  · have hne : (EngineEvent.reloaded on s).makes? ≠ some name := nofun
    rw [handleOf_cons_of_ne hne]
    exact h.cell name
  · rw [hconnected]
    exact h.shared x y (hhandle x hx) (hhandle y hy)
  · have hzh : IsHandle events z := isHandle_of_handleOf hz
    -- Only the cell of the reloaded engine changes, which is that of what it is connected to.
    by_cases hcon : Connected events x z
    · refine ⟨s, ?_, .here hinstalls (hconnected.mpr hcon)⟩
      rw [(h.shared x z (hhandle x hx) hzh).mpr hcon]
      exact List.getElem?_set_self (h.cellOf_lt hzh)
    · obtain ⟨t, ht, hlast⟩ := h.holds x (hhandle x hx)
      have hcell : cellOf z ≠ cellOf x := fun heq =>
        hcon ((h.shared x z (hhandle x hx) hzh).mp heq.symm)
      refine ⟨t, (List.getElem?_set_ne hcell).trans ht, .before ?_ ?_⟩
      · intro y u hinst hy
        obtain ⟨rfl, -⟩ := Prod.mk.inj (Option.some.inj (hinst.symm.trans hinstalls))
        exact hcon (hconnected.mp hy)
      · exact hlast.congr fun y _ => hconnected.symm

/-- **Every event keeps the cells with the handles.** -/
theorem apply (h : Simulates cellOf events reg)
    (hsource : ∀ on, e.source? = some on → ∃ s, reg.current? on = some s) :
    ∃ cellOf', Simulates cellOf' (e :: events) (reg.apply e) := by
  cases e with
  | nothing => exact ⟨cellOf, h.idle rfl rfl rfl rfl⟩
  | held as s => exact ⟨cellOf, h.idle rfl rfl rfl rfl⟩
  | built as s => exact ⟨_, h.make rfl rfl nofun⟩
  | derived as on s => exact ⟨_, h.make rfl rfl nofun⟩
  | cloned as on =>
      obtain ⟨s, hs⟩ := hsource on rfl
      obtain ⟨z, hz, hcell⟩ := h.exists_handle hs
      simp only [Registry.apply, hcell]
      exact ⟨_, h.clone hz⟩
  | reloaded on t =>
      obtain ⟨s, hs⟩ := hsource on rfl
      obtain ⟨z, hz, hcell⟩ := h.exists_handle hs
      simp only [Registry.apply, hcell]
      exact ⟨_, h.reload hz⟩

end Simulates

/-- **A run keeps cells and handles together.** -/
theorem Run.simulates (h : Run events reg) : ∃ cellOf, Simulates cellOf events reg := by
  induction h with
  | start => exact ⟨id, fun name => rfl, fun x y hx => hx.elim, fun x hx => hx.elim⟩
  | step hrun hstep ih =>
      obtain ⟨cellOf, ih⟩ := ih
      rw [eq_apply_of_step hstep]
      exact ih.apply fun on hon => (EngineStep.does_event _ _).exists_of_source? hon

/-- An engine shows what was installed last in the group of its handle. -/
theorem Run.current?_eq_some_iff (h : Run events reg) : reg.current? name = some s ↔
    ∃ x, handleOf events name = some x ∧ LastInstalled (Connected events x) events s := by
  obtain ⟨cellOf, hsim⟩ := h.simulates
  exact hsim.current?_eq_some_iff

/-- Every engine shows a snapshot. -/
theorem Run.exists_current? (h : Run events reg) (hx : handleOf events name = some x) :
    ∃ s, reg.current? name = some s ∧ LastInstalled (Connected events x) events s := by
  obtain ⟨cellOf, hsim⟩ := h.simulates
  obtain ⟨s, -, hlast⟩ := hsim.holds x (isHandle_of_handleOf hx)
  exact ⟨s, h.current?_eq_some_iff.mpr ⟨x, hx, hlast⟩, hlast⟩

end Registry

end AccessPolicy
