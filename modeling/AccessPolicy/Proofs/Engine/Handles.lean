import AccessPolicy.Proofs.Engine.Run
import Mathlib.Logic.Relation

/-!
# Handles of engines

A name stands for an engine only until it is given to another one. What the parts of a run have in
common are handles: every step that makes an engine makes a new handle, the number of the steps
before it.

* `EngineEvent.handleOf` — the handle that a name stands for after a run.
* `EngineEvent.Connected` — the handles that are connected by clone: in either direction and over
  any number of clones.
* **A clone is connected as its original is** (`EngineEvent.connected_cloned_iff`), and no other
  event connects anything (`EngineEvent.connected_cons_of_ne`). So what two handles have to do with
  each other never changes (`EngineEvent.connected_append_iff`), and a handle that was not made by
  cloning is connected to no earlier one (`EngineEvent.not_connected_length`).
-/

namespace AccessPolicy.EngineEvent

/-- The handle that a name stands for. -/
def handleOf : List EngineEvent → String → Option Nat
  | [], _ => none
  | e :: es, name => if e.makes? = some name then some es.length else handleOf es name

/-- Whether a number is a handle: a step behind as many others has made an engine. -/
def IsHandle : List EngineEvent → Nat → Prop
  | [], _ => False
  | e :: es, x => (e.makes?.isSome ∧ x = es.length) ∨ IsHandle es x

/-- The second handle was made by cloning the first. -/
def ClonedFrom : List EngineEvent → Nat → Nat → Prop
  | [], _, _ => False
  | e :: es, x, y =>
    (∃ as on, e = .cloned as on ∧ handleOf es on = some x ∧ y = es.length) ∨ ClonedFrom es x y

/-- The handles are connected by clone. -/
def Connected (events : List EngineEvent) : Nat → Nat → Prop :=
  Relation.EqvGen (ClonedFrom events)

variable {e : EngineEvent} {es new old : List EngineEvent} {x y z : Nat} {name : String}

/-! ### Names and handles -/

/-- A handle is smaller than the number of the steps. -/
theorem IsHandle.lt : {es : List EngineEvent} → IsHandle es x → x < es.length
  | _ :: es, .inl h => h.2 ▸ Nat.lt_succ_self es.length
  | _ :: _, .inr h => Nat.lt_succ_of_lt h.lt

/-- What a name stands for is a handle. -/
theorem isHandle_of_handleOf : {es : List EngineEvent} → handleOf es name = some x → IsHandle es x
  | e :: es, h => by
      unfold handleOf at h
      split at h
      · rename_i hmakes
        exact .inl ⟨by simp [hmakes], (Option.some.inj h).symm⟩
      · exact .inr (isHandle_of_handleOf h)

/-- A step that makes no engine under a name leaves the name to its handle. -/
theorem handleOf_cons_of_ne (h : e.makes? ≠ some name) :
    handleOf (e :: es) name = handleOf es name :=
  if_neg h

/-! ### Clones -/

/-- Both ends of a clone are smaller than the number of the steps. -/
theorem ClonedFrom.lt : {es : List EngineEvent} → ClonedFrom es x y → x < es.length ∧ y < es.length
  | _ :: es, .inl ⟨_, _, _, hx, hy⟩ =>
      ⟨Nat.lt_succ_of_lt (isHandle_of_handleOf hx).lt, hy ▸ Nat.lt_succ_self es.length⟩
  | _ :: _, .inr h => ⟨Nat.lt_succ_of_lt h.lt.1, Nat.lt_succ_of_lt h.lt.2⟩

theorem connected_refl (events : List EngineEvent) (x : Nat) : Connected events x x :=
  .refl x

theorem Connected.symm (h : Connected es x y) : Connected es y x :=
  Relation.EqvGen.symm x y h

theorem Connected.trans (hxy : Connected es x y) (hyz : Connected es y z) : Connected es x z :=
  Relation.EqvGen.trans x y z hxy hyz

/-- What is no handle yet is connected to nothing but itself. -/
theorem Connected.eq_of_length_le (h : Connected es x y) :
    es.length ≤ x ∨ es.length ≤ y → x = y := by
  induction h with
  | rel x y h => exact fun hle => by have := h.lt; omega
  | refl x => exact fun _ => rfl
  | symm x y _ ih => exact fun hle => (ih hle.symm).symm
  | trans x y z _ _ ihxy ihyz =>
      rintro (hle | hle)
      · have hxy : x = y := ihxy (.inl hle)
        exact hxy.trans (ihyz (.inl (hxy ▸ hle)))
      · have hyz : y = z := ihyz (.inr hle)
        exact (ihxy (.inr (hyz ▸ hle))).trans hyz

/-- An event that is no clone connects nothing. -/
theorem connected_cons_of_ne (h : ∀ as on, e ≠ .cloned as on) :
    Connected (e :: es) x y ↔ Connected es x y := by
  have hcloned : ClonedFrom (e :: es) = ClonedFrom es := by
    funext x y
    refine propext (or_iff_right ?_)
    rintro ⟨as, on, rfl, -⟩
    exact h as on rfl
  unfold Connected
  rw [hcloned]

/-- The original in place of the clone that is made behind the given events. -/
def original (es : List EngineEvent) (z x : Nat) : Nat :=
  if x = es.length then z else x

@[simp] theorem original_length (es : List EngineEvent) (z : Nat) : original es z es.length = z :=
  if_pos rfl

theorem original_of_lt (z : Nat) (h : x < es.length) : original es z x = x :=
  if_neg (Nat.ne_of_lt h)

/-- **A clone is connected as its original is.** -/
theorem connected_cloned_iff {as on : String} (hz : handleOf es on = some z) :
    Connected (.cloned as on :: es) x y ↔ Connected es (original es z x) (original es z y) := by
  have hnew : ClonedFrom (.cloned as on :: es) z es.length := .inl ⟨as, on, rfl, hz, rfl⟩
  constructor
  · intro h
    induction h with
    | rel x y h =>
        rcases h with ⟨as', on', heq, hx, rfl⟩ | h
        · cases heq
          obtain rfl : z = x := Option.some.inj (hz.symm.trans hx)
          rw [original_length, original_of_lt z (isHandle_of_handleOf hz).lt]
          exact .refl z
        · rw [original_of_lt z h.lt.1, original_of_lt z h.lt.2]
          exact .rel x y h
    | refl x => exact .refl _
    | symm x y _ ih => exact ih.symm
    | trans x y z _ _ ihxy ihyz => exact ihxy.trans ihyz
  · intro h
    -- each end is connected to its original, and what was connected still is
    have hend : ∀ x, Connected (.cloned as on :: es) x (original es z x) := by
      intro x
      unfold original
      split
      · rename_i hx
        exact hx ▸ (Relation.EqvGen.rel _ _ hnew).symm
      · exact .refl x
    have hkeep : ClonedFrom es ≤ ClonedFrom (.cloned as on :: es) := fun _ _ h => .inr h
    have hold : Connected (.cloned as on :: es) (original es z x) (original es z y) :=
      Relation.EqvGen.mono hkeep _ _ h
    exact (hend x).trans (hold.trans (hend y).symm)

/-- An event leaves earlier handles connected as they were. -/
theorem connected_cons_iff (hx : x < es.length) (hy : y < es.length) :
    Connected (e :: es) x y ↔ Connected es x y := by
  cases e with
  | cloned as on =>
      cases hon : handleOf es on with
      | none =>
          have hcloned : ClonedFrom (.cloned as on :: es) = ClonedFrom es := by
            funext x y
            refine propext (or_iff_right ?_)
            rintro ⟨as', on', heq, hx, -⟩
            cases heq
            exact Option.some_ne_none x (hx.symm.trans hon)
          unfold Connected
          rw [hcloned]
      | some z => rw [connected_cloned_iff hon, original_of_lt z hx, original_of_lt z hy]
  | nothing | built as s | derived as on s | reloaded on s | held as s =>
      exact connected_cons_of_ne nofun

/-- **What two handles have to do with each other never changes.** -/
theorem connected_append_iff (hx : x < old.length) (hy : y < old.length) :
    Connected (new ++ old) x y ↔ Connected old x y := by
  induction new with
  | nil => rfl
  | cons e new ih =>
      have hle : old.length ≤ (new ++ old).length := by simp
      have hx' : x < (new ++ old).length := Nat.lt_of_lt_of_le hx hle
      have hy' : y < (new ++ old).length := Nat.lt_of_lt_of_le hy hle
      rw [List.cons_append, connected_cons_iff hx' hy', ih]

/-- **A handle that was not made by cloning** is connected to no earlier one. -/
theorem not_connected_length (h : ∀ as on, e ≠ .cloned as on) (hx : x < es.length) :
    ¬ Connected (new ++ e :: es) x es.length := by
  intro hcon
  have hx' : x < (e :: es).length := Nat.lt_succ_of_lt hx
  rw [connected_append_iff hx' (Nat.lt_succ_self _), connected_cons_of_ne h] at hcon
  exact Nat.ne_of_lt hx (hcon.eq_of_length_le (.inr (Nat.le_refl _)))

end AccessPolicy.EngineEvent
