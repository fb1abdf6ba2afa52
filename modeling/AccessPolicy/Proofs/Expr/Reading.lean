import AccessPolicy.Proofs.Expr.Slots

/-!
# Expressions whose slots are read

A template mentions slots, and an evaluation cannot go past one. Here a slot is read as an entity
instead, by a function that says which one.

* `Slot.boundTo values` — reads a slot as the entity that is bound to it, and `Slot.unlinked` reads
  none.
* `Expr.evalWithin read env limit levels e` — what `e` comes to if slots are read by `read` and as
  many levels of `e` may be entered. Without entities for slots this is the evaluation
  (`Expr.evalAt_eq_evalWithin`), and it differs from it at slots only, as each other level is one
  step of the evaluation.
* **Binding is reading** (`Expr.eval_bind`): to put entities in the place of slots comes to the same
  as to read them, whatever the limit is and whichever error comes first.
-/

namespace AccessPolicy

namespace Slot

/-- To read a slot for which there is no entity. -/
def unlinked (s : Slot) : Except EvalError Uid :=
  .error (.unlinkedSlot s.name)

/-- To read a slot as the entity that is bound to it. -/
def boundTo (values : List (Slot × Uid)) (s : Slot) : Except EvalError Uid :=
  match Ascending.get? s values with
  | some u => .ok u
  | none => s.unlinked

end Slot

namespace Expr

variable {env : Env} {limit : Nat} {values : List (Slot × Uid)} {s : Slot}
  {value : Expr → Except EvalError Value}

/-! ### Reading -/

/-- What an expression comes to if slots are read and a number of levels may be entered. A slot
takes a level, as the literal of the entity would that it is read as. -/
def evalWithin (read : Slot → Except EvalError Uid) (env : Env) (limit : Nat) :
    (levels : Nat) → Expr → Except EvalError Value
  | 0, _ => .error (.recursionLimit limit)
  | _ + 1, slot s => (read s).map .entity
  | levels + 1, e => (e.shortcut? env).getD (step env (evalWithin read env limit levels) e)

/-- What an expression comes to if slots are read. -/
def evalBy (read : Slot → Except EvalError Uid) (env : Env) (limit : Nat) (e : Expr) :
    Except EvalError Value :=
  e.evalWithin read env limit (limit + 1)

/-- An expression that is no slot comes to what a step makes of its operands. -/
theorem evalWithin_succ {read : Slot → Except EvalError Uid} {levels : Nat} {e : Expr}
    (h : ∀ s, e ≠ slot s) : e.evalWithin read env limit (levels + 1) =
      (e.shortcut? env).getD (step env (evalWithin read env limit levels) e) := by
  cases e with
  | slot s => exact absurd rfl (h s)
  | _ => rfl

/-- **Where no slot has an entity**, an evaluation enters the levels that its limit leaves to it. -/
theorem evalAt_eq_evalWithin (e : Expr) (d : Nat) :
    e.evalAt env limit d = e.evalWithin Slot.unlinked env limit (limit + 1 - d) := by
  generalize hlevels : limit + 1 - d = levels
  induction levels generalizing e d with
  | zero =>
      have hd : limit < d := by omega
      rw [evalAt_eq, if_pos hd]
      rfl
  | succ levels ih =>
      have hd : ¬limit < d := by omega
      have hoperands : (fun o : Expr => o.evalAt env limit (d + 1)) =
          evalWithin Slot.unlinked env limit levels := by
        funext o
        exact ih o (d + 1) (by omega)
      rw [evalAt_eq, if_neg hd, hoperands]
      cases e <;> rfl

theorem eval_eq_evalBy (e : Expr) : e.eval env limit = e.evalBy Slot.unlinked env limit :=
  evalAt_eq_evalWithin e 0

/-! ### Binding -/

/-- Binding makes no expression the context. -/
theorem eq_context_of_bind {e : Expr} (h : e.bind values = var .context) : e = var .context := by
  cases e with
  | var v => exact h
  | slot s =>
      rw [bind] at h
      split at h <;> cases h
  | _ => cases h

/-- What is read of the context at once mentions no slot. -/
theorem shortcut?_bind (e : Expr) : (e.bind values).shortcut? env = e.shortcut? env := by
  cases e with
  | getAttr o name =>
      by_cases ho : o = var .context
      · rw [ho]
        rfl
      · rw [bind, (shortcut?_of_ne (mt eq_context_of_bind ho) name).1, (shortcut?_of_ne ho name).1]
  | hasAttr o name =>
      by_cases ho : o = var .context
      · rw [ho]
        rfl
      · rw [bind, (shortcut?_of_ne (mt eq_context_of_bind ho) name).2, (shortcut?_of_ne ho name).2]
  | slot s =>
      rw [bind]
      split <;> rfl
  | _ => rfl

/-- A step looks at the operands of an expression only through their values. -/
theorem step_bind {e : Expr} (h : ∀ s, e ≠ slot s) :
    step env value (e.bind values) = step env (fun o => value (o.bind values)) e := by
  cases e with
  | slot s => exact absurd rfl (h s)
  | set items =>
      rw [bind, bindItems_eq_map]
      simp only [step, List.mapM_map]
      rfl
  | record fields =>
      rw [bind, bindFields_eq_map]
      simp only [step, List.mapM_map]
      rfl
  | _ => rfl

/-- A bound slot comes to the entity that it is read as. -/
theorem evalWithin_bind_slot (s : Slot) (levels : Nat) :
    ((slot s).bind values).evalWithin Slot.unlinked env limit (levels + 1) =
      (Slot.boundTo values s).map .entity := by
  rw [bind, Slot.boundTo]
  cases Ascending.get? s values with
  | none => rfl
  | some u => rfl

theorem evalWithin_bind (e : Expr) (levels : Nat) :
    (e.bind values).evalWithin Slot.unlinked env limit levels =
      e.evalWithin (Slot.boundTo values) env limit levels := by
  induction levels generalizing e with
  | zero => rfl
  | succ levels ih =>
      by_cases hslot : ∃ s, e = slot s
      · obtain ⟨s, rfl⟩ := hslot
        exact evalWithin_bind_slot s levels
      · have he : ∀ s, e ≠ slot s := not_exists.mp hslot
        have hbound : ∀ s, e.bind values ≠ slot s := fun s hs => he s (bind_eq_slot_iff.mp hs).1
        have hoperands :
            (fun o : Expr => (o.bind values).evalWithin Slot.unlinked env limit levels) =
            evalWithin (Slot.boundTo values) env limit levels := funext ih
        rw [evalWithin_succ hbound, evalWithin_succ he, shortcut?_bind, step_bind he, hoperands]

/-- **Binding is reading.** -/
theorem eval_bind (e : Expr) :
    (e.bind values).eval env limit = e.evalBy (Slot.boundTo values) env limit := by
  rw [eval_eq_evalBy]
  exact evalWithin_bind e (limit + 1)

end Expr

end AccessPolicy
