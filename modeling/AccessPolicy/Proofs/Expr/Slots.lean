import AccessPolicy.Proofs.Ascending
import AccessPolicy.Proofs.Expr.Step

/-!
# Slots in expressions

* **A slot occurs in an expression** if the expression is the slot or the slot occurs in an operand
  (`Expr.mentions_iff`), that is, if it is one of the parts (`Expr.mentions_iff_mem_parts`). Binding
  takes out the slots that are given an entity, and no others (`Expr.mentions_bind`).
* `BlamesOnly S x` — if the result `x` blames a slot that is not linked, the slot is in `S`. What
  raises ordinary errors only blames none.
* **An evaluation blames only slots that occur** (`Expr.blamesOnly_evalAt`).
-/

namespace AccessPolicy

/-! ### Occurrences -/

namespace Expr

variable {s : Slot} {values : List (Slot × Uid)}

/-- A slot occurs in items if it occurs in one of them. -/
theorem mentionsItems_iff {es : List Expr} : mentionsItems s es ↔ ∃ e ∈ es, e.mentions s := by
  induction es with
  | nil => simp [mentionsItems]
  | cons e es ih => simp [mentionsItems, ih]

/-- And so it is for fields. -/
theorem mentionsFields_iff {fs : List (String × Expr)} :
    mentionsFields s fs ↔ ∃ e ∈ fs.map (·.2), e.mentions s := by
  induction fs with
  | nil => simp [mentionsFields]
  | cons f fs ih => rw [mentionsFields, Bool.or_eq_true, ih, List.map_cons, List.exists_mem_cons_iff]

/-- **A slot occurs** in the slot itself and where it occurs in an operand. -/
theorem mentions_iff {e : Expr} :
    e.mentions s ↔ e = slot s ∨ ∃ o ∈ e.operands, o.mentions s := by
  cases e with
  | slot t => simpa [mentions, operands] using eq_comm
  | set items => simp [mentions, operands, mentionsItems_iff]
  | record fields => simp [mentions, operands, mentionsFields_iff]
  | _ => simp [mentions, operands]

/-- A slot that occurs in an operand occurs in the expression. -/
theorem mentions_of_mem_operands {e o : Expr} (ho : o ∈ e.operands) (h : o.mentions s) :
    e.mentions s :=
  mentions_iff.mpr (.inr ⟨o, ho, h⟩)

/-- A slot occurs in an expression exactly if it is one of the parts. -/
theorem mentions_iff_mem_parts {e : Expr} : e.mentions s ↔ slot s ∈ e.parts := by
  induction e using induction_operands with
  | step e ih =>
      rw [mentions_iff, parts_eq_cons, List.mem_cons, List.mem_flatMap, eq_comm]
      refine or_congr_right ?_
      exact exists_congr fun o => and_congr_right fun ho => ih o ho

/-! ### Binding -/

/-- Slots are bound item by item. -/
theorem bindItems_eq_map (es : List Expr) : bindItems values es = es.map (bind values) := by
  induction es with
  | nil => rfl
  | cons e es ih => rw [bindItems, ih, List.map_cons]

/-- And field by field; keys are no expressions. -/
theorem bindFields_eq_map (fs : List (String × Expr)) :
    bindFields values fs = fs.map fun f => (f.1, f.2.bind values) := by
  induction fs with
  | nil => rfl
  | cons f fs ih => rw [bindFields, ih, List.map_cons]

/-- The operands of a bound expression are its bound operands. -/
theorem operands_bind (e : Expr) : (e.bind values).operands = e.operands.map (bind values) := by
  cases e with
  | slot t => rw [bind]; split <;> rfl
  | set items => simp [bind, operands, bindItems_eq_map]
  | record fields => simp [bind, operands, bindFields_eq_map, Function.comp_def]
  | _ => simp [bind, operands]

/-- A slot is left exactly if it is given no entity. -/
theorem bind_eq_slot_iff {e : Expr} :
    e.bind values = slot s ↔ e = slot s ∧ ¬Ascending.hasKey s values := by
  cases e with
  | slot t =>
      rw [bind, Ascending.hasKey]
      split
      · rename_i u hu
        refine iff_of_false nofun fun h => h.2 ?_
        cases h.1
        rw [hu]
        rfl
      · rename_i hnone
        refine ⟨fun h => ⟨h, ?_⟩, fun h => h.1⟩
        cases h
        simp [hnone]
  | _ => simp [bind]

/-- **Binding takes out** the slots that are given an entity. -/
theorem mentions_bind (e : Expr) :
    (e.bind values).mentions s ↔ e.mentions s ∧ ¬Ascending.hasKey s values := by
  induction e using induction_operands with
  | step e ih =>
      rw [mentions_iff, mentions_iff (e := e), bind_eq_slot_iff, operands_bind, or_and_right]
      refine or_congr_right ?_
      constructor
      · rintro ⟨_, hmem, h⟩
        obtain ⟨o, ho, rfl⟩ := List.mem_map.mp hmem
        exact ⟨⟨o, ho, ((ih o ho).mp h).1⟩, ((ih o ho).mp h).2⟩
      · rintro ⟨⟨o, ho, h⟩, hs⟩
        exact ⟨_, List.mem_map_of_mem ho, (ih o ho).mpr ⟨h, hs⟩⟩

end Expr

/-! ### Blame -/

/-- A result that blames a slot which is not linked blames one of the given slots. -/
def BlamesOnly {α : Type} (S : Slot → Prop) (x : Except EvalError α) : Prop :=
  ∀ name, x = .error (.unlinkedSlot name) → ∃ s, S s ∧ s.name = name

/-- An error that blames one of the given slots, if it blames a slot. -/
def EvalError.Blames (S : Slot → Prop) (e : EvalError) : Prop :=
  ∀ name, e = .unlinkedSlot name → ∃ s, S s ∧ s.name = name

/-- An ordinary error blames no slot. -/
theorem EvalError.Ordinary.blames {S : Slot → Prop} {e : EvalError} (h : e.Ordinary) :
    e.Blames S := by
  rintro name rfl
  exact h.elim

/-- What a result blames is a kind of error that it raises. -/
theorem blamesOnly_iff_raises {α : Type} {S : Slot → Prop} {x : Except EvalError α} :
    BlamesOnly S x ↔ Raises (EvalError.Blames S) x := by
  constructor
  · rintro h e rfl name rfl
    exact h name rfl
  · rintro h name rfl
    exact h _ rfl name rfl

namespace BlamesOnly

variable {α β : Type} {S T : Slot → Prop}

/-- A result blames nothing. -/
theorem ok {a : α} : BlamesOnly S (.ok a) := nofun

/-- To blame only some slots is to blame only slots of a wider kind. -/
theorem mono {x : Except EvalError α} (h : BlamesOnly S x) (hsub : ∀ s, S s → T s) :
    BlamesOnly T x := by
  intro name hname
  obtain ⟨s, hs, rfl⟩ := h name hname
  exact ⟨s, hsub s hs, rfl⟩

/-- What raises ordinary errors only blames nothing. -/
theorem of_ordinary {x : Except EvalError α} (h : Raises EvalError.Ordinary x) :
    BlamesOnly S x :=
  blamesOnly_iff_raises.mpr (h.mono fun _ he => he.blames)

/-- A sequence blames what its parts blame. -/
theorem bind {x : Except EvalError α} {f : α → Except EvalError β} (hx : BlamesOnly S x)
    (hf : ∀ a, BlamesOnly S (f a)) : BlamesOnly S (x >>= f) := by
  simp only [blamesOnly_iff_raises] at hx hf ⊢
  exact hx.bind hf

/-- A result blames nothing if it may only blame nothing. -/
theorem ne_error {x : Except EvalError α} (h : BlamesOnly S x) (hS : ∀ s, ¬S s) (name : String) :
    x ≠ .error (.unlinkedSlot name) := by
  intro hname
  obtain ⟨s, hs, -⟩ := h name hname
  exact hS s hs

end BlamesOnly

/-- **An evaluation blames only slots that occur.** -/
theorem Expr.blamesOnly_evalAt {env : Env} {limit : Nat} (e : Expr) (d : Nat) :
    BlamesOnly (fun s => e.mentions s) (e.evalAt env limit d) := by
  induction e using induction_operands generalizing d with
  | step e ih =>
      rw [evalAt_eq]
      split
      · exact fun name hname => nomatch hname
      · cases hshort : e.shortcut? env with
        | some x => exact .of_ordinary (raises_shortcut hshort)
        | none =>
            refine blamesOnly_iff_raises.mpr (raises_step (fun x hx => hx.blames) ?_ ?_)
            · intro s hs name hname
              cases hname
              exact ⟨s, mentions_iff.mpr (.inl hs), rfl⟩
            · intro o ho
              have hmono := (ih o ho (d + 1)).mono fun s => mentions_of_mem_operands ho
              exact blamesOnly_iff_raises.mp hmono

end AccessPolicy
