import AccessPolicy.Proofs.Ascending
import AccessPolicy.Proofs.Expr.Slots
import AccessPolicy.Proofs.Expr.Step

/-!
# The limit on the depth of evaluations

* `Refused x` — the result `x` is that the limit was exceeded.
* **A higher limit changes no other result** (`Expr.eval_of_le`).
* `Expr.denote env e` — what `e` comes to without a limit, where the context is evaluated before its
  attributes are read.
* `SameButTarget x y` — the results `x` and `y` are equal, but for what they call the thing that an
  attribute was not found on.
* **An evaluation whose limit is the depth of the expression** is never refused, and it comes to
  what the expression denotes (`Expr.eval_of_depth_le`). Binding slots keeps the depth
  (`Expr.depth_bind`).
* `Expr.Means e v` — the expression comes to the value in every environment, if nothing limits its
  depth. Literals do, and sets and records of what does. **An evaluation within its limit** gives
  what an expression means (`Expr.Means.eval`).
-/

namespace AccessPolicy

/-! ### Refused evaluations -/

/-- The limit was exceeded. -/
def Refused {α : Type} (x : Except EvalError α) : Prop :=
  ∃ limit, x = .error (.recursionLimit limit)

/-- The errors other than an exceeded limit. -/
def EvalError.Unlimited (e : EvalError) : Prop :=
  ∀ limit, e ≠ .recursionLimit limit

/-- An ordinary error is not about the limit. -/
theorem EvalError.Ordinary.unlimited {e : EvalError} (h : e.Ordinary) : e.Unlimited := by
  rintro limit rfl
  exact h

/-- A result is not refused exactly if it raises something else or nothing. -/
theorem not_refused_iff {α : Type} {x : Except EvalError α} :
    ¬Refused x ↔ Raises EvalError.Unlimited x := by
  constructor
  · rintro h e rfl limit rfl
    exact h ⟨limit, rfl⟩
  · rintro h ⟨limit, rfl⟩
    exact h _ rfl limit rfl

/-- The second result is the first one, unless that was refused. -/
def Extends {α : Type} (x y : Except EvalError α) : Prop :=
  Refused x ∨ x = y

/-- Extending a result is compatible with going on with it. -/
theorem compatible_extends : Compatible @Extends where
  ordinary _ := .inr rfl
  bind := by
    rintro α β x y f g (⟨limit, rfl⟩ | rfl) hf
    · exact .inl ⟨limit, rfl⟩
    · cases x with
      | ok a => exact hf a
      | error e => exact .inr rfl

/-! ### Results without a limit

What an expression denotes is defined without counting levels. Attributes of the context need no
case of their own here, which changes how a missing one is reported. -/

/-- The results are equal, but for the name of the record that lacks an attribute. -/
def SameButTarget {α : Type} (x y : Except EvalError α) : Prop :=
  x = y ∨ ∃ name, x = .error (.attributeNotFound "context" name) ∧
    y = .error (.attributeNotFound "record" name)

/-- Equality but for the record that lacks an attribute is compatible with going on. -/
theorem compatible_sameButTarget : Compatible @SameButTarget where
  ordinary _ := .inl rfl
  bind := by
    rintro α β x y f g (rfl | ⟨name, rfl, rfl⟩) hf
    · cases x with
      | ok a => exact hf a
      | error e => exact .inl rfl
    · exact .inr ⟨name, rfl, rfl⟩

/-- What is refused is refused under another name. -/
theorem SameButTarget.refused {α : Type} {x y : Except EvalError α} (h : SameButTarget x y)
    (hx : Refused x) : Refused y := by
  obtain ⟨limit, rfl⟩ := hx
  rcases h with rfl | ⟨name, hname, -⟩
  · exact ⟨limit, rfl⟩
  · cases hname

namespace Expr

mutual

/-- What an expression comes to, however deep it is. The context is a record like any other. -/
def denote (env : Env) : Expr → Except EvalError Value
  | lit l => .ok l.value
  | var v => .ok (env.var v)
  | slot s => .error (.unlinkedSlot s.name)
  | unary op e => do
    let v ← denote env e
    Env.unary op v
  | and a b => do
    let v ← denote env a
    if ← v.asBool then
      let w ← denote env b
      pure (.bool (← w.asBool))
    else pure (.bool false)
  | or a b => do
    let v ← denote env a
    if ← v.asBool then pure (.bool true)
    else
      let w ← denote env b
      pure (.bool (← w.asBool))
  | ite c t e => do
    let v ← denote env c
    if ← v.asBool then denote env t else denote env e
  | binary op a b => do
    let v ← denote env a
    let w ← denote env b
    env.binary op v w
  | getAttr e name => do
    let v ← denote env e
    env.getAttr v name
  | hasAttr e name => do
    let v ← denote env e
    pure (.bool (← env.hasAttr v name))
  | like e p => do
    let v ← denote env e
    pure (.bool (Pattern.accepts p (← v.asString)))
  | is e t => do
    let v ← denote env e
    let u ← v.asEntity
    pure (.bool (u.type = t))
  | isMem e t g => do
    let v ← denote env e
    let u ← v.asEntity
    if u.type = t then
      let w ← denote env g
      pure (.bool (← env.mem u w))
    else pure (.bool false)
  | set items => (denoteItems env items).map .ofItems
  | record fields => (denoteFields env fields).map .ofFields

/-- What the expressions of a list come to. -/
def denoteItems (env : Env) : List Expr → Except EvalError (List Value)
  | [] => .ok []
  | e :: es => do
    let v ← denote env e
    let vs ← denoteItems env es
    pure (v :: vs)

/-- What the expressions of fields come to. -/
def denoteFields (env : Env) : List (String × Expr) → Except EvalError (List (String × Value))
  | [] => .ok []
  | (k, e) :: fs => do
    let v ← denote env e
    let vs ← denoteFields env fs
    pure ((k, v) :: vs)

end

variable {env : Env} {limit limit' : Nat}

/-- Items are evaluated in order, up to the first error. -/
theorem denoteItems_eq_mapM (es : List Expr) : denoteItems env es = es.mapM (denote env) := by
  induction es with
  | nil => rfl
  | cons e es ih => rw [denoteItems, ih, List.mapM_cons]

/-- Fields are evaluated in order, up to the first error. -/
theorem denoteFields_eq_mapM (fs : List (String × Expr)) :
    denoteFields env fs = fs.mapM fun f => (f.2.denote env).map (f.1, ·) := by
  induction fs with
  | nil => rfl
  | cons f fs ih =>
      rw [denoteFields, ih, List.mapM_cons]
      cases f.2.denote env <;> rfl

/-- What an expression denotes is one step from what its operands denote. -/
theorem denote_eq (e : Expr) : e.denote env = step env (denote env) e := by
  cases e with
  | set items =>
      rw [denote, denoteItems_eq_mapM]
      rfl
  | record fields =>
      rw [denote, denoteFields_eq_mapM]
      rfl
  | _ => rfl

/-- Without a limit nothing is refused. -/
theorem raises_denote (e : Expr) : Raises EvalError.Unlimited (e.denote env) := by
  induction e using induction_operands with
  | step e ih =>
      rw [denote_eq]
      exact raises_step (fun x hx => hx.unlimited) (fun s _ => nofun) ih

/-! ### Higher limits -/

/-- An evaluation with a higher limit extends one with a lower limit, at every depth. -/
theorem extends_evalAt (h : limit ≤ limit') (e : Expr) (d : Nat) :
    Extends (e.evalAt env limit d) (e.evalAt env limit' d) := by
  induction e using induction_operands generalizing d with
  | step e ih =>
      rw [evalAt_eq, evalAt_eq]
      by_cases hd : limit < d
      · rw [if_pos hd]
        exact .inl ⟨limit, rfl⟩
      · have hd' : ¬limit' < d := by omega
        rw [if_neg hd, if_neg hd']
        -- The shortcut looks at the form of the expression only, so both sides take it or neither.
        cases e.shortcut? env with
        | some x => exact .inr rfl
        | none =>
            refine step_rel compatible_extends (fun s _ => .inr rfl) ?_
            intro o ho
            exact ih o ho (d + 1)

/-- **A higher limit changes no result** but that of exceeding the lower one. -/
theorem eval_of_le (h : limit ≤ limit') {e : Expr} (hx : ¬Refused (e.eval env limit)) :
    e.eval env limit' = e.eval env limit := by
  rcases extends_evalAt h e 0 with hrefused | heq
  · exact absurd hrefused hx
  · exact heq.symm

/-! ### Limits that are not exceeded -/

/-- What is read of the context at once is what a step would read. -/
theorem sameButTarget_shortcut {e : Expr} {x : Except EvalError Value}
    (h : e.shortcut? env = some x) : SameButTarget x (e.denote env) := by
  unfold shortcut? at h
  split at h
  · rename_i name
    rw [← Option.some.inj h]
    have hdenote : (getAttr (var .context) name).denote env =
        env.getAttr (.record env.request.context) name := rfl
    rw [hdenote, Env.getAttr, Env.contextAttr]
    cases Ascending.get? name env.request.context with
    | some v => exact .inl rfl
    | none => exact .inr ⟨name, rfl, rfl⟩
  · rw [← Option.some.inj h]
    exact .inl rfl
  · cases h

/-- An evaluation with room for the whole expression comes to what the expression denotes, but for
the name of a record that lacks an attribute. -/
theorem sameButTarget_evalAt (e : Expr) (d : Nat) (h : d + e.depth ≤ limit) :
    SameButTarget (e.evalAt env limit d) (e.denote env) := by
  induction e using induction_operands generalizing d with
  | step e ih =>
      have hd : ¬limit < d := by omega
      rw [evalAt_eq, if_neg hd]
      cases hshort : e.shortcut? env with
      | some x => exact sameButTarget_shortcut hshort
      | none =>
          rw [denote_eq]
          refine step_rel compatible_sameButTarget (fun s _ => .inl rfl) ?_
          intro o ho
          -- An operand stands one deeper, and is less deep itself.
          have hlt := depth_lt_of_mem_operands ho
          exact ih o ho (d + 1) (by omega)

/-- **An expression within the limit** is never refused, and it comes to what it denotes. -/
theorem eval_of_depth_le {e : Expr} (h : e.depth ≤ limit) :
    ¬Refused (e.eval env limit) ∧ SameButTarget (e.eval env limit) (e.denote env) := by
  have hsame : SameButTarget (e.eval env limit) (e.denote env) :=
    sameButTarget_evalAt e 0 (by omega)
  refine ⟨fun hrefused => ?_, hsame⟩
  exact not_refused_iff.mpr (raises_denote e) (hsame.refused hrefused)

/-! ### Depth and slots -/

/-- Binding slots keeps the depth of items if it keeps that of each. -/
theorem depthItems_bind {values : List (Slot × Uid)} {es : List Expr}
    (h : ∀ e ∈ es, (e.bind values).depth = e.depth) :
    depthItems (es.map (bind values)) = depthItems es := by
  induction es with
  | nil => rfl
  | cons e es ih =>
      obtain ⟨he, hes⟩ := List.forall_mem_cons.mp h
      rw [List.map_cons, depthItems, depthItems, he, ih hes]

/-- Binding slots keeps the depth of fields if it keeps that of each. -/
theorem depthFields_bind {values : List (Slot × Uid)} {fs : List (String × Expr)}
    (h : ∀ f ∈ fs, (f.2.bind values).depth = f.2.depth) :
    depthFields (fs.map fun f => (f.1, f.2.bind values)) = depthFields fs := by
  induction fs with
  | nil => rfl
  | cons f fs ih =>
      obtain ⟨hf, hfs⟩ := List.forall_mem_cons.mp h
      rw [List.map_cons, depthFields, depthFields, hf, ih hfs]

/-- **Binding slots keeps the depth.** -/
theorem depth_bind (values : List (Slot × Uid)) (e : Expr) : (e.bind values).depth = e.depth := by
  induction e using induction_operands with
  | step e ih =>
      cases e with
      | lit l | var v => rfl
      | slot s =>
          rw [bind]
          split <;> rfl
      | set items =>
          rw [bind, bindItems_eq_map]
          exact depthItems_bind ih
      | record fields =>
          rw [bind, bindFields_eq_map]
          exact depthFields_bind fun f hf => ih f.2 (List.mem_map_of_mem hf)
      | ite c t e =>
          simp only [operands, List.forall_mem_cons] at ih
          rw [bind, depth, depth, ih.1, ih.2.1, ih.2.2.1]
      | binary op a b | and a b | or a b | isMem a t b =>
          simp only [operands, List.forall_mem_cons] at ih
          rw [bind, depth, depth, ih.1, ih.2.1]
      | unary op e | getAttr e name | hasAttr e name | like e p | is e t =>
          simp only [operands, List.forall_mem_cons] at ih
          rw [bind, depth, depth, ih.1]

/-! ### Expressions that mean a value -/

/-- The expression comes to the value in every environment. -/
def Means (e : Expr) (v : Value) : Prop :=
  ∀ env, e.denote env = .ok v

/-- A literal means its value. -/
theorem means_lit (l : Literal) : (lit l).Means l.value :=
  fun _ => rfl

/-- A set means the set of what its items mean. -/
theorem means_set {es : List Expr} {vs : List Value} (h : List.Forall₂ Means es vs) :
    (set es).Means (.ofItems vs) := by
  intro env
  rw [denote, denoteItems_eq_mapM, map_eq_ok]
  exact ⟨vs, mapM_eq_ok.mpr (h.imp fun e v hv => hv env), rfl⟩

/-- A record means the record of what its fields mean. -/
theorem means_record {fs : List (String × Expr)} {vs : List (String × Value)}
    (h : Ascending.Agree Means fs vs) : (record fs).Means (.ofFields vs) := by
  intro env
  rw [denote, denoteFields_eq_mapM, map_eq_ok]
  refine ⟨vs, mapM_eq_ok.mpr (List.Forall₂.imp ?_ h), rfl⟩
  rintro ⟨k, e⟩ ⟨_, v⟩ ⟨rfl, hv⟩
  exact map_eq_ok.mpr ⟨v, hv env, rfl⟩

/-- **Within a limit** that is not below its depth, an expression is evaluated to what it means. -/
theorem Means.eval {e : Expr} {v : Value} (h : e.Means v) (env : Env) {limit : Nat}
    (hlimit : e.depth ≤ limit) : e.eval env limit = .ok v := by
  have hsame : SameButTarget (e.eval env limit) (e.denote env) := (eval_of_depth_le hlimit).2
  rcases hsame with heq | ⟨name, -, hdenote⟩
  · rw [heq, h env]
  · cases (h env).symm.trans hdenote

end Expr

end AccessPolicy
