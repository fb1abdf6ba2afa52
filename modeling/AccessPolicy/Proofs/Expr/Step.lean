import AccessPolicy.Expr.Eval
import AccessPolicy.Proofs.Except
import AccessPolicy.Proofs.Expr.Parts

/-!
# One step of an evaluation

* `Expr.step env value e` — what `e` comes to if `value` gives the values of its operands. **An
  evaluation within its limit** is this step, but for the attributes of the context, which are read
  at once (`Expr.evalAt_eq`).
* `Raises E x` — if the result `x` is an error, the error is one of `E`. The operations on values
  raise ordinary errors only, which blame neither the depth nor a slot.
* `Compatible R` — the relation `R` between results holds of what raises ordinary errors only, and
  sequences keep it. **A step keeps it** (`Expr.step_rel`): it holds of two evaluations of `e` if it
  holds of the evaluations of the operands of `e`. This is the only look at the constructors.
-/

namespace AccessPolicy

/-- A mapped result is a sequence that ends in a value. -/
theorem map_eq_bind {ε α β : Type} (x : Except ε α) (f : α → β) :
    x.map f = x >>= fun a => .ok (f a) := by
  cases x <;> rfl

/-! ### The errors that a result may be -/

/-- An error that blames neither the depth of an expression nor a slot. -/
def EvalError.Ordinary : EvalError → Prop
  | recursionLimit _ | unlinkedSlot _ => False
  | _ => True

/-- If a result is an error, it is one of the given ones. -/
def Raises {α : Type} (E : EvalError → Prop) (x : Except EvalError α) : Prop :=
  ∀ e, x = .error e → E e

namespace Raises

variable {α β : Type} {E F : EvalError → Prop}

/-- A result raises nothing. -/
theorem ok {a : α} : Raises E (.ok a) := nofun

/-- What fails with an error raises that error. -/
theorem error {e : EvalError} (h : E e) : Raises E (.error e : Except EvalError α) := by
  intro e' he'
  rw [← Except.error.inj he']
  exact h

/-- Errors of a kind are errors of every wider kind. -/
theorem mono {x : Except EvalError α} (h : Raises E x) (hsub : ∀ e, E e → F e) : Raises F x :=
  fun e he => hsub e (h e he)

/-- A sequence raises what its parts raise. -/
theorem bind {x : Except EvalError α} {f : α → Except EvalError β} (hx : Raises E x)
    (hf : ∀ a, Raises E (f a)) : Raises E (x >>= f) := by
  cases x with
  | ok a => exact hf a
  | error e => exact error (hx e rfl)

/-! ### Operations on values

An operation fails because a value is of the wrong kind, because an entity or an attribute is not
there, or because a number is too large. None of this is about depth or slots. -/

variable {v w : Value} {env : Env}

/-- The failure of finding a value of the wrong kind is an ordinary one. -/
theorem mismatch {expected : String} :
    Raises EvalError.Ordinary (v.mismatch expected : Except EvalError α) :=
  error trivial

/-- Looking into a value raises an ordinary error at most, whatever is wanted of it. -/
theorem asBool : Raises EvalError.Ordinary v.asBool := by
  cases v <;> first | exact ok | exact mismatch

theorem asLong : Raises EvalError.Ordinary v.asLong := by
  cases v <;> first | exact ok | exact mismatch

theorem asString : Raises EvalError.Ordinary v.asString := by
  cases v <;> first | exact ok | exact mismatch

theorem asEntity : Raises EvalError.Ordinary v.asEntity := by
  cases v <;> first | exact ok | exact mismatch

theorem asSet : Raises EvalError.Ordinary v.asSet := by
  cases v <;> first | exact ok | exact mismatch

/-- The first item that is no entity decides. -/
theorem asEntities (vs : List Value) : Raises EvalError.Ordinary (Value.asEntities vs) := by
  induction vs with
  | nil => exact ok
  | cons v vs ih => exact asEntity.bind fun u => ih.bind fun us => ok

theorem groupOf : Raises EvalError.Ordinary (Env.groupOf v) := by
  cases v with
  | entity t => exact ok
  | set items => exact asEntities items
  | _ => exact mismatch

/-- A membership asks for a group, and for a record of the entity unless it is in the group at
once. -/
theorem mem {u : Uid} : Raises EvalError.Ordinary (env.mem u v) := by
  refine groupOf.bind fun groups => ?_
  unfold Env.memAny
  split_ifs
  · exact ok
  · exact ok
  · exact ok
  · exact error trivial

/-- An attribute may be missing, its owner may be unknown, or there may be none to ask. -/
theorem getAttr {name : String} : Raises EvalError.Ordinary (env.getAttr v name) := by
  unfold Env.getAttr
  split
  · split
    · exact error trivial
    · split
      · exact ok
      · exact error trivial
  · split
    · exact ok
    · exact error trivial
  · exact mismatch

theorem hasAttr {name : String} : Raises EvalError.Ordinary (env.hasAttr v name) := by
  unfold Env.hasAttr
  split
  · exact ok
  · exact ok
  · exact mismatch

theorem contextAttr {name : String} : Raises EvalError.Ordinary (env.contextAttr name) := by
  unfold Env.contextAttr
  split
  · exact ok
  · exact error trivial

/-- A negation may overflow; the other operations fail for the kind of their operand only. -/
theorem unary {op : UnaryOp} : Raises EvalError.Ordinary (Env.unary op v) := by
  cases op with
  | not => exact asBool.bind fun b => ok
  | neg =>
      refine asLong.bind fun n => ?_
      split
      · exact ok
      · exact error trivial
  | isEmpty => exact asSet.bind fun items => ok

theorem compareLongs {test : Int → Int → Bool} :
    Raises EvalError.Ordinary (Env.compareLongs test v w) :=
  asLong.bind fun _ => asLong.bind fun _ => ok

theorem combineLongs {op : BinaryOp} {f : Long → Long → Option Long} :
    Raises EvalError.Ordinary (Env.combineLongs op f v w) := by
  refine asLong.bind fun x => asLong.bind fun y => ?_
  split
  · exact ok
  · exact error trivial

/-- Whatever the operation, it looks at its operands by kind and combines integers. -/
theorem binary {op : BinaryOp} : Raises EvalError.Ordinary (env.binary op v w) := by
  unfold Env.binary
  cases op with
  | eq | notEq => exact ok
  | less | lessEq | greater | greaterEq => exact compareLongs
  | add | sub | mul => exact combineLongs
  | mem => exact asEntity.bind fun u => mem.bind fun b => ok
  | contains => exact asSet.bind fun xs => ok
  | containsAll | containsAny => exact asSet.bind fun xs => asSet.bind fun ys => ok

end Raises

/-! ### Relations between results

Several theorems compare two evaluations of one expression: with two limits, with slots bound or
left open, with a limit and without. Each comparison is a relation that sequences keep. -/

/-- A relation between results holds of what raises ordinary errors only, and of sequences if it
holds of their parts. -/
structure Compatible
    (R : ∀ {α : Type}, Except EvalError α → Except EvalError α → Prop) : Prop where
  /-- A result that is no error or an ordinary one is related to itself. -/
  ordinary : ∀ {α : Type} {x : Except EvalError α}, Raises EvalError.Ordinary x → R x x
  /-- Sequences of related parts are related. -/
  bind : ∀ {α β : Type} {x y : Except EvalError α} {f g : α → Except EvalError β},
    R x y → (∀ a, R (f a) (g a)) → R (x >>= f) (y >>= g)

namespace Compatible

variable {R : ∀ {α : Type}, Except EvalError α → Except EvalError α → Prop} {α β : Type}

/-- A result is related to itself, since it raises nothing. -/
theorem ok (hR : Compatible R) (a : α) : R (.ok a) (.ok a) :=
  hR.ordinary Raises.ok

/-- To do the same with both results keeps the relation, as a sequence whose second part cannot
fail. -/
theorem map (hR : Compatible R) {x y : Except EvalError α} (h : R x y) (f : α → β) :
    R (x.map f) (y.map f) := by
  rw [map_eq_bind, map_eq_bind]
  exact hR.bind h fun a => hR.ok (f a)

/-- Steps over a list are related if they are on each of its items. -/
theorem mapM (hR : Compatible R) {as : List α} {f g : α → Except EvalError β}
    (h : ∀ a ∈ as, R (f a) (g a)) : R (as.mapM f) (as.mapM g) := by
  induction as with
  | nil => exact hR.ok []
  | cons a as ih =>
      obtain ⟨ha, has⟩ := List.forall_mem_cons.mp h
      rw [List.mapM_cons, List.mapM_cons]
      exact hR.bind ha fun b => hR.bind (ih has) fun bs => hR.ok (b :: bs)

end Compatible

/-- To raise certain errors is compatible if ordinary errors are among them. -/
theorem compatible_raises {E : EvalError → Prop} (hE : ∀ e, EvalError.Ordinary e → E e) :
    Compatible fun {_} x _ => Raises E x where
  ordinary h := h.mono hE
  bind := Raises.bind

/-! ### Steps -/

namespace Expr

/-- What an expression comes to, given the values of its operands. -/
def step (env : Env) (value : Expr → Except EvalError Value) : Expr → Except EvalError Value
  | lit l => .ok l.value
  | var v => .ok (env.var v)
  | slot s => .error (.unlinkedSlot s.name)
  | unary op e => do
    let v ← value e
    Env.unary op v
  | binary op a b => do
    let v ← value a
    let w ← value b
    env.binary op v w
  | and a b => do
    let v ← value a
    if ← v.asBool then
      let w ← value b
      pure (.bool (← w.asBool))
    else pure (.bool false)
  | or a b => do
    let v ← value a
    if ← v.asBool then pure (.bool true)
    else
      let w ← value b
      pure (.bool (← w.asBool))
  | ite c t e => do
    let v ← value c
    if ← v.asBool then value t else value e
  | getAttr e name => do
    let v ← value e
    env.getAttr v name
  | hasAttr e name => do
    let v ← value e
    pure (.bool (← env.hasAttr v name))
  | like e p => do
    let v ← value e
    pure (.bool (Pattern.accepts p (← v.asString)))
  | is e t => do
    let v ← value e
    let u ← v.asEntity
    pure (.bool (u.type = t))
  | isMem e t g => do
    let v ← value e
    let u ← v.asEntity
    if u.type = t then
      let w ← value g
      pure (.bool (← env.mem u w))
    else pure (.bool false)
  | set items => (items.mapM value).map .ofItems
  | record fields => (fields.mapM fun f => (value f.2).map (f.1, ·)).map .ofFields

/-- What is read of the context without an evaluation of it. -/
def shortcut? (env : Env) : Expr → Option (Except EvalError Value)
  | getAttr (var .context) name => some (env.contextAttr name)
  | hasAttr (var .context) name =>
    some (.ok (.bool (Ascending.hasKey name env.request.context)))
  | _ => none

section

variable {env : Env} {limit : Nat} {e : Expr}

/-- The test for the context holds of nothing else. -/
theorem eq_context_of_isContext (h : e.isContext) : e = var .context := by
  cases e with
  | var v => cases v <;> first | rfl | cases h
  | _ => cases h

/-- Of anything but the context no attribute is read at once. -/
theorem shortcut?_of_ne (h : e ≠ var .context) (name : String) :
    (getAttr e name).shortcut? env = none ∧ (hasAttr e name).shortcut? env = none := by
  unfold shortcut?
  constructor <;> split <;> simp_all

/-- The items of a list are evaluated at the same depth, up to the first failure. -/
theorem evalItems_eq_mapM (es : List Expr) (d : Nat) :
    evalItems env limit es d = es.mapM fun e => e.evalAt env limit d := by
  induction es with
  | nil => rfl
  | cons e es ih => rw [evalItems, ih, List.mapM_cons]

/-- The fields of a list are evaluated so too, and keep their keys. -/
theorem evalFields_eq_mapM (fs : List (String × Expr)) (d : Nat) :
    evalFields env limit fs d =
      fs.mapM fun f => (f.2.evalAt env limit d).map (f.1, ·) := by
  induction fs with
  | nil => rfl
  | cons f fs ih =>
      rw [evalFields, ih, List.mapM_cons]
      cases f.2.evalAt env limit d <;> rfl

/-- **An evaluation is one step**, unless its depth exceeds the limit or it only reads the
context. -/
theorem evalAt_eq (e : Expr) (d : Nat) :
    e.evalAt env limit d =
      if limit < d then .error (.recursionLimit limit)
      else (e.shortcut? env).getD (step env (fun o => o.evalAt env limit (d + 1)) e) := by
  cases e with
  | getAttr o name =>
      by_cases ho : o.isContext
      · obtain rfl := eq_context_of_isContext ho
        rfl
      · have hne : o ≠ var .context := fun h => ho (h ▸ rfl)
        rw [evalAt, if_neg ho, (shortcut?_of_ne hne name).1]
        rfl
  | hasAttr o name =>
      by_cases ho : o.isContext
      · obtain rfl := eq_context_of_isContext ho
        rfl
      · have hne : o ≠ var .context := fun h => ho (h ▸ rfl)
        rw [evalAt, if_neg ho, (shortcut?_of_ne hne name).2]
        rfl
  | set items =>
      rw [evalAt, evalItems_eq_mapM]
      rfl
  | record fields =>
      rw [evalAt, evalFields_eq_mapM]
      rfl
  | _ => rfl

/-- What is read of the context raises ordinary errors only. -/
theorem raises_shortcut {x : Except EvalError Value} (h : e.shortcut? env = some x) :
    Raises EvalError.Ordinary x := by
  unfold shortcut? at h
  split at h
  · rw [← Option.some.inj h]
    exact Raises.contextAttr
  · rw [← Option.some.inj h]
    exact Raises.ok
  · cases h

end

section

variable {R : ∀ {α : Type}, Except EvalError α → Except EvalError α → Prop} {env : Env} {e : Expr}
  {value value' : Expr → Except EvalError Value}

/-- **A step keeps compatible relations**: what holds of the values of the operands holds of the
values of the expression. Slots, which are no ordinary values, are left to the relation. -/
theorem step_rel (hR : Compatible R)
    (hslot : ∀ s, e = slot s → R (.error (.unlinkedSlot s.name) : Except EvalError Value)
      (.error (.unlinkedSlot s.name)))
    (h : ∀ o ∈ e.operands, R (value o) (value' o)) : R (step env value e) (step env value' e) := by
  cases e with
  | lit l => exact hR.ok l.value
  | var v => exact hR.ok (env.var v)
  | slot s => exact hslot s rfl
  | unary op e =>
      have he := h e List.mem_cons_self
      exact hR.bind he fun v => hR.ordinary Raises.unary
  | binary op a b =>
      have ha := h a List.mem_cons_self
      have hb := h b (List.mem_cons_of_mem a List.mem_cons_self)
      exact hR.bind ha fun v => hR.bind hb fun w => hR.ordinary Raises.binary
  -- Whether the right operand is evaluated depends on the value of the left one, and this is the
  -- same on both sides.
  | and a b =>
      have ha := h a List.mem_cons_self
      have hb := h b (List.mem_cons_of_mem a List.mem_cons_self)
      refine hR.bind ha fun v => hR.bind (hR.ordinary Raises.asBool) fun x => ?_
      split
      · exact hR.bind hb fun w => hR.bind (hR.ordinary Raises.asBool) fun y => hR.ok _
      · exact hR.ok _
  | or a b =>
      have ha := h a List.mem_cons_self
      have hb := h b (List.mem_cons_of_mem a List.mem_cons_self)
      refine hR.bind ha fun v => hR.bind (hR.ordinary Raises.asBool) fun x => ?_
      split
      · exact hR.ok _
      · exact hR.bind hb fun w => hR.bind (hR.ordinary Raises.asBool) fun y => hR.ok _
  | ite c t e =>
      have hc := h c List.mem_cons_self
      have ht := h t (List.mem_cons_of_mem c List.mem_cons_self)
      have he := h e (List.mem_cons_of_mem c (List.mem_cons_of_mem t List.mem_cons_self))
      refine hR.bind hc fun v => hR.bind (hR.ordinary Raises.asBool) fun x => ?_
      split
      · exact ht
      · exact he
  | getAttr e name =>
      have he := h e List.mem_cons_self
      exact hR.bind he fun v => hR.ordinary Raises.getAttr
  | hasAttr e name =>
      have he := h e List.mem_cons_self
      exact hR.bind he fun v => hR.bind (hR.ordinary Raises.hasAttr) fun x => hR.ok _
  | like e p =>
      have he := h e List.mem_cons_self
      exact hR.bind he fun v => hR.bind (hR.ordinary Raises.asString) fun x => hR.ok _
  | is e t =>
      have he := h e List.mem_cons_self
      exact hR.bind he fun v => hR.bind (hR.ordinary Raises.asEntity) fun u => hR.ok _
  | isMem e t g =>
      have he := h e List.mem_cons_self
      have hg := h g (List.mem_cons_of_mem e List.mem_cons_self)
      refine hR.bind he fun v => hR.bind (hR.ordinary Raises.asEntity) fun u => ?_
      split
      · exact hR.bind hg fun w => hR.bind (hR.ordinary Raises.mem) fun x => hR.ok _
      · exact hR.ok _
  | set items => exact hR.map (hR.mapM h) _
  | record fields =>
      refine hR.map (hR.mapM fun f hf => ?_) _
      exact hR.map (h f.2 (List.mem_map_of_mem hf)) _

end

/-- A step raises what the values of the operands raise, ordinary errors and blame of slots. -/
theorem raises_step {E : EvalError → Prop} {env : Env} {e : Expr}
    {value : Expr → Except EvalError Value} (hE : ∀ x, EvalError.Ordinary x → E x)
    (hslot : ∀ s, e = slot s → E (.unlinkedSlot s.name))
    (h : ∀ o ∈ e.operands, Raises E (value o)) : Raises E (step env value e) := by
  have hR := compatible_raises hE
  have hslot' : ∀ s, e = slot s →
      Raises E (.error (.unlinkedSlot s.name) : Except EvalError Value) :=
    fun s hs => Raises.error (hslot s hs)
  exact @step_rel (fun {_} x _ => Raises E x) env e value value hR hslot' h

end Expr

end AccessPolicy
