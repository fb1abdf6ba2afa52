import AccessPolicy.Proofs.Expr.Limit
import AccessPolicy.Proofs.Expr.Reading
import AccessPolicy.Proofs.Policy.Slots

/-!
# Linked templates

What a template means is what it comes to when its slots are read, in the scopes and inside the
conditions.

* `Policy.appliesBy read env limit p` — whether `p` applies if slots are read by `read`. Without
  entities for slots this is `Policy.applies` (`Policy.appliesBy_unlinked`).
* `Policy.Instantiates values p q` — `q` mentions no slot, and it comes to what `p` comes to when
  its slots are read as the entities that are bound to them, errors included.
* **Linking keeps the meaning** (`Policy.link_instantiates`). The scope of an action takes no slots
  where policies are written, and linking leaves it alone, so that it is assumed to have none.
-/

namespace AccessPolicy

variable {env : Env} {limit : Nat} {values : List (Slot × Uid)}
  {read : Slot → Except EvalError Uid}

/-! ### Scopes -/

namespace Reference

/-- The entity of a reference, or of its slot. -/
def resolveBy (read : Slot → Except EvalError Uid) : Reference → Except EvalError Uid
  | uid u => .ok u
  | slot s => read s

/-- A reference is resolved as if no slot had an entity. -/
theorem resolve_eq_resolveBy (r : Reference) : r.resolve = r.resolveBy Slot.unlinked := by
  cases r <;> rfl

/-- After binding it is resolved as if the slots were read as what is bound to them. -/
theorem resolve_bind (r : Reference) :
    (r.bind values).resolve = r.resolveBy (Slot.boundTo values) := by
  cases r with
  | uid u => rfl
  | slot s =>
      rw [bind, resolveBy, Slot.boundTo]
      cases Ascending.get? s values <;> rfl

end Reference

namespace Scope

/-- How a scope admits an entity, if it does and slots are read. -/
def admitsBy (read : Slot → Except EvalError Uid) (entities : Entities) (u : Uid) :
    Scope → Except EvalError (Option ScopeMatch)
  | any => .ok (some .any)
  | eq r => do
    let t ← r.resolveBy read
    pure (if t = u then some .eq else none)
  | mem r => do
    let t ← r.resolveBy read
    pure (if entities.isDescendant u t then some .mem else none)
  | memAny ts => .ok (if ts.any fun t => entities.isDescendant u t then some .memAny else none)
  | is type => .ok (if u.type = type then some .is else none)
  | isMem type r => do
    let t ← r.resolveBy read
    pure (if u.type = type ∧ entities.isDescendant u t then some .isMem else none)

variable {entities : Entities} {u : Uid}

/-- A scope admits an entity as if no slot had an entity. -/
theorem admits_eq_admitsBy (scope : Scope) :
    scope.admits entities u = scope.admitsBy Slot.unlinked entities u := by
  cases scope with
  | eq r | mem r | isMem type r => rw [admits, admitsBy, Reference.resolve_eq_resolveBy]
  | any | memAny us | is type => rfl

/-- After binding it admits as if the slots were read as what is bound to them. -/
theorem admits_bind (scope : Scope) : (scope.bind values).admits entities u =
    scope.admitsBy (Slot.boundTo values) entities u := by
  cases scope with
  | eq r | mem r | isMem type r => rw [bind, admits, admitsBy, Reference.resolve_bind]
  | any | memAny us | is type => rfl

/-- A scope without a slot reads none. -/
theorem admitsBy_of_slot? {scope : Scope} (h : scope.slot? = none) :
    scope.admitsBy read entities u = scope.admits entities u := by
  have hresolve : ∀ {r : Reference}, r.slot? = none → r.resolveBy read = r.resolve := by
    intro r hr
    cases r with
    | uid t => rfl
    | slot s => cases hr
  cases scope with
  | eq r | mem r | isMem type r => rw [admits, admitsBy, hresolve h]
  | any | memAny us | is type => rfl

end Scope

/-! ### Clauses -/

namespace Clause

/-- Whether a value of the body is what the clause asks for. -/
def asks (c : Clause) (v : Value) : Except EvalError Bool := do
  let b ← v.asBool
  match c.kind with
  | .whenTrue => pure b
  | .unlessTrue => pure !b

/-- Whether a clause holds if slots are read. -/
def holdsBy (read : Slot → Except EvalError Uid) (env : Env) (limit : Nat) (c : Clause) :
    Except EvalError Bool := do
  let v ← c.body.evalBy read env limit
  c.asks v

/-- Whether all clauses hold if slots are read. -/
def allHoldBy (read : Slot → Except EvalError Uid) (env : Env) (limit : Nat) :
    List Clause → Except EvalError Bool
  | [] => .ok true
  | c :: cs => do
    if ← c.holdsBy read env limit then allHoldBy read env limit cs else pure false

/-- Put entities in the place of slots. -/
def bind (values : List (Slot × Uid)) (c : Clause) : Clause :=
  { c with body := c.body.bind values }

/-- A clause evaluates its body and asks for one of the truth values. -/
theorem holds_eq (c : Clause) : c.holds env limit = c.body.eval env limit >>= c.asks :=
  rfl

/-- A clause holds as if no slot had an entity. -/
theorem holds_eq_holdsBy (c : Clause) :
    c.holds env limit = c.holdsBy Slot.unlinked env limit := by
  rw [holds_eq, holdsBy, Expr.eval_eq_evalBy]

/-- After binding it holds as if the slots were read as what is bound to them. -/
theorem holds_bind (c : Clause) :
    (c.bind values).holds env limit = c.holdsBy (Slot.boundTo values) env limit := by
  have hbody : (c.bind values).body.eval env limit =
      c.body.evalBy (Slot.boundTo values) env limit := Expr.eval_bind c.body
  have hasks : (c.bind values).asks = c.asks := rfl
  rw [holds_eq, holdsBy, hbody, hasks]

/-- All clauses hold as if no slot had an entity. -/
theorem allHold_eq_allHoldBy (cs : List Clause) :
    allHold env limit cs = allHoldBy Slot.unlinked env limit cs := by
  induction cs with
  | nil => rfl
  | cons c cs ih => rw [allHold, allHoldBy, holds_eq_holdsBy, ih]

/-- After binding they hold as if the slots were read as what is bound to them. -/
theorem allHold_bind (cs : List Clause) : allHold env limit (cs.map (bind values)) =
    allHoldBy (Slot.boundTo values) env limit cs := by
  induction cs with
  | nil => rfl
  | cons c cs ih => rw [List.map_cons, allHold, allHoldBy, holds_bind, ih]

end Clause

/-! ### Policies -/

namespace Policy

variable {p q : Policy} {id : String}

/-- Whether the scopes admit the request if slots are read. -/
def inScopeBy (read : Slot → Except EvalError Uid) (env : Env) (p : Policy) :
    Except EvalError Bool := do
  if (← p.principal.admitsBy read env.entities env.request.principal).isSome then
    if (← p.action.admitsBy read env.entities env.request.action).isSome then
      pure (← p.resource.admitsBy read env.entities env.request.resource).isSome
    else pure false
  else pure false

/-- Whether a policy applies if slots are read. -/
def appliesBy (read : Slot → Except EvalError Uid) (env : Env) (limit : Nat) (p : Policy) :
    Except EvalError Bool := do
  if ← p.inScopeBy read env then Clause.allHoldBy read env limit p.conditions else pure false

/-- **Read without entities for its slots**, a template comes to what it comes to as it stands. -/
theorem appliesBy_unlinked (p : Policy) :
    p.appliesBy Slot.unlinked env limit = p.applies env limit := by
  have hscope : p.inScopeBy Slot.unlinked env = p.inScope env := by
    rw [inScopeBy, inScope]
    simp only [Scope.admits_eq_admitsBy]
  rw [appliesBy, applies, hscope, Clause.allHold_eq_allHoldBy]

/-- **To bind the slots is to read them.** -/
theorem applies_bind (haction : p.action.slot? = none) :
    (p.bind values).applies env limit = p.appliesBy (Slot.boundTo values) env limit := by
  have hscope : (p.bind values).inScope env = p.inScopeBy (Slot.boundTo values) env := by
    rw [inScope, inScopeBy, Scope.admitsBy_of_slot? haction]
    simp only [bind, Scope.admits_bind]
  have hconditions : (p.bind values).conditions = p.conditions.map (Clause.bind values) := rfl
  rw [applies, appliesBy, hscope, hconditions, Clause.allHold_bind]

/-- A policy is a template whose slots are read as the entities that are bound to them. -/
structure Instantiates (values : List (Slot × Uid)) (p q : Policy) : Prop where
  /-- It applies, does not apply or fails as the template does. -/
  applies : ∀ env limit, q.applies env limit = p.appliesBy (Slot.boundTo values) env limit
  /-- No slot is counted as one of its own. -/
  slots : q.slots = []
  /-- No scope has a slot, and no clause mentions one. -/
  closed : q.Closed
  /-- No part of a clause is a slot. -/
  parts : ∀ c ∈ q.conditions, ∀ s, .slot s ∉ c.body.parts
  /-- The effect is that of the template. -/
  effect : q.effect = p.effect
  /-- The annotations are those of the template. -/
  annotations : q.annotations = p.annotations
  /-- The clauses are of the kinds of those of the template, and as deep. -/
  conditions : List.Forall₂ (fun c d => d.kind = c.kind ∧ d.body.depth = c.body.depth)
    p.conditions q.conditions

/-- A linked policy is its template with the slots read. -/
theorem instantiates_of_link (haction : p.action.slot? = none) (h : p.link id values = .ok q) :
    Instantiates values p q := by
  have hclosed := closed_of_link haction h
  obtain ⟨-, rfl⟩ := link_eq_ok_iff.mp h
  constructor
  case applies => exact fun env limit => applies_bind haction
  case slots =>
    have hnone := isTemplate_eq_false_iff.mp (closed_iff.mp hclosed).1
    exact List.eq_nil_iff_forall_not_mem.mpr fun s hs => hnone s (mem_slots.mp hs)
  case closed => exact hclosed
  case parts =>
    exact fun c hc s hs => hclosed.conditions c hc s (Expr.mentions_iff_mem_parts.mpr hs)
  case effect => rfl
  case annotations => rfl
  case conditions =>
    refine List.forall₂_map_right_iff.mpr (List.forall₂_same.mpr fun c _ => ⟨rfl, ?_⟩)
    exact Expr.depth_bind values c.body

/-- **Linking a template keeps its meaning.** A template can be linked by exactly those values that
name its slots, and the linked policy comes to what the template comes to when each slot is read as
the entity that is bound to it. Read without entities, the template is what it is. -/
theorem link_instantiates (haction : p.action.slot? = none) (id : String)
    (values : List (Slot × Uid)) :
    (∀ env limit, p.appliesBy Slot.unlinked env limit = p.applies env limit) ∧
    ((∃ q, p.link id values = .ok q) ↔ ∀ s, s ∈ Ascending.keys values ↔ s ∈ p.slots) ∧
    ∀ q, p.link id values = .ok q → Instantiates values p q := by
  refine ⟨fun env limit => appliesBy_unlinked p, ?_, fun q hq => instantiates_of_link haction hq⟩
  simp only [link_eq_ok_iff, exists_and_left, exists_eq, and_true, mem_slots]
  exact forall_congr' fun s => iff_comm

/-- Members of a group may see what the group owns: the template mentions one slot in a scope and in
a condition, the other in a scope only. -/
theorem link_instantiates_shared :
    let shared : Policy := ⟨"shared", .permit, .mem (.slot .principal), .any,
      .eq (.slot .resource),
      [⟨.whenTrue, .binary .eq (.getAttr (.var .resource) "owner") (.slot .principal)⟩], []⟩
    let staff : Uid := ⟨"Group", "staff"⟩
    let ann : Uid := ⟨"User", "ann"⟩
    let beach : Uid := ⟨"Photo", "beach"⟩
    let values : List (Slot × Uid) := [(.principal, staff), (.resource, beach)]
    let env : Env := ⟨⟨ann, ⟨"Action", "view"⟩, beach, [], none⟩,
      ⟨[⟨beach, [("owner", .entity staff)], []⟩, ⟨ann, [], [staff]⟩]⟩⟩
    shared.action.slot? = none ∧ shared.applies env 8 = .error (.unlinkedSlot "?principal") ∧
      ∃ q, shared.link "staff" values = .ok q ∧ q.Closed ∧ q.applies env 8 = .ok true ∧
        shared.appliesBy (Slot.boundTo values) env 8 = .ok true := by
  intro shared staff ann beach values env
  have haction : shared.action.slot? = none := rfl
  obtain ⟨-, hlinks, hreads⟩ := link_instantiates haction "staff" values
  obtain ⟨q, hq⟩ := hlinks.mpr fun s => by cases s <;> decide +kernel
  have hinstantiates := hreads q hq
  have happlies : q.applies env 8 = .ok true := by
    rw [(link_eq_ok_iff.mp hq).2]
    decide +kernel
  refine ⟨haction, by decide +kernel, q, hq, hinstantiates.closed, happlies, ?_⟩
  rw [← hinstantiates.applies]
  exact happlies

end Policy

end AccessPolicy
