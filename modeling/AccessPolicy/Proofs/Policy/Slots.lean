import AccessPolicy.Policy.Applies
import AccessPolicy.Proofs.Expr.Slots
import AccessPolicy.Proofs.Policy.WellFormed

/-!
# Slots in policies

* `Policy.Closed p` — no slot occurs in a scope or in a clause of `p`. Apart from the scope of the
  action, which takes no slots, this is to be no template (`Policy.closed_iff`).
* **Linking closes a policy** (`Policy.closed_of_link`): the values name exactly the slots
  (`Policy.link_eq_ok_iff`), and binding takes them out (`Policy.mentions_bind`).
* **What applies a policy blames only its slots** (`Policy.blamesOnly_applies`), so that whether a
  closed policy applies is never left open for want of a link (`Policy.Closed.applies_ne_unlinked`).
-/

namespace AccessPolicy

/-! ### Scopes -/

/-- Binding takes out of a reference exactly the slots that have a value. -/
theorem Reference.slot?_bind {r : Reference} {s : Slot} {values : List (Slot × Uid)} :
    (r.bind values).slot? = some s ↔ r.slot? = some s ∧ ¬Ascending.hasKey s values := by
  cases r with
  | uid u => exact iff_of_false nofun fun h => nomatch h.1
  | slot t =>
      cases hget : Ascending.get? t values with
      | some u =>
          simp only [Reference.bind, hget]
          refine iff_of_false nofun fun h => h.2 ?_
          rw [← Option.some.inj h.1, Ascending.hasKey, hget]
          rfl
      | none =>
          simp only [Reference.bind, hget]
          refine ⟨fun h => ⟨h, ?_⟩, fun h => h.1⟩
          rw [← Option.some.inj h, Ascending.hasKey, hget]
          exact Bool.false_ne_true

namespace Scope

variable {s : Slot} {scope : Scope} {values : List (Slot × Uid)}

/-- Binding takes out of a scope exactly the slots that have a value. -/
theorem slot?_bind : (scope.bind values).slot? = some s ↔
    scope.slot? = some s ∧ ¬Ascending.hasKey s values := by
  cases scope with
  | any | memAny us | is type => exact iff_of_false nofun fun h => nomatch h.1
  | eq r | mem r | isMem type r => exact Reference.slot?_bind

/-- A scope without a slot can be decided. -/
theorem exists_admits (h : scope.slot? = none) (es : Entities) (u : Uid) :
    ∃ o, scope.admits es u = .ok o := by
  have hresolve : ∀ {r : Reference}, r.slot? = none → ∃ t, r.resolve = .ok t := by
    intro r hr
    cases r with
    | uid t => exact ⟨t, rfl⟩
    | slot slot => cases hr
  cases scope with
  | any | memAny us | is type => exact ⟨_, rfl⟩
  | eq r | mem r | isMem type r =>
      obtain ⟨t, ht⟩ := hresolve h
      exact ⟨_, bind_eq_ok.mpr ⟨t, ht, rfl⟩⟩

/-- A scope blames only its slot. -/
theorem blamesOnly_admits (es : Entities) (u : Uid) :
    BlamesOnly (fun s => scope.slot? = some s) (scope.admits es u) := by
  have hresolve : ∀ r : Reference, BlamesOnly (fun s => r.slot? = some s) r.resolve := by
    intro r
    cases r with
    | uid t => exact BlamesOnly.ok
    | slot s =>
        intro name hname
        cases hname
        exact ⟨s, rfl, rfl⟩
  cases scope with
  | any | memAny us | is type => exact BlamesOnly.ok
  | eq r | mem r | isMem type r => exact (hresolve r).bind fun t => BlamesOnly.ok

end Scope

namespace Policy

variable {p q : Policy} {s : Slot} {id : String} {values : List (Slot × Uid)}

/-! ### Occurrences

The slots of a policy are gathered from the scopes of the principal and the resource and from the
clauses. The scope of the action is left out, in which texts and trees allow no slot. -/

/-- A slot occurs in a policy if it is in the scope of the principal or the resource, or in a
clause. -/
theorem mentions_eq_true_iff : p.mentions s ↔ p.principal.slot? = some s ∨
    p.resource.slot? = some s ∨ ∃ c ∈ p.conditions, c.body.mentions s := by
  simp [mentions, or_assoc]

/-- The slots of a policy are those that occur in it. -/
theorem mem_slots : s ∈ p.slots ↔ p.mentions s := by
  have hall : s ∈ Slot.all := by cases s <;> decide
  rw [slots, List.mem_filter, and_iff_right hall]

/-- A policy is no template if no slot occurs in it. -/
theorem isTemplate_eq_false_iff : p.isTemplate = false ↔ ∀ s, ¬p.mentions s := by
  simp only [isTemplate, Bool.not_eq_false', List.isEmpty_iff, List.eq_nil_iff_forall_not_mem,
    mem_slots]

/-- The slots of a policy are in their order. -/
theorem sorted_slots : Ascending.Sorted p.slots :=
  List.Pairwise.filter _ (by decide)

/-- The scope of an action that can be written has no slot. -/
theorem slot?_of_fitsAction {scope : Scope} (h : scope.fitsAction) : scope.slot? = none := by
  cases scope with
  | any | memAny us => rfl
  | eq r | mem r =>
      cases r with
      | uid u => rfl
      | slot s => cases h
  | is type => cases h
  | isMem type r => cases h

/-- A policy that is no template has no slots in the scopes of the principal and the resource. -/
theorem slot?_of_isTemplate (h : p.isTemplate = false) :
    p.principal.slot? = none ∧ p.resource.slot? = none := by
  have hnone := isTemplate_eq_false_iff.mp h
  simp only [mentions_eq_true_iff, not_or] at hnone
  exact ⟨Option.eq_none_iff_forall_ne_some.mpr fun s => (hnone s).1,
    Option.eq_none_iff_forall_ne_some.mpr fun s => (hnone s).2.1⟩

/-- No slot occurs in a scope or in a clause. -/
structure Closed (p : Policy) : Prop where
  /-- The scope of the principal has no slot. -/
  principal : p.principal.slot? = none
  /-- The scope of the action has no slot. -/
  action : p.action.slot? = none
  /-- The scope of the resource has no slot. -/
  resource : p.resource.slot? = none
  /-- No slot occurs in a clause. -/
  conditions : ∀ c ∈ p.conditions, ∀ s, ¬c.body.mentions s

/-- To be closed is to be no template, but for the scope of the action. -/
theorem closed_iff : p.Closed ↔ p.isTemplate = false ∧ p.action.slot? = none := by
  constructor
  · intro h
    refine ⟨isTemplate_eq_false_iff.mpr fun s hs => ?_, h.action⟩
    rcases mentions_eq_true_iff.mp hs with hs | hs | ⟨c, hc, hs⟩
    · exact nomatch h.principal.symm.trans hs
    · exact nomatch h.resource.symm.trans hs
    · exact h.conditions c hc s hs
  · rintro ⟨hstatic, haction⟩
    obtain ⟨hprincipal, hresource⟩ := slot?_of_isTemplate hstatic
    refine ⟨hprincipal, haction, hresource, fun c hc s hs => ?_⟩
    exact isTemplate_eq_false_iff.mp hstatic s (mentions_eq_true_iff.mpr (.inr (.inr ⟨c, hc, hs⟩)))

/-! ### Linking -/

/-- **Binding takes out** the slots that are given an entity. -/
theorem mentions_bind :
    (p.bind values).mentions s ↔ p.mentions s ∧ ¬Ascending.hasKey s values := by
  have hconditions : (∃ c ∈ (p.bind values).conditions, c.body.mentions s) ↔
      (∃ c ∈ p.conditions, c.body.mentions s) ∧ ¬Ascending.hasKey s values := by
    constructor
    · rintro ⟨_, hmem, h⟩
      obtain ⟨c, hc, rfl⟩ := List.mem_map.mp hmem
      obtain ⟨hmentions, hfree⟩ := (Expr.mentions_bind c.body).mp h
      exact ⟨⟨c, hc, hmentions⟩, hfree⟩
    · rintro ⟨⟨c, hc, hmentions⟩, hfree⟩
      exact ⟨_, List.mem_map_of_mem hc, (Expr.mentions_bind c.body).mpr ⟨hmentions, hfree⟩⟩
  rw [mentions_eq_true_iff, mentions_eq_true_iff, hconditions]
  simp only [bind, Scope.slot?_bind, or_and_right]

/-- What linking a template does, and when it does it. -/
theorem link_eq_ok_iff : p.link id values = .ok q ↔
    (∀ s, p.mentions s ↔ s ∈ Ascending.keys values) ∧ q = (p.bind values).withId id := by
  have hmissing : p.slots.find? (fun s => !Ascending.hasKey s values) = none ↔
      ∀ s, p.mentions s → s ∈ Ascending.keys values := by
    simp [List.find?_eq_none, mem_slots, Ascending.hasKey_iff]
  have hextra : (Ascending.keys values).find? (fun s => !p.slots.contains s) = none ↔
      ∀ s, s ∈ Ascending.keys values → p.mentions s := by
    simp [List.find?_eq_none, mem_slots]
  rw [forall_congr' fun s => iff_iff_implies_and_implies, forall_and, ← hmissing, ← hextra]
  unfold link
  cases p.slots.find? fun s => !Ascending.hasKey s values with
  | some s => simp
  | none =>
      cases (Ascending.keys values).find? fun s => !p.slots.contains s with
      | some s => simp
      | none => simp [eq_comm]

/-- The values of a link name exactly the slots of the template. -/
theorem keys_of_link (hsorted : Ascending.Sorted (Ascending.keys values))
    (h : p.link id values = .ok q) : Ascending.keys values = p.slots :=
  hsorted.ext sorted_slots fun s => ((link_eq_ok_iff.mp h).1 s).symm.trans mem_slots.symm

/-- A template can be linked by values that name exactly its slots. -/
theorem link_of_keys (hkeys : Ascending.keys values = p.slots) :
    p.link id values = .ok ((p.bind values).withId id) :=
  link_eq_ok_iff.mpr ⟨fun _ => hkeys ▸ mem_slots.symm, rfl⟩

/-- **Linking closes a policy.** -/
theorem closed_of_link (haction : p.action.slot? = none) (h : p.link id values = .ok q) :
    q.Closed := by
  obtain ⟨hkeys, rfl⟩ := link_eq_ok_iff.mp h
  refine closed_iff.mpr ⟨isTemplate_eq_false_iff.mpr fun s hmentions => ?_, haction⟩
  have hbound : (p.bind values).mentions s := hmentions
  obtain ⟨hs, hfree⟩ := mentions_bind.mp hbound
  exact hfree (Ascending.hasKey_iff.mpr ((hkeys s).mp hs))

/-! ### Applying -/

variable {env : Env} {limit : Nat}

/-- Scopes without slots can be decided. -/
theorem exists_inScope (hprincipal : p.principal.slot? = none) (haction : p.action.slot? = none)
    (hresource : p.resource.slot? = none) : ∃ b, p.inScope env = .ok b := by
  obtain ⟨o₁, h₁⟩ := Scope.exists_admits hprincipal env.entities env.request.principal
  obtain ⟨o₂, h₂⟩ := Scope.exists_admits haction env.entities env.request.action
  obtain ⟨o₃, h₃⟩ := Scope.exists_admits hresource env.entities env.request.resource
  unfold inScope
  rw [h₁, ok_bind, h₂, ok_bind, h₃, ok_bind]
  split
  · split
    · exact ⟨_, rfl⟩
    · exact ⟨_, rfl⟩
  · exact ⟨_, rfl⟩

/-- Clauses blame only the slots that occur in them. -/
theorem blamesOnly_allHold {S : Slot → Prop} {cs : List Clause}
    (h : ∀ c ∈ cs, ∀ s, c.body.mentions s → S s) :
    BlamesOnly S (Clause.allHold env limit cs) := by
  induction cs with
  | nil => exact BlamesOnly.ok
  | cons c cs ih =>
      rw [List.forall_mem_cons] at h
      have hbody : BlamesOnly S (c.body.eval env limit) :=
        (Expr.blamesOnly_evalAt c.body 0).mono h.1
      have hholds : BlamesOnly S (c.holds env limit) := by
        refine hbody.bind fun v => (BlamesOnly.of_ordinary Raises.asBool).bind fun b => ?_
        split <;> exact BlamesOnly.ok
      refine hholds.bind fun b => ?_
      split
      · exact ih h.2
      · exact BlamesOnly.ok

/-- **What applies a policy blames only its slots.** -/
theorem blamesOnly_applies :
    BlamesOnly (fun s => p.mentions s ∨ p.action.slot? = some s) (p.applies env limit) := by
  have hscope : ∀ (scope : Scope) (u : Uid),
      (∀ s, scope.slot? = some s → p.mentions s ∨ p.action.slot? = some s) →
      BlamesOnly (fun s => p.mentions s ∨ p.action.slot? = some s)
        (scope.admits env.entities u) :=
    fun scope u h => (Scope.blamesOnly_admits env.entities u).mono h
  have hprincipal := hscope p.principal env.request.principal fun s hs =>
    .inl (mentions_eq_true_iff.mpr (.inl hs))
  have haction := hscope p.action env.request.action fun s hs => .inr hs
  have hresource := hscope p.resource env.request.resource fun s hs =>
    .inl (mentions_eq_true_iff.mpr (.inr (.inl hs)))
  have hinScope : BlamesOnly (fun s => p.mentions s ∨ p.action.slot? = some s) (p.inScope env) := by
    refine hprincipal.bind fun o => ?_
    split
    · refine haction.bind fun o => ?_
      split
      · exact hresource.bind fun o => BlamesOnly.ok
      · exact BlamesOnly.ok
    · exact BlamesOnly.ok
  refine hinScope.bind fun b => ?_
  split
  · exact blamesOnly_allHold fun c hc s hs =>
      .inl (mentions_eq_true_iff.mpr (.inr (.inr ⟨c, hc, hs⟩)))
  · exact BlamesOnly.ok

/-- Whether a closed policy applies does not depend on links. -/
theorem Closed.applies_ne_unlinked (h : p.Closed) (name : String) :
    p.applies env limit ≠ .error (.unlinkedSlot name) := by
  obtain ⟨hstatic, haction⟩ := closed_iff.mp h
  refine blamesOnly_applies.ne_error (fun s => not_or.mpr ⟨?_, ?_⟩) name
  · exact isTemplate_eq_false_iff.mp hstatic s
  · rw [haction]
    exact nofun

end Policy

end AccessPolicy
