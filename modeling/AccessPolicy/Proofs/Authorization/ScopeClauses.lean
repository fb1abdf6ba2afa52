import AccessPolicy.Authorization.Authorizer
import AccessPolicy.Proofs.Entity.Hierarchy
import AccessPolicy.Proofs.Policy.Applies
import AccessPolicy.Proofs.Policy.Slots

/-!
# Scopes as clauses

A scope looks entities up leniently, a condition strictly: an entity without a record belongs to
nothing but itself for the one, and cannot be asked what it belongs to by the other.

* `Scope.test? v s` — the condition that asks of the variable `v` what the scope `s` asks;
  `Policy.asClauses p` — the policy `p` with such conditions in front of its clauses in the place of
  its scopes.
* **The condition comes to what the scope does** (`Scope.accords_test`), but for an entity without a
  record that the scope does not admit.
* **Decisions are the same** with clauses in the place of scopes (`Policy.scopes_as_clauses`): the
  policy applies to the same requests, and what does not apply is no reason of a response.
-/

namespace AccessPolicy

/-! ### Conditions -/

/-- The expression of a reference. -/
def Reference.expr : Reference → Expr
  | uid u => .lit (.entity u)
  | slot s => .slot s

namespace Scope

/-- The condition that asks of a variable what a scope asks. A scope that asks nothing has none. -/
def test? (v : Var) : Scope → Option Expr
  | any => none
  | eq r => some (.binary .eq (.var v) r.expr)
  | mem r => some (.binary .mem (.var v) r.expr)
  | memAny us => some (.binary .mem (.var v) (.set (us.map fun u => .lit (.entity u))))
  | is type => some (.is (.var v) type)
  | isMem type r => some (.isMem (.var v) type r.expr)

end Scope

namespace Policy

/-- The scopes of a policy with their variables, in order. -/
def scopes (p : Policy) : List (Var × Scope) :=
  [(.principal, p.principal), (.action, p.action), (.resource, p.resource)]

/-- The clauses that ask what the scopes ask, in order. -/
def scopeClauses (p : Policy) : List Clause :=
  (p.scopes.filterMap fun s => s.2.test? s.1).map fun e => ⟨.whenTrue, e⟩

/-- The policy with clauses in the place of its scopes. -/
def asClauses (p : Policy) : Policy :=
  { p with
    principal := .any
    action := .any
    resource := .any
    conditions := p.scopeClauses ++ p.conditions }

end Policy

/-! ### Entities without records -/

/-- Where an entity has a record, or belongs to one of some groups, a condition finds what a scope
finds. -/
theorem Env.memAny_eq (env : Env) (u : Uid) (groups : List Uid) :
    env.memAny u groups = .ok (groups.any fun t => env.entities.isDescendant u t) ∨
      env.memAny u groups = .error (.unknownEntity u) ∧ env.entities.contains u = false ∧
        (groups.any fun t => env.entities.isDescendant u t) = false := by
  unfold memAny
  by_cases hmem : u ∈ groups
  · have hself : env.entities.isDescendant u u = true := by simp [Entities.isDescendant]
    rw [if_pos hmem, List.any_eq_true.mpr ⟨u, hmem, hself⟩]
    exact .inl rfl
  · rw [if_neg hmem]
    cases groups with
    | nil => exact .inl rfl
    | cons t ts =>
        cases hknown : env.entities.contains u with
        | true => exact .inl rfl
        | false =>
            refine .inr ⟨rfl, rfl, List.any_eq_false.mpr fun t ht => ?_⟩
            have hne : u ≠ t := fun h => hmem (h ▸ ht)
            simp [Entities.isDescendant, Entities.ancestors_of_not_contains hknown, hne]

/-! ### Evaluation -/

namespace Expr

variable {env : Env} {limit d : Nat}

/-- The literal of an entity comes to that entity. -/
theorem evalAt_uid {u : Uid} (h : d ≤ limit) :
    (lit (.entity u)).evalAt env limit d = .ok (.entity u) := by
  rw [evalAt, if_neg (Nat.not_lt.mpr h)]
  rfl

/-- The literals of entities come to those entities. -/
theorem evalItems_uids {us : List Uid} (h : d ≤ limit) :
    evalItems env limit (us.map fun u => lit (.entity u)) d = .ok (us.map .entity) := by
  induction us with
  | nil => rfl
  | cons u us ih =>
      rw [List.map_cons, evalItems, evalAt_uid h, ok_bind, ih]
      rfl

/-- Sets of entities are sets of uids. -/
theorem ofList_map_entity (us : List Uid) :
    Ascending.ofList (us.map Value.entity) = (Ascending.ofList us).map Value.entity := by
  have hinsert : ∀ (u : Uid) (xs : List Uid),
      Ascending.insert (Value.entity u) (xs.map .entity) = (Ascending.insert u xs).map .entity := by
    intro u xs
    induction xs with
    | nil => rfl
    | cons x xs ih =>
        have hcompare : compare (Value.entity u) (Value.entity x) = compare u x := rfl
        rw [List.map_cons, Ascending.insert, Ascending.insert, hcompare, ih]
        cases compare u x <;> rfl
  have hfold : ∀ (us xs : List Uid),
      (us.map Value.entity).foldl (fun s x => Ascending.insert x s) (xs.map .entity) =
        (us.foldl (fun s x => Ascending.insert x s) xs).map .entity := by
    intro us
    induction us with
    | nil => exact fun xs => rfl
    | cons u us ih =>
        intro xs
        rw [List.map_cons, List.foldl_cons, List.foldl_cons, hinsert, ih]
  exact hfold us []

/-- The set of the literals of entities comes to the set of the entities. -/
theorem evalAt_uids {us : List Uid} (h : d + 1 ≤ limit) :
    (set (us.map fun u => lit (.entity u))).evalAt env limit d =
      .ok (.set ((Ascending.ofList us).map .entity)) := by
  rw [evalAt, if_neg (by omega), evalItems_uids h, ← ofList_map_entity]
  rfl

end Expr

/-- A set of entities names them as groups. -/
theorem Env.groupOf_uids (us : List Uid) : Env.groupOf (.set (us.map .entity)) = .ok us := by
  change Value.asEntities (us.map .entity) = .ok us
  induction us with
  | nil => rfl
  | cons u us ih =>
      rw [List.map_cons, Value.asEntities, ih]
      rfl

namespace Expr

variable {env : Env} {limit : Nat} {v : Var} {u : Uid}

/-- A variable for an entity, as an operand of a condition. -/
theorem evalAt_operand (hlimit : 1 ≤ limit) (hv : env.var v = .entity u) :
    (var v).evalAt env limit 1 = .ok (.entity u) := by
  rw [evalAt_var hlimit, hv]

/-- Whether a variable is an entity. -/
theorem eval_var_eq (hlimit : 1 ≤ limit) (hv : env.var v = .entity u) (t : Uid) :
    (binary .eq (var v) (lit (.entity t))).eval env limit =
      (Except.ok (decide (u = t))).map .bool := by
  rw [eval, evalAt, if_neg (Nat.not_lt_zero limit), evalAt_operand hlimit hv, ok_bind,
    evalAt_uid hlimit, ok_bind]
  simp [Env.binary, Except.map]

/-- Whether a variable belongs to an entity. -/
theorem eval_var_mem (hlimit : 1 ≤ limit) (hv : env.var v = .entity u) (t : Uid) :
    (binary .mem (var v) (lit (.entity t))).eval env limit = (env.memAny u [t]).map .bool := by
  rw [eval, evalAt, if_neg (Nat.not_lt_zero limit), evalAt_operand hlimit hv, ok_bind,
    evalAt_uid hlimit, ok_bind]
  rfl

/-- Whether a variable belongs to one of some entities. -/
theorem eval_var_memAny (hlimit : 2 ≤ limit) (hv : env.var v = .entity u) (us : List Uid) :
    (binary .mem (var v) (set (us.map fun u => lit (.entity u)))).eval env limit =
      (env.memAny u (Ascending.ofList us)).map .bool := by
  rw [eval, evalAt, if_neg (Nat.not_lt_zero limit),
    evalAt_operand (Nat.le_of_succ_le hlimit) hv, ok_bind, evalAt_uids hlimit, ok_bind]
  change (env.mem u _ >>= fun b => pure (Value.bool b)) = _
  unfold Env.mem
  rw [Env.groupOf_uids]
  rfl

/-- Whether a variable is of a type. -/
theorem eval_var_is (hlimit : 1 ≤ limit) (hv : env.var v = .entity u) (type : String) :
    (is (var v) type).eval env limit = (Except.ok (decide (u.type = type))).map .bool := by
  rw [eval, evalAt, if_neg (Nat.not_lt_zero limit), evalAt_operand hlimit hv]
  rfl

/-- Whether a variable is of a type and belongs to an entity. The group is looked at only if the
type is right. -/
theorem eval_var_isMem (hlimit : 1 ≤ limit) (hv : env.var v = .entity u) (type : String) (t : Uid) :
    (isMem (var v) type (lit (.entity t))).eval env limit =
      (if u.type = type then env.memAny u [t] else .ok false).map .bool := by
  rw [eval, evalAt, if_neg (Nat.not_lt_zero limit), evalAt_operand hlimit hv, ok_bind,
    Value.asEntity, ok_bind]
  split
  · rw [evalAt_uid hlimit, ok_bind]
    rfl
  · rfl

end Expr

/-! ### Scopes and their conditions

For each form of a scope, the condition is evaluated and compared with what the scope looks up. The
two differ in one place, where the entity has no record. -/

/-- The outcome `y` of a condition on the entity `u` accords with the outcome `x` of a scope: it is
the same, or the scope does not admit the entity and the condition fails for want of its record. -/
def Accords (env : Env) (u : Uid) (x : Except EvalError (Option ScopeMatch))
    (y : Except EvalError Bool) : Prop :=
  (∃ o, x = .ok o ∧ y = .ok o.isSome) ∨
    x = .ok none ∧ y = .error (.unknownEntity u) ∧ env.entities.contains u = false

namespace Accords

variable {env : Env} {u : Uid} {x : Except EvalError (Option ScopeMatch)}
  {y : Except EvalError Bool}

/-- The condition holds exactly if the scope admits the entity. -/
theorem eq_true_iff (h : Accords env u x y) : y = .ok true ↔ ∃ m, x = .ok (some m) := by
  rcases h with ⟨o, rfl, rfl⟩ | ⟨rfl, rfl, -⟩
  · cases o with
    | none => exact iff_of_false nofun nofun
    | some m => exact iff_of_true rfl ⟨m, rfl⟩
  · exact iff_of_false nofun nofun

/-- The condition fails only since the entity has no record. -/
theorem eq_unknownEntity (h : Accords env u x y) {e : EvalError} (hy : y = .error e) :
    e = .unknownEntity u ∧ env.entities.contains u = false := by
  rcases h with ⟨o, rfl, rfl⟩ | ⟨-, rfl, hcontains⟩
  · cases hy
  · cases hy
    exact ⟨rfl, hcontains⟩

/-- A scope and a condition that both ask whether something is the case. -/
theorem of_test {c : Prop} [Decidable c] {m : ScopeMatch} {b : Bool} (h : b = true ↔ c) :
    Accords env u (.ok (if c then some m else none)) (.ok b) := by
  refine .inl ⟨_, rfl, ?_⟩
  by_cases hc : c
  · rw [if_pos hc, h.mpr hc]
    rfl
  · rw [if_neg hc, Bool.eq_false_iff.mpr fun hb => hc (h.mp hb)]
    rfl

/-- A scope and a condition that both ask for membership. -/
theorem of_memAny {groups groups' : List Uid} {m : ScopeMatch}
    (h : ∀ t, t ∈ groups' ↔ t ∈ groups) :
    Accords env u
      (.ok (if groups.any fun t => env.entities.isDescendant u t then some m else none))
      (env.memAny u groups') := by
  have hany : (groups'.any fun t => env.entities.isDescendant u t) =
      groups.any fun t => env.entities.isDescendant u t := by
    rw [Bool.eq_iff_iff, List.any_eq_true, List.any_eq_true]
    simp only [h]
  rcases env.memAny_eq u groups' with heq | ⟨heq, hknown, hnone⟩
  · rw [heq, hany]
    exact of_test Iff.rfl
  · rw [heq, if_neg (by rw [← hany, hnone]; exact Bool.false_ne_true)]
    exact .inr ⟨rfl, rfl, hknown⟩

/-- A scope and a condition that both ask for one group. -/
theorem of_mem {t : Uid} {m : ScopeMatch} :
    Accords env u (.ok (if env.entities.isDescendant u t then some m else none))
      (env.memAny u [t]) := by
  have haccords : Accords env u
      (.ok (if [t].any fun t => env.entities.isDescendant u t then some m else none))
      (env.memAny u [t]) := of_memAny fun _ => Iff.rfl
  rwa [List.any_cons, List.any_nil, Bool.or_false] at haccords

end Accords

/-- A clause holds as its body says. -/
theorem Clause.holds_of_eval {env : Env} {limit : Nat} {e : Expr} {y : Except EvalError Bool}
    (h : e.eval env limit = y.map .bool) : Clause.holds env limit ⟨.whenTrue, e⟩ = y := by
  unfold Clause.holds
  simp only [h]
  cases y <;> rfl

/-- **The condition of a scope comes to what the scope does**, where two levels of nesting are
allowed. -/
theorem Scope.accords_test {env : Env} {limit : Nat} (hlimit : 2 ≤ limit) {v : Var} {u : Uid}
    (hv : env.var v = .entity u) {scope : Scope} (hslot : scope.slot? = none) {e : Expr}
    (he : scope.test? v = some e) :
    Accords env u (scope.admits env.entities u) (Clause.holds env limit ⟨.whenTrue, e⟩) := by
  have hone : 1 ≤ limit := Nat.le_of_succ_le hlimit
  cases scope with
  | any => cases he
  | eq r =>
      cases r with
      | slot s => cases hslot
      | uid t =>
          cases he
          rw [Reference.expr, Clause.holds_of_eval (Expr.eval_var_eq hone hv t)]
          exact Accords.of_test (by rw [decide_eq_true_iff]; exact eq_comm)
  | mem r =>
      cases r with
      | slot s => cases hslot
      | uid t =>
          cases he
          rw [Reference.expr, Clause.holds_of_eval (Expr.eval_var_mem hone hv t)]
          exact Accords.of_mem
  | memAny us =>
      cases he
      rw [Clause.holds_of_eval (Expr.eval_var_memAny hlimit hv us)]
      exact Accords.of_memAny fun t => Ascending.mem_ofList
  | is type =>
      cases he
      rw [Clause.holds_of_eval (Expr.eval_var_is hone hv type)]
      exact Accords.of_test decide_eq_true_iff
  | isMem type r =>
      cases r with
      | slot s => cases hslot
      | uid t =>
          cases he
          rw [Reference.expr, Clause.holds_of_eval (Expr.eval_var_isMem hone hv type t)]
          have hadmits : (Scope.isMem type (.uid t)).admits env.entities u =
              .ok (if u.type = type ∧ env.entities.isDescendant u t then some .isMem else none) :=
            rfl
          rw [hadmits]
          by_cases htype : u.type = type
          · simp only [htype, true_and, if_true]
            exact Accords.of_mem
          · rw [if_neg htype]
            exact Accords.of_test (iff_of_false Bool.false_ne_true fun h => htype h.1)

/-- A scope admits an entity exactly if its condition, if it has one, is true. -/
theorem Scope.admits_iff_test {env : Env} {limit : Nat} (hlimit : 2 ≤ limit) {v : Var} {u : Uid}
    (hv : env.var v = .entity u) {scope : Scope} (hslot : scope.slot? = none) :
    (∃ m, scope.admits env.entities u = .ok (some m)) ↔
      ∀ e, scope.test? v = some e → Clause.holds env limit ⟨.whenTrue, e⟩ = .ok true := by
  cases hscope : scope.test? v with
  | none =>
      have hany : scope = .any := by cases scope <;> first | rfl | cases hscope
      subst hany
      exact iff_of_true ⟨.any, rfl⟩ nofun
  | some e =>
      have haccords := accords_test hlimit hv hslot hscope
      constructor
      · intro hadmits e' he
        cases he
        exact haccords.eq_true_iff.mpr hadmits
      · exact fun h => haccords.eq_true_iff.mp (h e rfl)

/-! ### Policies -/

namespace Policy

variable {p : Policy} {env : Env} {limit : Nat}

/-- The conditions of a policy in the place of its scopes are those of its single scopes. -/
theorem mem_scopeClauses {c : Clause} : c ∈ p.scopeClauses ↔
    ∃ s ∈ p.scopes, ∃ e, s.2.test? s.1 = some e ∧ c = ⟨.whenTrue, e⟩ := by
  simp only [scopeClauses, List.mem_map, List.mem_filterMap]
  constructor
  · rintro ⟨e, ⟨s, hs, he⟩, rfl⟩
    exact ⟨s, hs, e, he, rfl⟩
  · rintro ⟨s, hs, e, he, rfl⟩
    exact ⟨e, ⟨s, hs, he⟩, rfl⟩

/-- A scope of a closed policy has no slot, and its variable is an entity of the request. -/
theorem Closed.of_mem_scopes (hp : p.Closed) (env : Env) {s : Var × Scope} (hs : s ∈ p.scopes) :
    s.2.slot? = none ∧ ∃ u ∈ [env.request.principal, env.request.action, env.request.resource],
      env.var s.1 = .entity u := by
  simp only [scopes, List.mem_cons, List.not_mem_nil, or_false] at hs
  rcases hs with rfl | rfl | rfl
  · exact ⟨hp.principal, _, by simp, rfl⟩
  · exact ⟨hp.action, _, by simp, rfl⟩
  · exact ⟨hp.resource, _, by simp, rfl⟩

/-- The scopes admit a request exactly if their clauses hold. -/
theorem Closed.inScope_iff (hp : p.Closed) (hlimit : 2 ≤ limit) :
    p.inScope env = .ok true ↔ ∀ c ∈ p.scopeClauses, c.holds env limit = .ok true := by
  have hclauses : (∀ c ∈ p.scopeClauses, c.holds env limit = .ok true) ↔
      ∀ s ∈ p.scopes, ∀ e, s.2.test? s.1 = some e →
        Clause.holds env limit ⟨.whenTrue, e⟩ = .ok true := by
    simp only [mem_scopeClauses]
    constructor
    · exact fun h s hs e he => h _ ⟨s, hs, e, he, rfl⟩
    · rintro h _ ⟨s, hs, e, he, rfl⟩
      exact h s hs e he
  rw [hclauses, inScope_eq_true_iff, scopes, List.forall_mem_cons, List.forall_mem_cons,
    List.forall_mem_singleton]
  exact and_congr (Scope.admits_iff_test hlimit rfl hp.principal)
    (and_congr (Scope.admits_iff_test hlimit rfl hp.action)
      (Scope.admits_iff_test hlimit rfl hp.resource))

/-- **A policy applies** exactly if it does with clauses in the place of its scopes. -/
theorem Closed.applies_asClauses_iff (hp : p.Closed) (hlimit : 2 ≤ limit) :
    p.asClauses.applies env limit = .ok true ↔ p.applies env limit = .ok true := by
  have hall : p.asClauses.inScope env = .ok true := rfl
  rw [applies_eq_true_iff, applies_eq_true_iff, and_iff_right hall, hp.inScope_iff hlimit]
  exact List.forall_mem_append

/-- **A clause of a scope fails** only for want of the record of an entity of the request. -/
theorem Closed.eq_unknownEntity (hp : p.Closed) (hlimit : 2 ≤ limit) {c : Clause}
    (hc : c ∈ p.scopeClauses) {e : EvalError} (he : c.holds env limit = .error e) :
    ∃ u ∈ [env.request.principal, env.request.action, env.request.resource],
      e = .unknownEntity u ∧ env.entities.contains u = false := by
  obtain ⟨s, hs, test, htest, rfl⟩ := mem_scopeClauses.mp hc
  obtain ⟨hslot, u, hu, hv⟩ := hp.of_mem_scopes env hs
  exact ⟨u, hu, (Scope.accords_test hlimit hv hslot htest).eq_unknownEntity he⟩

end Policy

/-! ### Decisions -/

namespace Tally

/-- Two outcomes count alike: they are of policies with the same id and effect, and both policies
apply or neither does. -/
structure CountsAlike (o o' : Policy × Except EvalError Bool) : Prop where
  /-- The ids are the same. -/
  id : o'.1.id = o.1.id
  /-- The effects are the same. -/
  effect : o'.1.effect = o.1.effect
  /-- Both apply or neither does. -/
  applies : o'.2 = .ok true ↔ o.2 = .ok true

/-- The permits and the forbids of a tally. -/
def applied (t : Tally) : List String × List String :=
  (t.permits, t.forbids)

/-- A policy that does not apply is no reason. -/
theorem applied_record_of_ne {t : Tally} {p : Policy} {x : Except EvalError Bool}
    (h : x ≠ .ok true) : (t.record p x).applied = t.applied := by
  rcases x with e | b
  · rfl
  · cases b with
    | false => rfl
    | true => exact absurd rfl h

/-- Outcomes that count alike are recorded alike. -/
theorem CountsAlike.applied_record {t t' : Tally} {o o' : Policy × Except EvalError Bool}
    (h : CountsAlike o o') (ht : t'.applied = t.applied) :
    (t'.record o'.1 o'.2).applied = (t.record o.1 o.2).applied := by
  by_cases happlies : o.2 = .ok true
  · obtain ⟨hpermits, hforbids⟩ := Prod.ext_iff.mp ht
    simp only [applied] at hpermits hforbids
    rw [happlies, h.applies.mpr happlies]
    simp only [record, h.effect, h.id]
    cases o.1.effect <;> simp [applied, hpermits, hforbids]
  · rw [applied_record_of_ne happlies, applied_record_of_ne fun h' => happlies (h.applies.mp h')]
    exact ht

/-- **Outcomes that count alike** lead to the same decision for the same reasons. -/
theorem verdict_congr {os os' : List (Policy × Except EvalError Bool)}
    (h : List.Forall₂ CountsAlike os os') : (ofOutcomes os').verdict = (ofOutcomes os).verdict := by
  have key : ∀ t t' : Tally, t'.applied = t.applied →
      (os'.foldl (fun t o => t.record o.1 o.2) t').applied =
        (os.foldl (fun t o => t.record o.1 o.2) t).applied := by
    induction h with
    | nil => exact fun t t' ht => ht
    | cons ho _ ih => exact fun t t' ht => ih _ _ (ho.applied_record ht)
  obtain ⟨hpermits, hforbids⟩ := Prod.ext_iff.mp (key empty empty rfl)
  change (ofOutcomes os').permits = (ofOutcomes os).permits at hpermits
  change (ofOutcomes os').forbids = (ofOutcomes os).forbids at hforbids
  rw [verdict, verdict, hpermits, hforbids]

end Tally

/-- **Scopes mean what the corresponding clauses mean.** Where two levels of nesting are allowed, a
policy without slots applies exactly if it does with clauses in the place of its scopes. Such a
clause fails only for want of the record of an entity of the request. So authorizers whose policies
differ in this way alone decide alike, for the same reasons. -/
theorem Policy.scopes_as_clauses {limit : Nat} (hlimit : 2 ≤ limit) :
    (∀ (p : Policy) (env : Env), p.Closed →
      (p.applies env limit = .ok true ↔ p.asClauses.applies env limit = .ok true) ∧
      ∀ c ∈ p.scopeClauses, ∀ e, c.holds env limit = .error e →
        ∃ u ∈ [env.request.principal, env.request.action, env.request.resource],
          e = .unknownEntity u ∧ env.entities.contains u = false) ∧
    ∀ a b : Authorizer, a.options.depth = limit → b.options.depth = limit →
      List.Forall₂ (fun p q => q = p ∨ p.Closed ∧ q = p.asClauses) a.effective b.effective →
      ∀ r es, (b.decide r es).decision = (a.decide r es).decision ∧
        (b.decide r es).reasons = (a.decide r es).reasons := by
  refine ⟨fun p env hp => ⟨(hp.applies_asClauses_iff hlimit).symm, fun c hc e he =>
    hp.eq_unknownEntity hlimit hc he⟩, fun a b ha hb heffective r es => ?_⟩
  have halike : List.Forall₂ Tally.CountsAlike (a.outcomes r es) (b.outcomes r es) := by
    unfold Authorizer.outcomes
    rw [List.forall₂_map_left_iff, List.forall₂_map_right_iff, ha, hb]
    refine heffective.imp fun p q hq => ?_
    rcases hq with rfl | ⟨hp, rfl⟩
    · exact ⟨rfl, rfl, Iff.rfl⟩
    · exact ⟨rfl, rfl, hp.applies_asClauses_iff hlimit⟩
  have hverdict := Tally.verdict_congr halike
  exact ⟨congrArg Prod.fst hverdict, congrArg Prod.snd hverdict⟩

/-- A permit for the staff to do one of two things. -/
def staffPermit : Policy :=
  ⟨"staff", .permit, .mem (.uid ⟨"Group", "staff"⟩),
    .memAny [⟨"Action", "view"⟩, ⟨"Action", "edit"⟩], .is "Photo", [], []⟩

/-- A principal without a record is not admitted by the scope, and its clause fails; the decision is
the same. -/
theorem Policy.scopes_as_clauses_stranger :
    let r : Request := ⟨⟨"User", "eve"⟩, ⟨"Action", "view"⟩, ⟨"Photo", "beach"⟩, [], none⟩
    let a : Authorizer := ⟨⟨[staffPermit], [], []⟩, [staffPermit], none, .standard⟩
    let b : Authorizer := { a with effective := [staffPermit.asClauses] }
    2 ≤ Grammar.nestingLimit ∧ staffPermit.Closed ∧
      staffPermit.applies ⟨r, .empty⟩ Grammar.nestingLimit = .ok false ∧
      staffPermit.asClauses.applies ⟨r, .empty⟩ Grammar.nestingLimit =
        .error (.unknownEntity ⟨"User", "eve"⟩) ∧
      (staffPermit.applies ⟨r, .empty⟩ Grammar.nestingLimit = .ok true ↔
        staffPermit.asClauses.applies ⟨r, .empty⟩ Grammar.nestingLimit = .ok true) ∧
      (b.decide r .empty).decision = (a.decide r .empty).decision ∧
      (b.decide r .empty).reasons = (a.decide r .empty).reasons := by
  intro r a b
  have hlimit : 2 ≤ Grammar.nestingLimit := by decide
  have hclosed : staffPermit.Closed := ⟨rfl, rfl, rfl, List.forall_mem_nil _⟩
  have hforms : List.Forall₂ (fun p q => q = p ∨ p.Closed ∧ q = p.asClauses)
      a.effective b.effective := .cons (.inr ⟨hclosed, rfl⟩) .nil
  exact ⟨hlimit, hclosed, by decide +kernel, by decide +kernel,
    ((Policy.scopes_as_clauses hlimit).1 staffPermit ⟨r, .empty⟩ hclosed).1,
    (Policy.scopes_as_clauses hlimit).2 a b rfl rfl hforms r .empty⟩

end AccessPolicy
