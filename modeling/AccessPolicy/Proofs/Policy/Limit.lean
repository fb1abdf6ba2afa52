import AccessPolicy.Authorization.Options
import AccessPolicy.Proofs.Expr.Limit
import AccessPolicy.Proofs.Policy.Slots
import AccessPolicy.Proofs.Tree.Reachable

/-!
# Policies and the limit on depth

Scopes have no depth, so that a policy is refused only where one of its conditions is
(`Policy.not_refused_applies`). What was read nests no deeper than the standard limit, and links
keep the depth: **no policy that was read, and no link of one, is ever refused** under the standard
options (`Policy.WellFormed.not_refused`, `Policy.WellFormed.not_refused_link`).

`Expr.eval_limit` puts this together with what the limit means for a single expression: **it never
changes a result, it only refuses one**.
-/

namespace AccessPolicy

/-! ### Scopes and clauses -/

/-- Resolving a reference does not look at the depth. -/
theorem Reference.raises_resolve (r : Reference) : Raises EvalError.Unlimited r.resolve := by
  cases r with
  | uid u => exact Raises.ok
  | slot s => exact Raises.error nofun

/-- No scope is refused. -/
theorem Scope.raises_admits (s : Scope) (es : Entities) (u : Uid) :
    Raises EvalError.Unlimited (s.admits es u) := by
  cases s with
  | any | memAny us | is type => exact Raises.ok
  | eq r | mem r | isMem type r => exact r.raises_resolve.bind fun t => Raises.ok

variable {env : Env} {limit : Nat}

/-- A clause is not refused if its body is no deeper than the limit. -/
theorem Clause.raises_holds {c : Clause} (h : c.body.depth ≤ limit) :
    Raises EvalError.Unlimited (c.holds env limit) := by
  have hbody : Raises EvalError.Unlimited (c.body.eval env limit) :=
    not_refused_iff.mp (Expr.eval_of_depth_le h).1
  refine hbody.bind fun v => ?_
  refine (Raises.asBool.mono fun e he => he.unlimited).bind fun b => ?_
  split <;> exact Raises.ok

/-- Clauses are not refused if their bodies are no deeper than the limit. -/
theorem Clause.raises_allHold {cs : List Clause} (h : ∀ c ∈ cs, c.body.depth ≤ limit) :
    Raises EvalError.Unlimited (Clause.allHold env limit cs) := by
  induction cs with
  | nil => exact Raises.ok
  | cons c cs ih =>
      obtain ⟨hc, hcs⟩ := List.forall_mem_cons.mp h
      refine (raises_holds hc).bind fun b => ?_
      split
      · exact ih hcs
      · exact Raises.ok

/-! ### Policies -/

namespace Policy

variable {p q : Policy}

/-- Scopes do not look at the depth. -/
theorem raises_inScope (p : Policy) : Raises EvalError.Unlimited (p.inScope env) := by
  refine (p.principal.raises_admits _ _).bind fun o => ?_
  split
  · refine (p.action.raises_admits _ _).bind fun o => ?_
    split
    · exact (p.resource.raises_admits _ _).bind fun o => Raises.ok
    · exact Raises.ok
  · exact Raises.ok

/-- A policy whose conditions are within the limit is not refused. -/
theorem not_refused_applies (h : ∀ c ∈ p.conditions, c.body.depth ≤ limit) :
    ¬Refused (p.applies env limit) := by
  rw [not_refused_iff]
  refine p.raises_inScope.bind fun b => ?_
  split
  · exact Clause.raises_allHold h
  · exact Raises.ok

/-- **What could have been read is not refused** under the standard options. -/
theorem WellFormed.not_refused (hp : p.WellFormed) :
    ¬Refused (p.applies env AuthorizerOptions.standard.depth) :=
  not_refused_applies fun c hc => (hp.conditions c hc).2

/-- **Nor is a link of it**, whatever it is linked to. -/
theorem WellFormed.not_refused_link (hp : p.WellFormed) {id : String}
    {values : List (Slot × Uid)} (h : p.link id values = .ok q) :
    ¬Refused (q.applies env AuthorizerOptions.standard.depth) := by
  obtain ⟨-, rfl⟩ := link_eq_ok_iff.mp h
  refine not_refused_applies fun c hc => ?_
  obtain ⟨c, hmem, rfl⟩ := List.mem_map.mp hc
  rw [Expr.depth_bind]
  exact (hp.conditions c hmem).2

end Policy

/-! ### What the limit means -/

/-- **The limit never changes a result, it only refuses one.** A result that is not refused stays
under any higher limit; an expression within the limit is not refused and comes to what it denotes;
and no policy that was read, nor any link of one, is refused under the standard options. -/
theorem Expr.eval_limit :
    (∀ (e : Expr) (env : Env) (limit limit' : Nat), limit ≤ limit' →
      ¬Refused (e.eval env limit) → e.eval env limit' = e.eval env limit) ∧
    (∀ (e : Expr) (env : Env) (limit : Nat), e.depth ≤ limit →
      ¬Refused (e.eval env limit) ∧ SameButTarget (e.eval env limit) (e.denote env)) ∧
    (∀ p : Policy, p.Read → ∀ env : Env,
      ¬Refused (p.applies env AuthorizerOptions.standard.depth) ∧
      ∀ (id : String) (values : List (Slot × Uid)) (q : Policy), p.link id values = .ok q →
        ¬Refused (q.applies env AuthorizerOptions.standard.depth)) := by
  refine ⟨?_, ?_, ?_⟩
  · intro e env limit limit' hle hx
    exact eval_of_le hle hx
  · intro e env limit h
    exact eval_of_depth_le h
  · intro p hp env
    have hwellFormed := hp.wellFormed
    exact ⟨hwellFormed.not_refused, fun id values q h => hwellFormed.not_refused_link h⟩

/-- A missing attribute of the context is refused at no depth, found out at once at any other, and
named differently by what the expression denotes; and a template with a negated slot was read. -/
theorem Expr.eval_limit_missingAttribute :
    let e : Expr := .unary .not (.getAttr (.var .context) "key")
    let env : Env := ⟨.ofUids ⟨"User", "ann"⟩ ⟨"Action", "view"⟩ ⟨"Photo", "p"⟩, .empty⟩
    let p : Policy := ⟨"policy0", .permit, .any, .any, .any,
      [⟨.whenTrue, .binary .eq (.slot .principal) (.var .principal)⟩], []⟩
    let q : Policy := ⟨"l", .permit, .any, .any, .any,
      [⟨.whenTrue, .binary .eq (.lit (.entity ⟨"User", "ann"⟩)) (.var .principal)⟩], []⟩
    Refused (e.eval env 0) ∧
      e.eval env 1 = .error (.attributeNotFound "context" "key") ∧ e.depth = 2 ∧
      e.eval env 7 = e.eval env 1 ∧ SameButTarget (e.eval env 2) (e.denote env) ∧
      e.denote env = .error (.attributeNotFound "record" "key") ∧ p.Read ∧
      p.link "l" [(.principal, ⟨"User", "ann"⟩)] = .ok q ∧
      ¬Refused (q.applies env AuthorizerOptions.standard.depth) := by
  intro e env p q
  have hzero : e.eval env 0 = .error (.recursionLimit 0) := by rfl
  have hone : e.eval env 1 = .error (.attributeNotFound "context" "key") := by rfl
  have hnot : ¬Refused (e.eval env 1) := by
    rintro ⟨limit, hlimit⟩
    cases hone.symm.trans hlimit
  have hparse : Policy.parse
      "permit(principal,action,resource) when\x7b?principal==principal\x7d;" none = .ok p := by
    decide +kernel
  have hlink : p.link "l" [(.principal, ⟨"User", "ann"⟩)] = .ok q := by decide +kernel
  obtain ⟨hhigher, hdeep, hpolicies⟩ := Expr.eval_limit
  refine ⟨⟨0, hzero⟩, hone, by rfl, ?_, ?_, by rfl, .text hparse, hlink, ?_⟩
  · exact hhigher e env 1 7 (by decide) hnot
  · exact (hdeep e env 2 (by decide)).2
  · exact (hpolicies p (.text hparse) env).2 "l" _ q hlink

end AccessPolicy
