import AccessPolicy.Proofs.Authorization.DenyOverrides
import AccessPolicy.Proofs.Engine.Batch
import AccessPolicy.Proofs.Engine.Coherence
import AccessPolicy.Proofs.Parse.WellFormed
import AccessPolicy.Proofs.Policy.Consistent

/-!
# Listings and decisions

A listing looks at the scopes of principals only; a decision looks at them first and then at all the
rest, where a policy can still fail.

* `Scope.covers es u s` — the entity `u` is what the scope `s` asks for, without a word on how
  scopes are tested.
* **A listing is a filter** (`Snapshot.result_listing`): as long as no principal scope waits for a
  link, it succeeds, with the policies whose scope covers the principal in their order.
* **What is not covered does not apply and does not fail** (`Policy.applies_of_not_covers`).
* **Engines hold closed policies** (`Registry.Run.closed`), so that their listings cover their
  decisions (`Registry.Run.listing_covers`).
-/

namespace AccessPolicy

/-! ### Scopes -/

namespace Scope

/-- Whether an entity is what a scope asks for. A slot asks for none. -/
def covers (es : Entities) (u : Uid) : Scope → Bool
  | any => true
  | eq r => r = .uid u
  | mem (.uid t) => es.isDescendant u t
  | memAny ts => ts.any fun t => es.isDescendant u t
  | is type => u.type = type
  | isMem type (.uid t) => u.type = type ∧ es.isDescendant u t
  | mem (.slot _) | isMem _ (.slot _) => false

/-- A scope without a slot admits what it covers. -/
theorem exists_admits_covers {scope : Scope} (h : scope.slot? = none) (es : Entities) (u : Uid) :
    ∃ o, scope.admits es u = .ok o ∧ o.isSome = scope.covers es u := by
  have htest : ∀ (b : Bool) (m : ScopeMatch), (if b then some m else none).isSome = b := by
    intro b m
    cases b <;> rfl
  cases scope with
  | any => exact ⟨_, rfl, rfl⟩
  | memAny ts => exact ⟨_, rfl, htest _ _⟩
  | is type =>
      refine ⟨_, rfl, ?_⟩
      by_cases htype : u.type = type <;> simp [covers, htype]
  | eq r =>
      cases r with
      | slot s => cases h
      | uid t =>
          refine ⟨_, rfl, ?_⟩
          by_cases heq : t = u <;> simp [covers, heq]
  | mem r =>
      cases r with
      | slot s => cases h
      | uid t => exact ⟨_, rfl, htest _ _⟩
  | isMem type r =>
      cases r with
      | slot s => cases h
      | uid t =>
          refine ⟨_, rfl, ?_⟩
          by_cases hboth : u.type = type ∧ es.isDescendant u t <;> simp [covers, hboth]

end Scope

/-- **What is not covered** by the scope of its principal does not apply, and nothing else of it is
looked at, so that it does not fail either. -/
theorem Policy.applies_of_not_covers {p : Policy} (h : p.principal.slot? = none) {env : Env}
    (hnot : p.principal.covers env.entities env.request.principal = false) (limit : Nat) :
    p.applies env limit = .ok false := by
  obtain ⟨o, hadmits, hsome⟩ :=
    Scope.exists_admits_covers h env.entities env.request.principal
  have hnone : ¬o.isSome = true := by
    rw [hsome, hnot]
    exact Bool.false_ne_true
  have hscope : p.inScope env = .ok false := by
    rw [inScope, hadmits, ok_bind, if_neg hnone]
    rfl
  rw [applies, hscope]
  rfl

/-! ### Snapshots -/

namespace Snapshot

variable {s : Snapshot} {r : Request} {response : Response}

theorem result_listingOf (u : Uid) {ps : List Policy} (h : ∀ p ∈ ps, p.principal.slot? = none) :
    (s.listingOf u ps).result = .ok (ps.filter fun p => p.principal.covers s.entities u) := by
  induction ps with
  | nil => rfl
  | cons p ps ih =>
      rw [List.forall_mem_cons] at h
      obtain ⟨o, hadmits, hsome⟩ := Scope.exists_admits_covers h.1 s.entities u
      cases o with
      | none =>
          have hnot : p.principal.covers s.entities u = false := hsome.symm
          simp only [listingOf, hadmits, List.filter_cons, hnot]
          exact ih h.2
      | some m =>
          have hcovers : p.principal.covers s.entities u = true := hsome.symm
          simp only [listingOf, hadmits, List.filter_cons, hcovers, Logged.result_bind,
            Logged.result_note, Logged.result_pure, ih h.2, Except.bind, if_true]

/-- **A listing** has the policies whose scope covers the principal, in their order. -/
theorem result_listing (h : ∀ p ∈ s.authorizer.effective, p.Closed) (u : Uid) :
    (s.listing u).result =
      .ok (s.authorizer.effective.filter fun p => p.principal.covers s.entities u) :=
  result_listingOf u fun p hp => (h p hp).principal

/-- What is evaluated is decided. -/
theorem eq_decide_of_evaluate (h : (s.evaluate r).result = .ok response) :
    response = s.authorizer.decide r s.entities := by
  rw [result_evaluate] at h
  exact PolicySet.eq_decide_of_authorize h

/-- A policy that is a reason or an error of a decision is covered by the scope of its principal. -/
theorem exists_covers_of_decide (hclosed : ∀ p ∈ s.authorizer.effective, p.Closed)
    (hids : s.authorizer.ids.Nodup) {id : String}
    (hid : id ∈ (s.authorizer.decide r s.entities).reasons ∨
      id ∈ (s.authorizer.decide r s.entities).errors) :
    ∃ p ∈ s.authorizer.effective, p.id = id ∧
      p.principal.covers s.entities r.principal = true := by
  have hoccurs : ∃ p ∈ s.authorizer.effective, p.id = id ∧
      s.authorizer.outcome r s.entities p ≠ .ok false := by
    rcases hid with hreason | herror
    · obtain ⟨p, hp, rfl, happlies⟩ := Authorizer.exists_applied_of_mem_reasons hids hreason
      exact ⟨p, hp, rfl, by simp [happlies]⟩
    · have hdecided :=
        (Authorizer.counts_tally r s.entities hids).deniesFirst r.correlationId
      obtain ⟨p, hp, rfl, e, hfails⟩ := (hdecided.mem_errors id).mp herror
      exact ⟨p, hp, rfl, by simp [hfails]⟩
  obtain ⟨p, hp, hname, houtcome⟩ := hoccurs
  refine ⟨p, hp, hname, Bool.not_eq_false _ ▸ fun hnot => houtcome ?_⟩
  exact Policy.applies_of_not_covers (hclosed p hp).principal hnot _

end Snapshot

/-! ### Runs -/

namespace Registry

variable {reg : Registry} {events : List EngineEvent} {name : String} {s : Snapshot}

/-- **Engines hold closed policies** with distinct ids: those of a text, which are as they were
read. -/
theorem Run.closed (hrun : Run events reg) (hs : reg.current? name = some s) :
    (∀ p ∈ s.authorizer.effective, p.Closed) ∧ s.authorizer.ids.Nodup := by
  obtain ⟨text, hcoherent⟩ := hrun.coherent hs
  have hset : s.authorizer.policies.Consistent :=
    (PolicySet.wellFormed_of_parse hcoherent.policies).consistent
  obtain ⟨linked, heffective, -, hclosed⟩ := hset.exists_effective
  have hall : s.authorizer.effective = s.authorizer.policies.policies ++ linked :=
    Except.ok.inj (hcoherent.effective.symm.trans heffective)
  exact ⟨hall ▸ hclosed, PolicySet.nodup_ids_of_effective hset.ids hcoherent.effective⟩

/-- **Listings cover decisions.** After every run, the listing of a principal by an engine succeeds,
with the policies that take part in decisions and whose scope covers the principal, in their order.
Whatever request of that principal the engine then responds to, the reasons and the errors of the
response are ids of listed policies. -/
theorem Run.listing_covers (hrun : Run events reg) (hs : reg.current? name = some s)
    (principal : Uid) :
    ∃ ps, (s.listing principal).result = .ok ps ∧
      ps = s.authorizer.effective.filter (fun p => p.principal.covers s.entities principal) ∧
      ∀ (r : Request) (response : Response), r.principal = principal →
        (s.evaluate r).result = .ok response →
          ∀ id, id ∈ response.reasons ∨ id ∈ response.errors → ∃ p ∈ ps, p.id = id := by
  obtain ⟨hclosed, hids⟩ := hrun.closed hs
  refine ⟨_, Snapshot.result_listing hclosed principal, rfl, ?_⟩
  rintro r response rfl hevaluate id hid
  obtain rfl := Snapshot.eq_decide_of_evaluate hevaluate
  obtain ⟨p, hp, hname, hcovers⟩ := Snapshot.exists_covers_of_decide hclosed hids hid
  exact ⟨p, List.mem_filter.mpr ⟨hp, hcovers⟩, hname⟩

/-- A permit for a user, a forbid that fails for want of an attribute, and a permit for another
user. -/
def mixedText : String :=
  "permit(principal==User::\"u\",action,resource);" ++
  "forbid(principal is User,action,resource)when\x7bcontext.blocked\x7d;" ++
  "permit(principal==User::\"v\",action,resource);"

/-- An engine without entities that holds the policies of the text. -/
def mixed : Snapshot :=
  let set : PolicySet :=
    ⟨[⟨"policy0", .permit, .eq (.uid ⟨"User", "u"⟩), .any, .any, [], []⟩,
      ⟨"policy1", .forbid, .is "User", .any, .any,
        [⟨.whenTrue, .getAttr (.var .context) "blocked"⟩], []⟩,
      ⟨"policy2", .permit, .eq (.uid ⟨"User", "v"⟩), .any, .any, [], []⟩], [], []⟩
  ⟨⟨set, set.policies, none, .standard⟩, .empty, .ofText mixedText "now"⟩

/-- For the first user, the first policy is a reason and the second one is an error, and these two
are listed. -/
theorem listing_covers_failure :
    ∃ (events : List EngineEvent) (reg : Registry) (r : Request) (response : Response)
      (ps : List Policy),
      Run events reg ∧ reg.current? "a" = some mixed ∧ r.principal = ⟨"User", "u"⟩ ∧
        (mixed.evaluate r).result = .ok response ∧
        response.reasons = ["policy0"] ∧ response.errors = ["policy1"] ∧
        (mixed.listing ⟨"User", "u"⟩).result = .ok ps ∧ ps.map (·.id) = ["policy0", "policy1"] ∧
        mixed.policyCount = 3 ∧ ∃ p ∈ ps, p.id = "policy1" := by
  let r : Request := .ofUids ⟨"User", "u"⟩ ⟨"Action", "view"⟩ ⟨"Photo", "p"⟩
  have hparse : PolicySet.parse mixedText = .ok mixed.authorizer.policies := by decide +kernel
  have hload : (Snapshot.load mixedText none "now").result = .ok mixed := by
    unfold Snapshot.load
    refine Logged.result_bind_eq_ok.mpr ⟨none, rfl, ?_⟩
    refine Logged.result_bind_eq_ok.mpr ⟨mixed.authorizer.policies, ?_, ?_⟩
    · exact (Logged.result_ofResult _).trans hparse
    · exact Logged.result_bind_eq_ok.mpr ⟨mixed.authorizer, rfl, rfl⟩
  have hrun := Run.start.step
    (show Registry.empty.step? (.create "a" mixedText none "now") = some (_, _) from
      congrArg some (commit_of_ok hload))
  have hs : (Registry.empty.create "a" mixed).current? "a" = some mixed := rfl
  have herrors : (mixed.authorizer.decide r mixed.entities).errors = ["policy1"] := by
    decide +kernel
  obtain ⟨ps, hps, hfilter, hcovers⟩ := hrun.listing_covers hs ⟨"User", "u"⟩
  refine ⟨_, _, r, mixed.authorizer.decide r mixed.entities, ps, hrun, hs, rfl, rfl,
    by decide +kernel, herrors, hps, ?_, rfl, ?_⟩
  · rw [hfilter]
    decide +kernel
  · exact hcovers r _ rfl rfl "policy1" (.inr (herrors ▸ List.mem_singleton_self _))

end Registry

end AccessPolicy
