import AccessPolicy.Proofs.Authorization.DenyOverrides
import AccessPolicy.Proofs.Policy.Applies
import AccessPolicy.Proofs.Policy.Consistent
import AccessPolicy.Proofs.Schema.Hierarchy
import AccessPolicy.Schema.PolicyCheck

/-!
# Policies that cannot apply

The check of policies warns of a policy whose scopes admit no kind of request that the schema
allows. It decides from the schema's own memberships, an authorization from the parents of records.
The two agree as far as records are checked, and records of declared actions are not.

* `Schema.KeepsMemberships s e` — if `e` is a record of a declared action, its parents are groups of
  the action.
* **Parents follow the schema** (`Schema.Conforms.admitsParents`, `Schema.Conforms.leads_groups`):
  in a store of such records, whatever can be reached through parents can be reached in the schema.
* **Scopes follow the schema** (`Schema.Conforms.scopeAdmits`,
  `Schema.Conforms.mem_admittedActions`): so a scope that admits an entity admits its type, or the
  action.
* **A policy that was warned of takes part in no decision** (`Authorizer.decide_impossible`), if no
  slot occurs in it. A slot in the scope of the action does not make a policy a template, and it
  leaves the check without a complaint but the authorization with an error
  (`Authorizer.decide_unkept`).
-/

namespace AccessPolicy

/-- A scope that admits an entity on a condition has the condition met. -/
theorem Scope.of_ite_admits {c : Prop} [Decidable c] {m m' : ScopeMatch}
    (h : (.ok (if c then some m else none) : Except EvalError (Option ScopeMatch)) =
      .ok (some m')) : c := by
  by_cases hc : c
  · exact hc
  · rw [if_neg hc] at h
    cases h

namespace Schema

variable {s : Schema} {es : Entities} {e : Entity} {u t : Uid}

/-! ### Stores that follow a schema

The check of a record looks at its parents only if its type is declared. Records of actions pass
without it, so that what they say has to be asked for. -/

/-- The parents of a record of a declared action are groups of the action; where its type is
declared as well, they are of types that its type can be in. -/
def KeepsMemberships (s : Schema) (e : Entity) : Prop :=
  s.hasAction e.uid → ∀ g ∈ e.parents, g ∈ s.groupsOf e.uid ∧
    (s.hasType e.uid.type → g.type ∈ s.parentTypes e.uid.type)

instance (s : Schema) (e : Entity) : Decidable (s.KeepsMemberships e) :=
  inferInstanceAs (Decidable (_ → ∀ g ∈ e.parents, _ ∧ (_ → _)))

/-- The schema is well-formed, and the records of the store pass their checks and keep its
memberships. -/
structure Conforms (s : Schema) (es : Entities) : Prop where
  /-- The schema is well-formed. -/
  schema : s.WellFormed
  /-- The records pass their checks. -/
  checked : ∀ e ∈ es.records, s.checkEntity e = .ok ()
  /-- The records of actions keep the memberships. -/
  keeps : ∀ e ∈ es.records, s.KeepsMemberships e

namespace Conforms

/-- The parents in the store are such as the schema admits. -/
theorem admitsParents (h : s.Conforms es) : s.AdmitsParents es := by
  intro u t ht hu
  obtain ⟨e, he, rfl, hparent⟩ := Entities.hasParent_of_mem_parents ht
  rcases hasAction_or_of_checkEntity (h.checked e he) with haction | hparents
  · exact (h.keeps e he haction t hparent).2 hu
  · exact hparents t hparent

/-- A parent of a declared action is one of its groups. -/
theorem mem_groupsOf (h : s.Conforms es) (ht : t ∈ es.parents u) (hu : s.hasAction u) :
    t ∈ s.groupsOf u := by
  obtain ⟨e, he, rfl, hparent⟩ := Entities.hasParent_of_mem_parents ht
  exact (h.keeps e he hu t hparent).1

/-- **What a declared action can reach** is a group that it belongs to. -/
theorem leads_groups (h : s.Conforms es) (hlead : Reach.Leads es.parents u t)
    (hu : s.hasAction u) : Reach.Leads s.groupsOf u t ∧ s.hasAction t := by
  induction hlead with
  | single ht =>
      have hmem := h.mem_groupsOf ht hu
      exact ⟨.single hmem, h.schema.groups hmem⟩
  | tail _ hv ih =>
      have hmem := h.mem_groupsOf hv ih.2
      exact ⟨ih.1.tail hmem, h.schema.groups hmem⟩

/-- What an entity of a declared type is a descendant of has a type in which its own can be. -/
theorem typeCanBeIn (h : s.Conforms es) (hlead : es.isDescendant u t) (hu : s.hasType u.type) :
    s.typeCanBeIn u.type t.type :=
  h.schema.typeCanBeIn_of_isDescendant h.admitsParents hlead hu

/-- What a declared action is a descendant of is a group of the action. -/
theorem inGroup (h : s.Conforms es) (hlead : es.isDescendant u t) (hu : s.hasAction u) :
    s.inGroup u t := by
  rw [h.schema.inGroup_iff]
  exact (Entities.eq_or_leads_of_isDescendant hlead).imp_right fun hlead =>
    (h.leads_groups hlead hu).1

/-! ### Scopes -/

/-- **A scope that admits an entity** admits the type of the entity. -/
theorem scopeAdmits (h : s.Conforms es) {scope : Scope} {m : ScopeMatch}
    (hadmits : scope.admits es u = .ok (some m)) (hu : s.hasType u.type) :
    s.scopeAdmits u.type scope := by
  have hcanBeIn : ∀ {r : Reference} {t : Uid}, r.resolve = .ok t → es.isDescendant u t →
      s.canBeIn u.type r := by
    intro r t hr hlead
    cases r with
    | uid v =>
        cases hr
        exact h.typeCanBeIn hlead hu
    | slot slot => rfl
  cases scope with
  -- The check lets every type pass for a list of entities.
  | any | memAny us => rfl
  | eq r =>
      obtain ⟨t, hr, hadmits⟩ := bind_eq_ok.mp hadmits
      cases r with
      | slot slot => rfl
      | uid v =>
          cases hr
          obtain rfl := Scope.of_ite_admits hadmits
          exact decide_eq_true rfl
  | mem r =>
      obtain ⟨t, hr, hadmits⟩ := bind_eq_ok.mp hadmits
      exact hcanBeIn hr (Scope.of_ite_admits hadmits)
  | is type =>
      obtain rfl := Scope.of_ite_admits hadmits
      exact decide_eq_true rfl
  | isMem type r =>
      obtain ⟨t, hr, hadmits⟩ := bind_eq_ok.mp hadmits
      obtain ⟨rfl, hlead⟩ := Scope.of_ite_admits hadmits
      exact Bool.and_eq_true_iff.mpr ⟨decide_eq_true rfl, hcanBeIn hr hlead⟩

/-- **A scope that admits a declared action** admits the action in the schema, where it names only
declared actions. -/
theorem mem_admittedActions (h : s.Conforms es) {scope : Scope} {m : ScopeMatch} {d : ActionDecl}
    (hadmits : scope.admits es u = .ok (some m)) (hd : s.action? u = some d)
    (hnamed : ∀ v ∈ scope.namedActions.getD [], s.hasAction v) :
    (u, d) ∈ s.admittedActions scope := by
  have hmem : (u, d) ∈ s.actions := Ascending.mem_of_get? hd
  have hu : s.hasAction u := by
    rw [hasAction, hd]
    rfl
  -- a group that the action stands below is known, and the schema has the action in it
  have hgroup : ∀ {groups : List Uid} {g : Uid}, (∀ v ∈ groups, s.hasAction v) → g ∈ groups →
      es.isDescendant u g →
      (u, d) ∈ s.actions.filter fun a =>
        (groups.filter s.hasAction).any fun g => s.inGroup a.1 g := by
    intro groups g hgroups hg hlead
    refine List.mem_filter.mpr ⟨hmem, List.any_eq_true.mpr ⟨g, ?_, h.inGroup hlead hu⟩⟩
    exact List.mem_filter.mpr ⟨hg, hgroups g hg⟩
  cases scope with
  | any | is type => exact hmem
  | eq r =>
      obtain ⟨t, hr, hadmits⟩ := bind_eq_ok.mp hadmits
      cases r with
      | slot slot => cases hr
      | uid v =>
          cases hr
          obtain rfl := Scope.of_ite_admits hadmits
          exact List.mem_filter.mpr ⟨hmem, decide_eq_true rfl⟩
  | mem r =>
      obtain ⟨t, hr, hadmits⟩ := bind_eq_ok.mp hadmits
      cases r with
      | slot slot => cases hr
      | uid v =>
          cases hr
          exact hgroup hnamed List.mem_cons_self (Scope.of_ite_admits hadmits)
  | memAny us =>
      obtain ⟨g, hg, hlead⟩ := List.any_eq_true.mp (Scope.of_ite_admits hadmits)
      exact hgroup hnamed hg hlead
  | isMem type r => exact hmem

end Conforms

/-! ### Requests -/

/-- A type that passes the check of requests is declared and admitted. -/
theorem hasType_of_checkApplicable {type : String} {admitted : List String} {refused : RequestError}
    (h : s.checkApplicable type admitted refused = .ok ()) : s.hasType type ∧ type ∈ admitted := by
  unfold checkApplicable at h
  by_cases htype : s.hasType type
  · have hmem : type ∈ admitted := by simpa [htype] using h
    exact ⟨htype, hmem⟩
  · simp [htype] at h

/-- A request that passes its check is one that its action allows. -/
theorem allowed_of_checkRequest {r : Request} (h : s.checkRequest r = .ok ()) :
    ∃ d, s.action? r.action = some d ∧
      (s.hasType r.principal.type ∧ r.principal.type ∈ d.principalTypes) ∧
      (s.hasType r.resource.type ∧ r.resource.type ∈ d.resourceTypes) := by
  unfold checkRequest at h
  cases hd : s.action? r.action with
  | none =>
      rw [hd] at h
      cases h
  | some d =>
      rw [hd] at h
      obtain ⟨_, hprincipal, h⟩ := bind_eq_ok.mp h
      obtain ⟨_, hresource, -⟩ := bind_eq_ok.mp h
      exact ⟨d, rfl, hasType_of_checkApplicable hprincipal, hasType_of_checkApplicable hresource⟩

end Schema

/-! ### Warnings -/

namespace Schema

variable {s : Schema} {es : Entities} {p : Policy} {set : PolicySet} {r : Request}

/-- A policy that is warned of names what is declared, and no kind of request is left to it. -/
theorem of_mem_warnings_checkPolicy {id : String}
    (h : (id, .impossible) ∈ (s.checkPolicy p).warnings) :
    p.id = id ∧ s.scopeErrors p = [] ∧ s.shapes p = [] := by
  unfold checkPolicy at h
  by_cases hcond : (s.scopeErrors p).isEmpty && (s.shapes p).isEmpty
  · simp only [if_pos hcond, List.mem_singleton, Prod.mk.injEq] at h
    rw [Bool.and_eq_true, List.isEmpty_iff, List.isEmpty_iff] at hcond
    exact ⟨h.1.symm, hcond⟩
  · simp only [if_neg hcond] at h
    cases h

/-- A warning about a set is one about a policy in it. -/
theorem mem_warnings_foldr {w : String × PolicyWarning} {reports : List PolicyReport}
    (h : w ∈ (reports.foldr PolicyReport.append .empty).warnings) :
    ∃ x ∈ reports, w ∈ x.warnings := by
  induction reports with
  | nil => cases h
  | cons x xs ih =>
      rcases List.mem_append.mp h with h | h
      · exact ⟨x, List.mem_cons_self, h⟩
      · obtain ⟨y, hy, hw⟩ := ih h
        exact ⟨y, List.mem_cons_of_mem x hy, hw⟩

/-- A warning is that of a policy or a template of the set. -/
theorem exists_of_mem_warnings {id : String}
    (h : (id, .impossible) ∈ (s.checkPolicies set).warnings) :
    ∃ p ∈ set.policies ++ set.templates, p.id = id ∧ s.scopeErrors p = [] ∧ s.shapes p = [] := by
  rw [checkPolicies, PolicyReport.append, List.append_nil] at h
  obtain ⟨x, hx, hw⟩ := mem_warnings_foldr h
  obtain ⟨p, hp, rfl⟩ := List.mem_map.mp hx
  exact ⟨p, hp, of_mem_warnings_checkPolicy hw⟩

/-- The actions that a scope without errors names are declared. -/
theorem hasAction_of_scopeErrors (h : s.scopeErrors p = []) :
    ∀ u ∈ p.action.namedActions.getD [], s.hasAction u := by
  intro u hu
  have hactions := (List.append_eq_nil_iff.mp h).2
  have hfilter := List.filter_eq_nil_iff.mp (List.map_eq_nil_iff.mp hactions) u hu
  simpa using hfilter

/-- **Scopes that leave no kind of request** admit no request that passes its check. -/
theorem Conforms.not_inScope (h : s.Conforms es) (hr : s.checkRequest r = .ok ())
    (hnamed : s.scopeErrors p = []) (hshapes : s.shapes p = []) :
    p.inScope ⟨r, es⟩ ≠ .ok true := by
  intro hscope
  obtain ⟨⟨_, hprincipal⟩, ⟨_, haction⟩, ⟨_, hresource⟩⟩ := Policy.inScope_eq_true_iff.mp hscope
  obtain ⟨d, hd, ⟨hptype, hpmem⟩, ⟨hrtype, hrmem⟩⟩ := allowed_of_checkRequest hr
  have hadmitted := h.mem_admittedActions haction hd (hasAction_of_scopeErrors hnamed)
  have hp : r.principal.type ∈ d.principalTypes.filter (s.scopeAdmits · p.principal) :=
    List.mem_filter.mpr ⟨hpmem, h.scopeAdmits hprincipal hptype⟩
  have hq : r.resource.type ∈ d.resourceTypes.filter (s.scopeAdmits · p.resource) :=
    List.mem_filter.mpr ⟨hrmem, h.scopeAdmits hresource hrtype⟩
  have hshape : (⟨r.action, r.principal.type, r.resource.type, d.context⟩ : RequestShape) ∈
      s.shapes p := by
    refine List.mem_flatMap.mpr ⟨(r.action, d), hadmitted, ?_⟩
    exact List.mem_flatMap.mpr ⟨r.principal.type, hp, List.mem_map.mpr ⟨r.resource.type, hq, rfl⟩⟩
  rw [hshapes] at hshape
  cases hshape

end Schema

/-! ### Decisions -/

namespace Authorizer

variable {a : Authorizer} {set : PolicySet} {es : Entities} {r : Request} {p : Policy}

/-- A policy that is no part of a decision: it is no reason, and it has not failed. -/
theorem not_mem_of_outcome (hids : a.ids.Nodup) (hp : p ∈ a.effective)
    (h : a.outcome r es p = .ok false) :
    p.id ∉ (a.decide r es).reasons ∧ p.id ∉ (a.decide r es).errors := by
  have hfalse : ∀ q ∈ a.effective, q.id = p.id → a.outcome r es q = .ok false := by
    intro q hq hid
    rw [eq_of_id_eq hids hq hp hid]
    exact h
  constructor
  · intro hmem
    obtain ⟨q, hq, hid, htrue⟩ := exists_applied_of_mem_reasons hids hmem
    exact absurd (htrue.symm.trans (hfalse q hq hid)) nofun
  · intro hmem
    have hdenies := (counts_tally r es hids).deniesFirst r.correlationId
    obtain ⟨q, hq, hid, e, herror⟩ := (hdenies.mem_errors _).mp hmem
    exact absurd (herror.symm.trans (hfalse q hq hid)) nofun

/-- **A policy that was warned of takes part in no decision**: it is neither a reason nor an error
of the response to a request that passes its check, where the records pass theirs and those of
declared actions keep the memberships of the schema. The policy is static, and the scope of its
action has no slot. -/
theorem decide_impossible {sections : List Section} {s : Schema}
    (hs : Schema.ofSections sections = .ok s) (hids : set.ids.Nodup)
    (ha : set.effective = .ok a.effective) (hp : p ∈ set.policies) (hstatic : p.isTemplate = false)
    (haction : p.action.slot? = none)
    (hwarned : (p.id, .impossible) ∈ (s.checkPolicies set).warnings)
    (hr : s.checkRequest r = .ok ()) (hes : ∀ e ∈ es.records, s.checkEntity e = .ok ())
    (hkeeps : ∀ e ∈ es.records, s.KeepsMemberships e) :
    p.id ∉ (a.decide r es).reasons ∧ p.id ∉ (a.decide r es).errors := by
  have hconforms : s.Conforms es := ⟨Schema.wellFormed_of_ofSections hs, hes, hkeeps⟩
  -- the policy that is warned of is this one, since ids are distinct
  obtain ⟨q, hq, hid, hnamed, hshapes⟩ := Schema.exists_of_mem_warnings hwarned
  have hdistinct : ((set.policies ++ set.templates).map (·.id)).Nodup := by
    rw [List.map_append]
    exact (List.nodup_append.mp hids).1
  obtain rfl : q = p := List.inj_on_of_nodup_map hdistinct hq (List.mem_append_left _ hp) hid
  -- its scopes can be decided, and they do not admit the request
  obtain ⟨hprincipal, hresource⟩ := Policy.slot?_of_isTemplate hstatic
  have hscope : q.inScope ⟨r, es⟩ = .ok false := by
    have hdecided : ∃ b, q.inScope ⟨r, es⟩ = .ok b :=
      Policy.exists_inScope hprincipal haction hresource
    obtain ⟨b, hb⟩ := hdecided
    cases b with
    | false => exact hb
    | true => exact absurd hb (hconforms.not_inScope hr hnamed hshapes)
  have houtcome : a.outcome r es q = .ok false := by
    rw [outcome, Policy.applies, hscope]
    rfl
  have haids : a.ids.Nodup := PolicySet.nodup_ids_of_effective hids ha
  have hmem : q ∈ a.effective := by
    obtain ⟨linked, -, heq⟩ := map_eq_ok.mp ha
    exact heq ▸ List.mem_append_left linked hp
  exact not_mem_of_outcome haids hmem houtcome

/-! ### Records of actions

A record of an action may name any parents and still pass its check. Here one makes an action a
member of another, of which the schema knows nothing. -/

/-- Users view photos; viewing is part of reading, and managing is apart. -/
def photoSections : List Section :=
  [⟨"", [("User", ⟨[], []⟩), ("Photo", ⟨[], []⟩)],
    [("manage", .empty), ("read", .empty),
      ("view", ⟨[⟨"Action", "read"⟩], ["User"], ["Photo"], []⟩)]⟩]

/-- The schema of the sections. -/
def photoSchema : Schema :=
  ⟨[("Photo", ⟨[], []⟩), ("User", ⟨[], []⟩)],
    [(⟨"Action", "manage"⟩, .empty), (⟨"Action", "read"⟩, .empty),
      (⟨"Action", "view"⟩, ⟨[⟨"Action", "read"⟩], ["User"], ["Photo"], []⟩)]⟩

/-- A permit for what is part of managing. -/
def managing : Policy :=
  ⟨"managing", .permit, .any, .mem (.uid ⟨"Action", "manage"⟩), .any, [], []⟩

/-- An authorizer for this permit alone. -/
def managingAuthorizer : Authorizer :=
  ⟨⟨[managing], [], []⟩, [managing], some photoSchema, .standard⟩

/-- A request to view a photo. -/
def viewRequest : Request :=
  ⟨⟨"User", "ann"⟩, ⟨"Action", "view"⟩, ⟨"Photo", "beach"⟩, [], none⟩

/-- A permit for users as resources whose scope of the action is a slot. -/
def slotted : Policy :=
  ⟨"slotted", .permit, .any, .eq (.slot .principal), .is "User", [], []⟩

/-- An authorizer for this permit alone. -/
def slottedAuthorizer : Authorizer :=
  ⟨⟨[slotted], [], []⟩, [slotted], some photoSchema, .standard⟩

theorem photoSchema_eq : Schema.ofSections photoSections = .ok photoSchema := by
  decide +kernel

theorem managing_impossible :
    ("managing", .impossible) ∈ (photoSchema.checkPolicies ⟨[managing], [], []⟩).warnings := by
  decide +kernel

/-- In a store that has viewing as a part of reading, as the schema has it, the permit takes no
part. -/
theorem decide_kept :
    let es : Entities := ⟨[⟨⟨"Action", "view"⟩, [], [⟨"Action", "read"⟩]⟩]⟩
    (∀ e ∈ es.records, photoSchema.KeepsMemberships e) ∧
      "managing" ∉ (managingAuthorizer.decide viewRequest es).reasons ∧
      "managing" ∉ (managingAuthorizer.decide viewRequest es).errors := by
  intro es
  have hkeeps : ∀ e ∈ es.records, photoSchema.KeepsMemberships e := by decide +kernel
  have hids : (PolicySet.ids ⟨[managing], [], []⟩).Nodup := by decide
  exact ⟨hkeeps, decide_impossible (p := managing) photoSchema_eq hids rfl List.mem_cons_self rfl rfl
    managing_impossible (by decide +kernel) (by decide +kernel) hkeeps⟩

/-- The record of an action is admitted with any parents. In a store that has viewing as a part of
managing, the permit that was warned of allows the request. And a set takes a policy with a slot in
the scope of the action as a static one: it is warned of for its resource, but the scope of the
action is looked at first, so that it is an error even where there are no records. -/
theorem decide_unkept :
    let es : Entities := ⟨[⟨⟨"Action", "view"⟩, [], [⟨"Action", "manage"⟩]⟩]⟩
    (Schema.ofSections photoSections = .ok photoSchema ∧
      ("managing", .impossible) ∈ (photoSchema.checkPolicies ⟨[managing], [], []⟩).warnings ∧
      photoSchema.checkRequest viewRequest = .ok () ∧
      (∀ e ∈ es.records, photoSchema.checkEntity e = .ok ()) ∧
      (managingAuthorizer.decide viewRequest es).decision = .allow ∧
      "managing" ∈ (managingAuthorizer.decide viewRequest es).reasons) ∧
    PolicySet.ofPolicies [slotted] = .ok ⟨[slotted], [], []⟩ ∧
      PolicySet.effective ⟨[slotted], [], []⟩ = .ok slottedAuthorizer.effective ∧
      ("slotted", .impossible) ∈ (photoSchema.checkPolicies ⟨[slotted], [], []⟩).warnings ∧
      "slotted" ∈ (slottedAuthorizer.decide viewRequest ⟨[]⟩).errors := by
  intro es
  refine ⟨⟨photoSchema_eq, managing_impossible, ?_, ?_, ?_, ?_⟩, ?_, rfl, ?_, ?_⟩
  all_goals decide +kernel

end Authorizer

end AccessPolicy
