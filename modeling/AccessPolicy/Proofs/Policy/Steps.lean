import AccessPolicy.Proofs.Authorization.DenyOverrides
import AccessPolicy.Proofs.Authorization.Made
import AccessPolicy.Proofs.Parse.WellFormed
import AccessPolicy.Proofs.Policy.Consistent
import AccessPolicy.Proofs.Tree.Decoded

/-!
# Sets over whole runs

* `PolicySet.Step` — the ways in which a set comes about or grows; each is a change of a set in
  place (`PolicySet.Step.change`), which gives an answer and the set afterwards.
  `PolicySet.Step.Allowed` asks for no more than the parts have: an action takes no slot, and the
  values of a link are a map.
* **A step that fails** leaves the set as it was (`PolicySet.after_of_error`).
* **Every step keeps a set consistent** (`PolicySet.Consistent.after`), and so does every run
  (`PolicySet.Consistent.afterAll`).
* `PolicySet.run_consistent` — after every run, the set stands for policies with distinct ids and
  without slots, and **no response ever blames a slot** for not being linked
  (`PolicySet.Consistent.not_unlinked`).
-/

namespace AccessPolicy

/-- What is decoded from a tree has no slot in the scope of the action. -/
theorem Tree.slot?_of_policy {v : Json} {id : String} {path : Json.Path} {p : Policy}
    (h : Tree.policy v id path = .ok p) : p.action.slot? = none :=
  Policy.slot?_of_fitsAction (shaped_of_policy h).1.action

namespace PolicySet

variable {s t : PolicySet}

/-- A decoded set is consistent, whatever keys the objects of its tree repeat. -/
theorem consistent_of_ofTree {v : Json} (h : ofTree v = .ok s) : s.Consistent := by
  have hbuilt : s.Built fun p => p.action.slot? = none :=
    built_of_ofTree (J := fun _ => True) (fun _ _ _ _ => trivial)
      (fun _ h => Tree.slot?_of_policy h) trivial h
  exact hbuilt.consistent

/-! ### Steps -/

/-- A step that makes a set or adds to one. -/
inductive Step
  | add (p : Policy)
  | link (template id : String) (values : List (Slot × Uid))
  | parse (text : String)
  | ofTree (v : Json)
  | ofPolicies (ps : List Policy)

/-- What is asked of a step. The action of a policy that is added takes no slot: only a policy that
was built by hand can have one there, a set does not count it among the slots of the policy, and so
would take a policy that no link can ever complete. Making a set of policies adds each of them to an
empty one, so the same is asked of all of them. And a link maps slots to entities, which is what a
list sorted by slot stands for. -/
inductive Step.Allowed : Step → Prop
  | add {p : Policy} (hp : p.action.slot? = none) : Allowed (.add p)
  | link {template id : String} {values : List (Slot × Uid)}
      (hsorted : Ascending.Sorted (Ascending.keys values)) : Allowed (.link template id values)
  | parse {text : String} : Allowed (.parse text)
  | ofTree {v : Json} : Allowed (.ofTree v)
  | ofPolicies {ps : List Policy} (hps : ∀ p ∈ ps, p.action.slot? = none) :
      Allowed (.ofPolicies ps)

/-- Put another set in the place of a set, if there is another one. -/
def Change.install (r : Except Error PolicySet) : Change Unit := do
  let t ← liftExcept r
  set t

/-- What a step does to a set. -/
def Step.change : Step → Change Unit
  | .add p => .add p
  | .link template id values => .link template id values
  | .parse text => .install (PolicySet.parse text)
  | .ofTree v => .install (PolicySet.ofTree v)
  | .ofPolicies ps => .install (PolicySet.ofPolicies ps)

/-- What a step answers. -/
def attempt (s : PolicySet) (step : Step) : Except Error Unit :=
  (step.change.on s).1

/-- The set after a step, whether it succeeded or failed. -/
def after (s : PolicySet) (step : Step) : PolicySet :=
  (step.change.on s).2

/-- The set after some steps. -/
def afterAll (s : PolicySet) (steps : List Step) : PolicySet :=
  steps.foldl after s

/-- What there is to install decides; if there is nothing, the set stays. -/
theorem Change.on_install (r : Except Error PolicySet) (s : PolicySet) : (install r).on s =
    match r with
    | .ok t => (.ok (), t)
    | .error e => (.error e, s) := by
  cases r <;> rfl

/-- **A step that fails** leaves the set as it was: whatever it has to check comes before whatever
it changes. -/
theorem after_of_error {step : Step} {e : Error} (h : s.attempt step = .error e) :
    s.after step = s := by
  have hon : step.change.on s = (.error e, s.after step) := Prod.ext h rfl
  have hinstall :
      ∀ {r : Except Error PolicySet}, (Change.install r).on s = (.error e, s.after step) →
      s.after step = s := by
    intro r hr
    rw [Change.on_install] at hr
    cases r with
    | error e => exact (Prod.ext_iff.mp hr).2.symm
    | ok t => exact nomatch (Prod.ext_iff.mp hr).1
  cases step with
  | add p => exact Change.on_add_of_error s hon
  | link template id values => exact Change.on_link_of_error s hon
  | parse text => exact hinstall hon
  | ofTree v => exact hinstall hon
  | ofPolicies ps => exact hinstall hon

/-- The set after a step that succeeds is what the step makes of the set. -/
theorem made_of_attempt {step : Step} (h : s.attempt step = .ok ()) :
    step.change.made s = .ok (s.after step) :=
  Change.made_eq_ok_iff.mpr (Prod.ext h rfl)

theorem Change.made_install (r : Except Error PolicySet) (s : PolicySet) :
    (install r).made s = r := by
  unfold made
  rw [on_install]
  cases r <;> rfl

/-- **A step keeps a set consistent**, or makes a consistent one. -/
theorem Consistent.after (hs : s.Consistent) {step : Step} (hstep : step.Allowed) :
    (s.after step).Consistent := by
  cases h : s.attempt step with
  | error e => rwa [after_of_error h]
  | ok =>
      have hmade := made_of_attempt h
      cases hstep with
      | add hp => exact hs.add hp hmade
      | link hsorted => exact hs.link hsorted hmade
      | parse => exact (wellFormed_of_parse ((Change.made_install _ s).symm.trans hmade)).consistent
      | ofTree => exact consistent_of_ofTree ((Change.made_install _ s).symm.trans hmade)
      | ofPolicies hps =>
          exact consistent_empty.addAll hps ((Change.made_install _ s).symm.trans hmade)

/-- **A run keeps a set consistent**, by induction on its steps. -/
theorem Consistent.afterAll {steps : List Step} :
    ∀ {s : PolicySet}, s.Consistent → (∀ step ∈ steps, step.Allowed) →
      (s.afterAll steps).Consistent := by
  induction steps with
  | nil => exact fun hs _ => hs
  | cons step steps ih =>
      intro s hs hsteps
      rw [List.forall_mem_cons] at hsteps
      exact ih (hs.after hsteps.1) hsteps.2

/-! ### Responses -/

/-- **No response blames a slot** for not being linked. -/
theorem Consistent.not_unlinked (hs : s.Consistent) {response : Response}
    (h : s.Answers response) (id name : String) : (id, .unlinkedSlot name) ∉ response.details := by
  obtain ⟨a, ha, r, es, rfl⟩ := h.exists_decide
  obtain ⟨linked, heffective, -, hclosed⟩ := hs.exists_effective
  have hall :
      a.effective = s.policies ++ linked := Except.ok.inj (ha.effective.symm.trans heffective)
  have hids : a.ids.Nodup := nodup_ids_of_effective hs.ids ha.effective
  have hdecided := (Authorizer.counts_tally r es hids).deniesFirst r.correlationId
  intro hmem
  obtain ⟨p, hp, -, hblame⟩ := (hdecided.mem_details id _).mp hmem
  exact (hclosed p (hall ▸ hp)).applies_ne_unlinked name hblame

/-! ### Runs -/

/-- **After every run** of steps, failing ones included, the set is consistent, and a step that
fails would leave it as it is. It stands for its static policies followed by one policy for each
link, in order: the template of the link with its slots bound. Their ids are distinct, no slot
occurs in them, and no response that is computed from the set blames a slot for not being linked. -/
theorem run_consistent {steps : List Step} (hsteps : ∀ step ∈ steps, step.Allowed) :
    let s := empty.afterAll steps
    s.Consistent ∧
      (∀ step e, s.attempt step = .error e → s.after step = s) ∧
      ∃ linked, s.effective = .ok (s.policies ++ linked) ∧
        List.Forall₂ (fun l p => ∃ t, s.template? l.template = some t ∧
          p = (t.bind l.values).withId l.id) s.links linked ∧
        ((s.policies ++ linked).map Policy.id).Nodup ∧
        (∀ p ∈ s.policies ++ linked, p.Closed) ∧
        ∀ response, s.Answers response → ∀ id name,
          (id, .unlinkedSlot name) ∉ response.details := by
  intro s
  have hs : s.Consistent := consistent_empty.afterAll hsteps
  obtain ⟨linked, heffective, hall, hclosed⟩ := hs.exists_effective
  refine ⟨hs, fun step e => after_of_error, linked, heffective, hall.imp fun l p hp => ?_,
    nodup_ids_of_effective hs.ids heffective, hclosed, fun response => hs.not_unlinked⟩
  unfold resolve at hp
  split at hp
  · cases hp
  · rename_i t ht
    exact ⟨t, ht, (Policy.link_eq_ok_iff.mp hp).2⟩

/-- A template is read, linked, linked without its slot, linked under an id that is taken and
followed by a policy; then a tree is refused. -/
def linkingSteps : List Step :=
  [.parse "permit(principal == ?principal, action, resource);",
    .link "policy0" "ann" [(.principal, ⟨"User", "ann"⟩)],
    .link "policy0" "bob" [],
    .link "policy0" "ann" [(.principal, ⟨"User", "bob"⟩)],
    .add ⟨"closing", .forbid, .any, .any, .any, [], []⟩,
    .ofTree .null]

/-- What the steps make: three of them change nothing. -/
theorem run_consistent_refusedLinks :
    (∀ step ∈ linkingSteps, step.Allowed) ∧
      empty.afterAll linkingSteps =
        ⟨[⟨"closing", .forbid, .any, .any, .any, [], []⟩],
          [⟨"policy0", .permit, .eq (.slot .principal), .any, .any, [], []⟩],
          [⟨"policy0", "ann", [(.principal, ⟨"User", "ann"⟩)]⟩]⟩ ∧
      (empty.afterAll linkingSteps).Consistent ∧
      ∀ response, (empty.afterAll linkingSteps).Answers response → ∀ id name,
        (id, .unlinkedSlot name) ∉ response.details := by
  have hallowed : ∀ step ∈ linkingSteps, step.Allowed := by
    unfold linkingSteps
    simp only [List.forall_mem_cons, List.not_mem_nil, IsEmpty.forall_iff, implies_true, and_true]
    exact ⟨.parse, .link (List.pairwise_singleton _ _), .link .nil,
      .link (List.pairwise_singleton _ _), .add rfl, .ofTree⟩
  obtain ⟨hconsistent, -, _, -, -, -, -, hanswers⟩ := run_consistent hallowed
  exact ⟨hallowed, by decide +kernel, hconsistent, hanswers⟩

end PolicySet

end AccessPolicy
