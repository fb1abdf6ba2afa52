import AccessPolicy.Authorization.Authorizer
import AccessPolicy.Proofs.Ascending
import Mathlib.Data.List.Nodup

/-!
# Deny overrides permit

What `Authorizer.decide` answers, in terms of the outcomes of the single policies.

* `Tally.Counts t os` — the tally holds exactly the outcomes `os`: the satisfied permits, the
  satisfied forbids and the failures, each in ascending order. It is the invariant of the one pass
  over the policies: `Tally.Counts.record` is the step, `Tally.counts_ofOutcomes` the run.
* **A tally is its outcomes** (`Tally.Counts.unique`): tallies of the same outcomes are equal, in
  whatever order the outcomes came.
* `Response.DeniesFirst r ps outcome` — the response is the deny-overrides combination of the
  outcomes of the policies.
* **The decision** (`decide_deniesFirst`): a response combines the outcomes in that way, its reasons
  and its errors are disjoint, it does not depend on the order of the policies, and a further policy
  changes it only in the direction of its effect.
-/

namespace AccessPolicy

/-! ### Tallies -/

namespace Tally

/-- Some outcome with the given id and effect is that the policy applies. -/
def Applied (os : List (Policy × Except EvalError Bool)) (effect : Effect) (id : String) : Prop :=
  ∃ o ∈ os, o.1.id = id ∧ o.1.effect = effect ∧ o.2 = .ok true

/-- The tally holds exactly the given outcomes. -/
structure Counts (t : Tally) (os : List (Policy × Except EvalError Bool)) : Prop where
  /-- The permits are those that apply. -/
  mem_permits : ∀ id, id ∈ t.permits ↔ Applied os .permit id
  /-- The forbids are those that apply. -/
  mem_forbids : ∀ id, id ∈ t.forbids ↔ Applied os .forbid id
  /-- The failures are the errors, each under the id of its policy. -/
  mem_failures : ∀ f, f ∈ t.failures ↔ ∃ o ∈ os, o.1.id = f.1 ∧ o.2 = .error f.2
  /-- The permits ascend. -/
  sorted_permits : Ascending.Sorted t.permits
  /-- The forbids ascend. -/
  sorted_forbids : Ascending.Sorted t.forbids
  /-- The ids of the failures ascend. -/
  sorted_failures : Ascending.Sorted (Ascending.keys t.failures)

/-- A policy has applied by the end if it had before, or the last outcome is that it applies. -/
theorem applied_append {os : List (Policy × Except EvalError Bool)}
    {o : Policy × Except EvalError Bool} {effect : Effect} {id : String} :
    Applied (os ++ [o]) effect id ↔
      Applied os effect id ∨ o.1.id = id ∧ o.1.effect = effect ∧ o.2 = .ok true := by
  simp [Applied, or_and_right, exists_or]

/-- An outcome that is not `true` applies to nothing. -/
theorem applied_append_of_ne {os : List (Policy × Except EvalError Bool)}
    {o : Policy × Except EvalError Bool} {effect : Effect} {id : String}
    (h : ¬ (o.1.effect = effect ∧ o.2 = .ok true)) :
    Applied (os ++ [o]) effect id ↔ Applied os effect id := by
  rw [applied_append]
  exact or_iff_left fun hc => h hc.2

/-- No outcomes make the empty tally. -/
theorem counts_empty : empty.Counts [] where
  mem_permits := by simp [empty, Applied]
  mem_forbids := by simp [empty, Applied]
  mem_failures := by simp [empty]
  sorted_permits := .nil
  sorted_forbids := .nil
  sorted_failures := .nil

/-- Failures of a longer list of outcomes. -/
theorem failed_append {os : List (Policy × Except EvalError Bool)}
    {o : Policy × Except EvalError Bool} {f : String × EvalError} :
    (∃ x ∈ os ++ [o], x.1.id = f.1 ∧ x.2 = .error f.2) ↔
      (∃ x ∈ os, x.1.id = f.1 ∧ x.2 = .error f.2) ∨ o.1.id = f.1 ∧ o.2 = .error f.2 := by
  simp [or_and_right, exists_or]

/-- An outcome that is not the error makes no such failure. -/
theorem failed_append_of_ne {os : List (Policy × Except EvalError Bool)}
    {o : Policy × Except EvalError Bool} {f : String × EvalError} (h : o.2 ≠ .error f.2) :
    (∃ x ∈ os ++ [o], x.1.id = f.1 ∧ x.2 = .error f.2) ↔
      ∃ x ∈ os, x.1.id = f.1 ∧ x.2 = .error f.2 := by
  rw [failed_append]
  exact or_iff_left fun hc => h hc.2

section step

variable {t : Tally} {os : List (Policy × Except EvalError Bool)} {p : Policy}

/-- An error is put among the failures. Its id has to be new, for otherwise an earlier error would
be lost. -/
theorem Counts.record_error (h : t.Counts os) (hp : ∀ o ∈ os, o.1.id ≠ p.id) (e : EvalError) :
    (t.record p (.error e)).Counts (os ++ [(p, .error e)]) := by
  have hnew : p.id ∉ Ascending.keys t.failures := by
    intro hmem
    obtain ⟨f, hf, hid⟩ := List.mem_map.mp hmem
    obtain ⟨o, ho, hoid, -⟩ := (h.mem_failures f).mp hf
    exact hp o ho (hoid.trans hid)
  refine ⟨fun id => ?_, fun id => ?_, fun f => ?_, h.sorted_permits, h.sorted_forbids,
    h.sorted_failures.put⟩
  · rw [applied_append_of_ne (by simp)]
    exact h.mem_permits id
  · rw [applied_append_of_ne (by simp)]
    exact h.mem_forbids id
  · rw [record, Ascending.mem_put hnew, h.mem_failures f, failed_append, or_comm]
    simp [Prod.ext_iff, eq_comm]

/-- A policy that does not apply leaves no trace. -/
theorem Counts.record_false (h : t.Counts os) :
    (t.record p (.ok false)).Counts (os ++ [(p, .ok false)]) := by
  refine ⟨fun id => ?_, fun id => ?_, fun f => ?_, h.sorted_permits, h.sorted_forbids,
    h.sorted_failures⟩
  · rw [applied_append_of_ne (by simp)]
    exact h.mem_permits id
  · rw [applied_append_of_ne (by simp)]
    exact h.mem_forbids id
  · rw [failed_append_of_ne (by simp)]
    exact h.mem_failures f

/-- A policy that applies is put among those of its effect. -/
theorem Counts.record_true (h : t.Counts os) :
    (t.record p (.ok true)).Counts (os ++ [(p, .ok true)]) := by
  cases he : p.effect with
  | permit =>
      simp only [record, he]
      refine ⟨fun id => ?_, fun id => ?_, fun f => ?_, h.sorted_permits.insert, h.sorted_forbids,
        h.sorted_failures⟩
      · rw [Ascending.mem_insert, applied_append, h.mem_permits id, or_comm]
        simp [he, eq_comm]
      · rw [applied_append_of_ne (by simp [he])]
        exact h.mem_forbids id
      · rw [failed_append_of_ne (by simp)]
        exact h.mem_failures f
  | forbid =>
      simp only [record, he]
      refine ⟨fun id => ?_, fun id => ?_, fun f => ?_, h.sorted_permits, h.sorted_forbids.insert,
        h.sorted_failures⟩
      · rw [applied_append_of_ne (by simp [he])]
        exact h.mem_permits id
      · rw [Ascending.mem_insert, applied_append, h.mem_forbids id, or_comm]
        simp [he, eq_comm]
      · rw [failed_append_of_ne (by simp)]
        exact h.mem_failures f

/-- **The step**: recording the outcome of a policy with a new id keeps the tally exact. -/
theorem Counts.record (h : t.Counts os) {r : Except EvalError Bool}
    (hp : ∀ o ∈ os, o.1.id ≠ p.id) : (t.record p r).Counts (os ++ [(p, r)]) :=
  match r with
  | .error e => h.record_error hp e
  | .ok false => h.record_false
  | .ok true => h.record_true

end step

/-- **The run**: the tally of policies with distinct ids holds exactly their outcomes. -/
theorem counts_ofOutcomes {os : List (Policy × Except EvalError Bool)}
    (hd : (os.map fun o => o.1.id).Nodup) : (ofOutcomes os).Counts os := by
  -- the pass over the rest of the outcomes, from a tally of those already recorded
  have key : ∀ (todo done : List (Policy × Except EvalError Bool)) (t : Tally), t.Counts done →
      ((done ++ todo).map fun o => o.1.id).Nodup →
        (todo.foldl (fun t o => t.record o.1 o.2) t).Counts (done ++ todo) := by
    intro todo
    induction todo with
    | nil => exact fun done t ht _ => by simpa using ht
    | cons o todo ih =>
        intro done t ht hn
        rw [List.append_cons] at hn ⊢
        refine ih (done ++ [o]) _ (ht.record fun x hx hid => ?_) hn
        rw [List.append_assoc, List.map_append, List.nodup_append] at hn
        exact hn.2.2 _ (List.mem_map_of_mem hx) o.1.id (by simp) hid
  exact key os [] empty counts_empty hd

/-- **A tally is its outcomes**: tallies of the same outcomes are equal. -/
theorem Counts.unique {t u : Tally} {os qs : List (Policy × Except EvalError Bool)}
    (ht : t.Counts os) (hu : u.Counts qs) (h : ∀ o, o ∈ os ↔ o ∈ qs) : t = u := by
  have happ : ∀ effect id, Applied os effect id ↔ Applied qs effect id := fun effect id => by
    simp only [Applied, h]
  have hp : t.permits = u.permits := ht.sorted_permits.ext hu.sorted_permits fun id => by
    rw [ht.mem_permits, hu.mem_permits, happ]
  have hf : t.forbids = u.forbids := ht.sorted_forbids.ext hu.sorted_forbids fun id => by
    rw [ht.mem_forbids, hu.mem_forbids, happ]
  have he : t.failures = u.failures := ht.sorted_failures.ext_entries hu.sorted_failures fun f => by
    rw [ht.mem_failures, hu.mem_failures]
    simp only [h]
  cases t; cases u
  simp_all

end Tally

/-! ### Responses -/

/-- **Deny overrides permit**: the response is the combination of the outcomes of the policies. A
forbid that applies denies; otherwise a permit that applies allows; otherwise the answer is no. The
reasons are the policies that brought the decision about, the errors those that failed. -/
structure Response.DeniesFirst (r : Response) (ps : List Policy)
    (outcome : Policy → Except EvalError Bool) : Prop where
  /-- The errors are the policies that failed. -/
  mem_errors : ∀ id, id ∈ r.errors ↔ ∃ p ∈ ps, p.id = id ∧ ∃ e, outcome p = .error e
  /-- Each has its error among the details. -/
  mem_details : ∀ id e, (id, e) ∈ r.details ↔ ∃ p ∈ ps, p.id = id ∧ outcome p = .error e
  /-- A forbid that applies denies, and all such forbids are the reasons. -/
  of_forbid : (∃ p ∈ ps, p.effect = .forbid ∧ outcome p = .ok true) →
    r.decision = .deny ∧
      ∀ id, id ∈ r.reasons ↔ ∃ p ∈ ps, p.id = id ∧ p.effect = .forbid ∧ outcome p = .ok true
  /-- Without one, a permit that applies allows, and all such permits are the reasons. -/
  of_permit : (¬∃ p ∈ ps, p.effect = .forbid ∧ outcome p = .ok true) →
    (∃ p ∈ ps, p.effect = .permit ∧ outcome p = .ok true) →
    r.decision = .allow ∧
      ∀ id, id ∈ r.reasons ↔ ∃ p ∈ ps, p.id = id ∧ p.effect = .permit ∧ outcome p = .ok true
  /-- Where nothing applies the answer is no, without a reason. -/
  of_none : (¬∃ p ∈ ps, outcome p = .ok true) → r.decision = .deny ∧ r.reasons = []
  /-- The reasons ascend. -/
  sorted_reasons : Ascending.Sorted r.reasons
  /-- The errors ascend. -/
  sorted_errors : Ascending.Sorted r.errors
  /-- The details are listed by ascending id, one for each error. -/
  keys_details : Ascending.keys r.details = r.errors

namespace Tally

variable {t u : Tally} {ps : List Policy} {outcome : Policy → Except EvalError Bool}

/-- The outcomes of policies, one for each. -/
def outcomesOf (outcome : Policy → Except EvalError Bool) (ps : List Policy) :
    List (Policy × Except EvalError Bool) :=
  ps.map fun p => (p, outcome p)

/-- A policy has applied exactly if it is among the policies and its outcome is that it applies. -/
theorem applied_outcomesOf {effect : Effect} {id : String} :
    Applied (outcomesOf outcome ps) effect id ↔
      ∃ p ∈ ps, p.id = id ∧ p.effect = effect ∧ outcome p = .ok true := by
  simp only [Applied, outcomesOf, List.mem_map, exists_exists_and_eq_and]

/-- A policy has failed exactly if it is among the policies and its outcome is an error. -/
theorem failed_outcomesOf {f : String × EvalError} :
    (∃ o ∈ outcomesOf outcome ps, o.1.id = f.1 ∧ o.2 = .error f.2) ↔
      ∃ p ∈ ps, p.id = f.1 ∧ outcome p = .error f.2 := by
  simp only [outcomesOf, List.mem_map, exists_exists_and_eq_and]

/-- No permit is counted exactly if none applies. -/
theorem Counts.permits_eq_nil_iff (h : t.Counts (outcomesOf outcome ps)) :
    t.permits = [] ↔ ¬∃ p ∈ ps, p.effect = .permit ∧ outcome p = .ok true := by
  simp only [List.eq_nil_iff_forall_not_mem, h.mem_permits, applied_outcomesOf]
  exact ⟨fun hn ⟨p, hp, ha⟩ => hn p.id ⟨p, hp, rfl, ha⟩, fun hn id ⟨p, hp, _, ha⟩ => hn ⟨p, hp, ha⟩⟩

/-- No forbid is counted exactly if none applies. -/
theorem Counts.forbids_eq_nil_iff (h : t.Counts (outcomesOf outcome ps)) :
    t.forbids = [] ↔ ¬∃ p ∈ ps, p.effect = .forbid ∧ outcome p = .ok true := by
  simp only [List.eq_nil_iff_forall_not_mem, h.mem_forbids, applied_outcomesOf]
  exact ⟨fun hn ⟨p, hp, ha⟩ => hn p.id ⟨p, hp, rfl, ha⟩, fun hn id ⟨p, hp, _, ha⟩ => hn ⟨p, hp, ha⟩⟩

/-- A forbid that applies denies, and the forbids are the reasons. -/
theorem verdict_of_forbids_ne_nil (h : t.forbids ≠ []) : t.verdict = (.deny, t.forbids) := by
  simp [verdict, h]

/-- Without a forbid, a permit that applies allows, and the permits are the reasons. -/
theorem verdict_of_forbids_eq_nil (h : t.forbids = []) :
    t.verdict = (if t.permits = [] then .deny else .allow, t.permits) := by
  by_cases hp : t.permits = [] <;> simp [verdict, h, hp]

/-- The answer is yes exactly if a permit applies and no forbid does. -/
theorem verdict_eq_allow_iff : t.verdict.1 = .allow ↔ t.forbids = [] ∧ t.permits ≠ [] := by
  by_cases hf : t.forbids = []
  · rw [verdict_of_forbids_eq_nil hf]
    by_cases hp : t.permits = [] <;> simp [hf, hp]
  · simp [verdict_of_forbids_ne_nil hf, hf]

/-- The response of an exact tally combines the outcomes. -/
theorem Counts.deniesFirst (h : t.Counts (outcomesOf outcome ps)) (token : Option String) :
    (t.response token).DeniesFirst ps outcome where
  mem_errors id := by
    simp only [response, Ascending.keys, List.mem_map, h.mem_failures, failed_outcomesOf]
    constructor
    · rintro ⟨f, ⟨p, hp, hid, he⟩, rfl⟩
      exact ⟨p, hp, hid, f.2, he⟩
    · rintro ⟨p, hp, hid, e, he⟩
      exact ⟨(id, e), ⟨p, hp, hid, he⟩, rfl⟩
  mem_details id e := by
    exact (h.mem_failures (id, e)).trans failed_outcomesOf
  of_forbid hf := by
    have hne : t.forbids ≠ [] := fun hn => h.forbids_eq_nil_iff.mp hn hf
    have hv := verdict_of_forbids_ne_nil hne
    refine ⟨congrArg Prod.fst hv, fun id => ?_⟩
    rw [response, hv, h.mem_forbids, applied_outcomesOf]
  of_permit hf hp := by
    have hnil : t.forbids = [] := h.forbids_eq_nil_iff.mpr hf
    have hne : t.permits ≠ [] := fun hn => h.permits_eq_nil_iff.mp hn hp
    have hv := verdict_of_forbids_eq_nil hnil
    rw [if_neg hne] at hv
    refine ⟨congrArg Prod.fst hv, fun id => ?_⟩
    rw [response, hv, h.mem_permits, applied_outcomesOf]
  of_none hn := by
    have hf : t.forbids = [] := by
      refine h.forbids_eq_nil_iff.mpr ?_
      rintro ⟨p, hp, _, ha⟩
      exact hn ⟨p, hp, ha⟩
    have hp : t.permits = [] := by
      refine h.permits_eq_nil_iff.mpr ?_
      rintro ⟨p, hp, _, ha⟩
      exact hn ⟨p, hp, ha⟩
    have hv := verdict_of_forbids_eq_nil hf
    rw [if_pos hp] at hv
    exact ⟨congrArg Prod.fst hv, (congrArg Prod.snd hv).trans hp⟩
  sorted_reasons := by
    by_cases hf : t.forbids = []
    · simpa only [response, verdict_of_forbids_eq_nil hf] using h.sorted_permits
    · simpa only [response, verdict_of_forbids_ne_nil hf] using h.sorted_forbids
  sorted_errors := h.sorted_failures
  keys_details := rfl

end Tally

/-! ### Decisions -/

namespace Authorizer

variable {a b : Authorizer} {r : Request} {es : Entities}

/-- The outcome of a policy for a request, by the rules of the authorizer. -/
def outcome (a : Authorizer) (r : Request) (es : Entities) (p : Policy) : Except EvalError Bool :=
  p.applies ⟨r, es⟩ a.options.depth

/-- The ids of the policies that decide. -/
def ids (a : Authorizer) : List String :=
  a.effective.map Policy.id

/-- The tally behind a decision. -/
def tally (a : Authorizer) (r : Request) (es : Entities) : Tally :=
  .ofOutcomes (a.outcomes r es)

/-- The tally of an authorizer counts the outcomes of its policies. -/
theorem counts_tally (r : Request) (es : Entities) (hd : a.ids.Nodup) :
    (a.tally r es).Counts (Tally.outcomesOf (a.outcome r es) a.effective) := by
  have hids : ((a.outcomes r es).map fun o => o.1.id).Nodup := by
    simpa [outcomes, ids, Function.comp_def] using hd
  exact Tally.counts_ofOutcomes hids

/-- The tallies of policies in another order are equal. -/
theorem tally_perm (hd : a.ids.Nodup) (hp : b.effective.Perm a.effective)
    (ho : b.options.depth = a.options.depth) : b.tally r es = a.tally r es := by
  have hb : b.ids.Nodup := (hp.map Policy.id).nodup_iff.mpr hd
  have hout : b.outcome r es = a.outcome r es := by
    funext p
    simp only [outcome, ho]
  refine (counts_tally r es hb).unique (counts_tally r es hd) fun o => ?_
  rw [hout]
  exact (hp.map _).mem_iff

/-- Policies with the same id are the same, where the ids are distinct. -/
theorem eq_of_id_eq (hd : a.ids.Nodup) {p q : Policy} (hp : p ∈ a.effective)
    (hq : q ∈ a.effective) (h : p.id = q.id) : p = q :=
  List.inj_on_of_nodup_map hd hp hq h

/-- A reason is the id of a policy that applies. -/
theorem exists_applied_of_mem_reasons (hd : a.ids.Nodup) {id : String}
    (h : id ∈ (a.decide r es).reasons) :
    ∃ p ∈ a.effective, p.id = id ∧ a.outcome r es p = .ok true := by
  have hc := counts_tally r es hd
  change id ∈ (a.tally r es).verdict.2 at h
  by_cases hf : (a.tally r es).forbids = []
  · rw [Tally.verdict_of_forbids_eq_nil hf, hc.mem_permits, Tally.applied_outcomesOf] at h
    obtain ⟨p, hp, hid, -, ha⟩ := h
    exact ⟨p, hp, hid, ha⟩
  · rw [Tally.verdict_of_forbids_ne_nil hf, hc.mem_forbids, Tally.applied_outcomesOf] at h
    obtain ⟨p, hp, hid, -, ha⟩ := h
    exact ⟨p, hp, hid, ha⟩

/-- No policy is both a reason and an error. -/
theorem not_mem_errors_of_mem_reasons (hd : a.ids.Nodup) {id : String}
    (h : id ∈ (a.decide r es).reasons) : id ∉ (a.decide r es).errors := by
  intro he
  obtain ⟨p, hp, rfl, ha⟩ := exists_applied_of_mem_reasons hd h
  have hdenies := (counts_tally r es hd).deniesFirst r.correlationId
  obtain ⟨q, hq, hid, e, hqe⟩ := (hdenies.mem_errors _).mp he
  rw [eq_of_id_eq hd hq hp hid, ha] at hqe
  cases hqe

/-! ### One more policy

A policy with a new id adds one outcome to the tally, and the outcomes of the others stay. So the
effect of the policy says in which direction a decision can change. -/

section insertion

variable {p : Policy} {front back : List Policy}

/-- The permits and the forbids after a policy has been inserted. -/
theorem applied_insert (ha : a.effective = front ++ back) (hb : b.effective = front ++ p :: back)
    (ho : b.options.depth = a.options.depth) {effect : Effect} {id : String} :
    Tally.Applied (Tally.outcomesOf (b.outcome r es) b.effective) effect id ↔
      Tally.Applied (Tally.outcomesOf (a.outcome r es) a.effective) effect id ∨
        p.id = id ∧ p.effect = effect ∧ a.outcome r es p = .ok true := by
  have hout : b.outcome r es = a.outcome r es := by
    funext q
    simp only [outcome, ho]
  simp only [Tally.applied_outcomesOf, ha, hb, hout, List.mem_append, List.mem_cons]
  constructor
  · rintro ⟨q, hq | rfl | hq, h⟩
    · exact .inl ⟨q, .inl hq, h⟩
    · exact .inr h
    · exact .inl ⟨q, .inr hq, h⟩
  · rintro (⟨q, hq | hq, h⟩ | h)
    · exact ⟨q, .inl hq, h⟩
    · exact ⟨q, .inr (.inr hq), h⟩
    · exact ⟨p, .inr (.inl rfl), h⟩

/-- A policy with a new id keeps the ids distinct wherever it is inserted. -/
theorem ids_insert_nodup (hd : a.ids.Nodup) (ha : a.effective = front ++ back)
    (hb : b.effective = front ++ p :: back) (hp : p.id ∉ a.ids) : b.ids.Nodup := by
  unfold ids at hd hp ⊢
  rw [ha] at hd hp
  rw [hb, List.map_append, List.map_cons, List.nodup_middle, List.nodup_cons, ← List.map_append]
  exact ⟨hp, hd⟩

variable (hd : a.ids.Nodup) (ha : a.effective = front ++ back)
  (hb : b.effective = front ++ p :: back) (ho : b.options.depth = a.options.depth)
  (hp : p.id ∉ a.ids)

include hd ha hb ho hp

/-- Inserting a policy leaves the permits alone unless it is a permit that applies. -/
theorem permits_insert (h : ¬(p.effect = .permit ∧ a.outcome r es p = .ok true)) :
    (b.tally r es).permits = (a.tally r es).permits := by
  have hb' := counts_tally r es (ids_insert_nodup hd ha hb hp)
  have ha' := counts_tally r es hd
  refine hb'.sorted_permits.ext ha'.sorted_permits fun id => ?_
  rw [hb'.mem_permits, ha'.mem_permits, applied_insert ha hb ho]
  exact or_iff_left fun hc => h hc.2

/-- Inserting a policy leaves the forbids alone unless it is a forbid that applies. -/
theorem forbids_insert (h : ¬(p.effect = .forbid ∧ a.outcome r es p = .ok true)) :
    (b.tally r es).forbids = (a.tally r es).forbids := by
  have hb' := counts_tally r es (ids_insert_nodup hd ha hb hp)
  have ha' := counts_tally r es hd
  refine hb'.sorted_forbids.ext ha'.sorted_forbids fun id => ?_
  rw [hb'.mem_forbids, ha'.mem_forbids, applied_insert ha hb ho]
  exact or_iff_left fun hc => h hc.2

/-- A policy that does not apply changes neither the decision nor its reasons. -/
theorem verdict_insert_of_not_applied (h : a.outcome r es p ≠ .ok true) :
    (b.tally r es).verdict = (a.tally r es).verdict := by
  simp only [Tally.verdict, permits_insert hd ha hb ho hp fun hc => h hc.2,
    forbids_insert hd ha hb ho hp fun hc => h hc.2]

/-- A further forbid never turns a denial into a permission. -/
theorem allow_of_allow_insert_forbid (hf : p.effect = .forbid)
    (h : (b.tally r es).verdict.1 = .allow) : (a.tally r es).verdict.1 = .allow := by
  rw [Tally.verdict_eq_allow_iff] at h ⊢
  rw [permits_insert hd ha hb ho hp (by simp [hf])] at h
  refine ⟨?_, h.2⟩
  by_cases happ : a.outcome r es p = .ok true
  · -- the new forbid applies, so the longer list would deny
    have hb' := counts_tally r es (ids_insert_nodup hd ha hb hp)
    have hmem := (hb'.mem_forbids p.id).mpr ((applied_insert ha hb ho).mpr (.inr ⟨rfl, hf, happ⟩))
    rw [h.1] at hmem
    cases hmem
  · rw [← forbids_insert hd ha hb ho hp fun hc => happ hc.2]
    exact h.1

/-- A further permit never turns a permission into a denial. -/
theorem allow_insert_permit (hf : p.effect = .permit)
    (h : (a.tally r es).verdict.1 = .allow) : (b.tally r es).verdict.1 = .allow := by
  rw [Tally.verdict_eq_allow_iff] at h ⊢
  rw [forbids_insert hd ha hb ho hp (by simp [hf])]
  refine ⟨h.1, fun hnil => ?_⟩
  obtain ⟨id, hid⟩ := List.exists_mem_of_ne_nil _ h.2
  have ha' := counts_tally r es hd
  have hb' := counts_tally r es (ids_insert_nodup hd ha hb hp)
  have hmem := (hb'.mem_permits id).mpr
    ((applied_insert ha hb ho).mpr (.inl ((ha'.mem_permits id).mp hid)))
  rw [hnil] at hmem
  cases hmem

end insertion

/-- **The decision.** Over policies with distinct ids, the response combines the outcomes of the
policies so that deny overrides permit. No policy is both a reason and an error. The response does
not depend on the order of the policies. Where a policy with a new id is inserted, at any place: one
that fails or does not apply changes neither the decision nor the reasons, a forbid never turns a
denial into a permission, and a permit never turns a permission into a denial. -/
theorem decide_deniesFirst (a : Authorizer) (r : Request) (es : Entities) (hd : a.ids.Nodup) :
    (a.decide r es).DeniesFirst a.effective (a.outcome r es) ∧
    (a.decide r es).correlationId = r.correlationId ∧
    (∀ id ∈ (a.decide r es).reasons, id ∉ (a.decide r es).errors) ∧
    (∀ b : Authorizer, b.effective.Perm a.effective → b.options.depth = a.options.depth →
      b.decide r es = a.decide r es) ∧
    (∀ (b : Authorizer) (p : Policy) (front back : List Policy),
      a.effective = front ++ back → b.effective = front ++ p :: back →
      b.options.depth = a.options.depth → p.id ∉ a.ids →
        (a.outcome r es p ≠ .ok true →
          (b.decide r es).decision = (a.decide r es).decision ∧
          (b.decide r es).reasons = (a.decide r es).reasons) ∧
        (p.effect = .forbid → (a.decide r es).decision = .deny →
          (b.decide r es).decision = .deny) ∧
        (p.effect = .permit → (a.decide r es).decision = .allow →
          (b.decide r es).decision = .allow)) := by
  refine ⟨(counts_tally r es hd).deniesFirst r.correlationId, rfl,
    fun id h => not_mem_errors_of_mem_reasons hd h, fun b hp ho => ?_,
    fun b p front back ha hb ho hp => ⟨fun h => ?_, fun hf h => ?_, fun hf h => ?_⟩⟩
  · exact congrArg (Tally.response · r.correlationId) (tally_perm hd hp ho)
  · have hv : (b.tally r es).verdict = (a.tally r es).verdict :=
      verdict_insert_of_not_applied hd ha hb ho hp h
    exact ⟨congrArg Prod.fst hv, congrArg Prod.snd hv⟩
  · cases hdec : (b.decide r es).decision with
    | deny => rfl
    | allow => exact h ▸ (allow_of_allow_insert_forbid hd ha hb ho hp hf hdec).symm
  · exact allow_insert_permit hd ha hb ho hp hf h

/-! ### A decision in the small -/

/-- A policy without constraints on who, what and where. -/
def unscoped (id : String) (effect : Effect) (conditions : List Clause) : Policy :=
  ⟨id, effect, .any, .any, .any, conditions, []⟩

/-- An authorizer with the given effective policies. -/
def ofEffective (ps : List Policy) : Authorizer :=
  ⟨.empty, ps, none, .standard⟩

/-- A permit that applies and one whose condition is no truth value. -/
def permitAndFailure : Authorizer :=
  ofEffective [unscoped "open" .permit [], unscoped "broken" .permit [⟨.whenTrue, .lit (.string "")⟩]]

/-- The same policies with a forbid between them. -/
def permitForbidAndFailure : Authorizer :=
  ofEffective [unscoped "open" .permit [], unscoped "closed" .forbid [],
    unscoped "broken" .permit [⟨.whenTrue, .lit (.string "")⟩]]

/-- The permit that applies is the reason and not among the errors, the other one is an error; the
order of the two does not matter; and the forbid does not help a request that was denied. -/
theorem decide_deniesFirst_permitAndFailure :
    let r : Request := .ofUids ⟨"User", "u"⟩ ⟨"Action", "a"⟩ ⟨"Doc", "d"⟩
    permitAndFailure.ids.Nodup ∧
    (permitAndFailure.decide r .empty).DeniesFirst permitAndFailure.effective
      (permitAndFailure.outcome r .empty) ∧
    (permitAndFailure.decide r .empty).reasons = ["open"] ∧
    "open" ∉ (permitAndFailure.decide r .empty).errors ∧
    (ofEffective permitAndFailure.effective.reverse).decide r .empty =
      permitAndFailure.decide r .empty ∧
    (permitForbidAndFailure.decide r .empty).decision = .deny ∧
    ((permitAndFailure.decide r .empty).decision = .deny →
      (permitForbidAndFailure.decide r .empty).decision = .deny) := by
  intro r
  have hd : permitAndFailure.ids.Nodup := by decide
  obtain ⟨hf, -, hdisj, hperm, hins⟩ := decide_deniesFirst permitAndFailure r .empty hd
  have hreasons : (permitAndFailure.decide r .empty).reasons = ["open"] := by decide +kernel
  refine ⟨hd, hf, hreasons, hdisj "open" (by rw [hreasons]; decide), ?_, by decide +kernel, ?_⟩
  · exact hperm (ofEffective permitAndFailure.effective.reverse) (List.reverse_perm _) rfl
  · exact (hins permitForbidAndFailure (unscoped "closed" .forbid []) [unscoped "open" .permit []]
      [unscoped "broken" .permit [⟨.whenTrue, .lit (.string "")⟩]] rfl rfl rfl (by decide)).2.1 rfl

end Authorizer

end AccessPolicy
