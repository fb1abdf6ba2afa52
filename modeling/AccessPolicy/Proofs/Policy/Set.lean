import AccessPolicy.Policy.Set

/-!
# Adding policies to a set

* `PolicySet.ids` — the ids of the static policies, the templates and the links of a set.
* `PolicySet.add_eq_ok_iff`, `PolicySet.link_eq_ok_iff` — what adding a policy and linking a
  template do, and when they do it.
* **Policies with new ids are added in order** (`PolicySet.addAll_eq_ok`): the static ones behind
  the static policies, the templates behind the templates.
-/

namespace AccessPolicy.PolicySet

/-- The ids of a set. -/
def ids (s : PolicySet) : List String :=
  s.policies.map (·.id) ++ s.templates.map (·.id) ++ s.links.map (·.id)

/-- A set finds a static policy if the id is one of theirs. -/
theorem policy?_isSome_iff {s : PolicySet} {id : String} :
    (s.policy? id).isSome ↔ id ∈ s.policies.map (·.id) := by
  simp [policy?, List.find?_isSome]

/-- A set finds a template if the id is one of theirs. -/
theorem template?_isSome_iff {s : PolicySet} {id : String} :
    (s.template? id).isSome ↔ id ∈ s.templates.map (·.id) := by
  simp [template?, List.find?_isSome]

/-- An id is in use if a policy, a template or a link has it. -/
theorem contains_iff {s : PolicySet} {id : String} : s.contains id ↔ id ∈ s.ids := by
  simp only [contains, Bool.or_eq_true, policy?_isSome_iff, template?_isSome_iff, ids,
    List.mem_append, List.any_eq_true, decide_eq_true_eq, List.mem_map]

/-- Adding a policy leaves the links as they are. -/
theorem links_push (s : PolicySet) (p : Policy) : (s.push p).links = s.links := by
  unfold push
  split <;> rfl

/-- Putting a policy adds its id, behind the static policies or behind the templates. -/
theorem ids_push_perm (s : PolicySet) (p : Policy) : (s.push p).ids.Perm (p.id :: s.ids) := by
  unfold push ids
  split <;>
    · simp only [List.map_append, List.map_cons, List.map_nil, List.append_assoc,
        List.singleton_append]
      first
        | exact List.perm_middle
        | exact (List.perm_middle.append_left _).trans List.perm_middle

/-- The ids behind a policy that was put are its own and those before. -/
theorem mem_ids_push {s : PolicySet} {p : Policy} {id : String} :
    id ∈ (s.push p).ids ↔ id = p.id ∨ id ∈ s.ids := by
  rw [(ids_push_perm s p).mem_iff, List.mem_cons]

/-- A policy with a new id keeps the ids distinct. -/
theorem nodup_ids_push {s : PolicySet} {p : Policy} (hs : s.ids.Nodup) (hnew : p.id ∉ s.ids) :
    (s.push p).ids.Nodup :=
  (ids_push_perm s p).nodup_iff.mpr (List.nodup_cons.mpr ⟨hnew, hs⟩)

/-! ### What a change answers and leaves

Each change is run on a set once, and what it answers and what it leaves is written out in terms of
the set. What a change makes of a set, and that it keeps one that it refuses, is read from there. -/

namespace Change

variable {α β : Type} (s : PolicySet)

/-- Changes in sequence: the second sees what the first has left, and is left out if the first
failed. -/
theorem on_bind (c : Change α) (f : α → Change β) : (c >>= f).on s =
    match c.on s with
    | (.ok a, t) => (f a).on t
    | (.error e, t) => (.error e, t) := by
  unfold on
  rw [ExceptT.run_bind, StateT.run_bind]
  rcases c.run.run s with ⟨_ | a, t⟩ <;> rfl

@[simp] theorem on_get : (get : Change PolicySet).on s = (.ok s, s) := rfl

@[simp] theorem on_modify (f : PolicySet → PolicySet) :
    (modify f : Change Unit).on s = (.ok (), f s) :=
  rfl

@[simp] theorem on_throw (e : Error) : (throw e : Change α).on s = (.error e, s) := rfl

@[simp] theorem on_pure (a : α) : (pure a : Change α).on s = (.ok a, s) := rfl

/-- A check of something else answers what that answers, and leaves the set. -/
@[simp] theorem on_check (r : Except Error α) :
    (discard (liftExcept r) : Change Unit).on s = (r.map fun _ => (), s) := by
  cases r <;> rfl

/-- An id that is taken is refused. -/
@[simp] theorem on_ensureUnused (id : String) : (ensureUnused id).on s =
    (if s.contains id then .error (.duplicateId id) else .ok (), s) := by
  rw [ensureUnused, on_bind, on_get]
  by_cases hc : s.contains id <;> simp [hc]

/-- **What adding a policy does**: a policy whose id is taken is refused, and the set is as
before. -/
theorem on_add (p : Policy) : (add p).on s =
    if s.contains p.id then (.error (.duplicateId p.id), s) else (.ok (), s.push p) := by
  rw [add, on_bind, on_ensureUnused]
  by_cases hc : s.contains p.id <;> simp [hc]

/-- **What linking a template does**: the template is looked up first, then it is given the values,
and the new id comes last. Whatever is refused, the set is as before. -/
theorem on_link (template id : String) (values : List (Slot × Uid)) :
    (link template id values).on s =
    match s.template? template with
    | none => (.error (.templateLink s!"no template with id \x60{template}\x60"), s)
    | some t =>
      match t.link id values with
      | .error e => (.error e, s)
      | .ok _ =>
        if s.contains id then (.error (.duplicateId id), s)
        else (.ok (), { s with links := s.links ++ [⟨template, id, values⟩] }) := by
  rw [link, on_bind, on_get]
  cases ht : s.template? template with
  | none => simp [ht]
  | some t =>
      simp only [ht, on_bind, on_check, on_ensureUnused, on_modify]
      cases hlink : t.link id values with
      | error e => rfl
      | ok q => by_cases hc : s.contains id <;> simp [hc, Except.map]

/-- **An addition that fails** leaves the set as it was. -/
theorem on_add_of_error {p : Policy} {e : Error} {t : PolicySet} (h : (add p).on s = (.error e, t)) :
    t = s := by
  rw [on_add] at h
  split at h <;> cases h
  rfl

/-- **A link that fails** leaves the set as it was. -/
theorem on_link_of_error {template id : String} {values : List (Slot × Uid)} {e : Error}
    {t : PolicySet} (h : (link template id values).on s = (.error e, t)) : t = s := by
  rw [on_link] at h
  split at h
  · cases h; rfl
  · split at h
    · cases h; rfl
    · split at h <;> cases h
      rfl

/-- What a change makes of a set is what it leaves when it succeeds. -/
theorem made_eq_ok_iff {c : Change Unit} {s t : PolicySet} :
    c.made s = .ok t ↔ c.on s = (.ok (), t) := by
  unfold made
  rcases c.on s with ⟨_ | _, u⟩ <;> simp

/-- A change that fails makes nothing of a set. -/
theorem made_eq_error_iff {c : Change Unit} {s : PolicySet} {e : Error} :
    c.made s = .error e ↔ (c.on s).1 = .error e := by
  unfold made
  rcases c.on s with ⟨_ | _, u⟩ <;> simp

end Change

/-- What adding a policy does, and when it does it. -/
theorem add_eq_ok_iff {s t : PolicySet} {p : Policy} :
    s.add p = .ok t ↔ p.id ∉ s.ids ∧ t = s.push p := by
  rw [add, Change.made_eq_ok_iff, Change.on_add, ← contains_iff]
  by_cases hc : s.contains p.id <;> simp [hc, eq_comm]

/-- Only an id that is taken keeps a policy out. -/
theorem add_eq_error_iff {s : PolicySet} {p : Policy} {e : Error} :
    s.add p = .error e ↔ p.id ∈ s.ids ∧ e = .duplicateId p.id := by
  rw [add, Change.made_eq_error_iff, Change.on_add, ← contains_iff]
  by_cases hc : s.contains p.id <;> simp [hc, eq_comm]

/-- What linking a template does, and when it does it. -/
theorem link_eq_ok_iff {s t : PolicySet} {template id : String} {values : List (Slot × Uid)} :
    s.link template id values = .ok t ↔
      (∃ p q, s.template? template = some p ∧ p.link id values = .ok q) ∧ id ∉ s.ids ∧
        t = { s with links := s.links ++ [⟨template, id, values⟩] } := by
  rw [link, Change.made_eq_ok_iff, Change.on_link, ← contains_iff]
  cases ht : s.template? template with
  | none => simp
  | some p =>
      cases hp : p.link id values with
      | error e => simp [hp]
      | ok q => by_cases hc : s.contains id <;> simp [hc, hp, eq_comm]

/-- A link with a new id keeps the ids distinct. -/
theorem nodup_ids_link {s : PolicySet} {l : Link} (hs : s.ids.Nodup) (hnew : l.id ∉ s.ids) :
    (ids { s with links := s.links ++ [l] }).Nodup := by
  have hids : ids { s with links := s.links ++ [l] } = s.ids ++ [l.id] := by simp [ids]
  rw [hids]
  refine List.nodup_append.mpr ⟨hs, List.pairwise_singleton _ l.id, ?_⟩
  rintro x hx y hy rfl
  exact hnew (List.mem_singleton.mp hy ▸ hx)

/-- A template is still found when others were added. -/
theorem template?_of_append {s t : PolicySet} {ps : List Policy} {id : String} {p : Policy}
    (h : s.template? id = some p) (ht : t.templates = s.templates ++ ps) :
    t.template? id = some p := by
  unfold template? at h ⊢
  rw [ht, List.find?_append, h, Option.some_or]

/-- **Policies with new ids are added in order.** -/
theorem addAll_eq_ok {ps : List Policy} : ∀ {s : PolicySet}, (ps.map (·.id)).Nodup →
    (∀ p ∈ ps, p.id ∉ s.ids) →
    s.addAll ps = .ok ⟨s.policies ++ ps.filter (!·.isTemplate),
      s.templates ++ ps.filter (·.isTemplate), s.links⟩ := by
  induction ps with
  | nil => intro s _ _; simp [addAll]
  | cons p ps ih =>
      intro s hnodup hnew
      rw [List.map_cons, List.nodup_cons] at hnodup
      have hadd : s.add p = .ok (s.push p) :=
        add_eq_ok_iff.mpr ⟨hnew p List.mem_cons_self, rfl⟩
      have hrest : ∀ q ∈ ps, q.id ∉ (s.push p).ids := by
        intro q hq hid
        rcases mem_ids_push.mp hid with hid | hid
        · exact hnodup.1 (hid ▸ List.mem_map_of_mem hq)
        · exact hnew q (List.mem_cons_of_mem p hq) hid
      rw [addAll, hadd]
      simp only [ih hnodup.2 hrest]
      unfold push
      by_cases ht : p.isTemplate <;> simp [ht]

/-- The part of uniform policies that a set takes as templates, and the part that it does not. -/
theorem filter_isTemplate {ps : List Policy} {b : Bool} (h : ∀ p ∈ ps, p.isTemplate = b) :
    ps.filter (·.isTemplate) = (if b then ps else []) ∧
      ps.filter (!·.isTemplate) = if b then [] else ps := by
  cases b with
  | true =>
      exact ⟨List.filter_eq_self.mpr h, List.filter_eq_nil_iff.mpr fun p hp => by simp [h p hp]⟩
  | false =>
      exact ⟨List.filter_eq_nil_iff.mpr fun p hp => by simp [h p hp],
        List.filter_eq_self.mpr fun p hp => by simp [h p hp]⟩

/-- Static policies and templates with distinct ids make a set. -/
theorem addAll_append_eq_ok {ps ts : List Policy} (hids : ((ps ++ ts).map (·.id)).Nodup)
    (hps : ∀ p ∈ ps, p.isTemplate = false) (hts : ∀ p ∈ ts, p.isTemplate = true) :
    empty.addAll (ps ++ ts) = .ok ⟨ps, ts, []⟩ := by
  have hnew : ∀ p ∈ ps ++ ts, p.id ∉ empty.ids := fun _ _ => List.not_mem_nil
  obtain ⟨hps₁, hps₂⟩ := filter_isTemplate hps
  obtain ⟨hts₁, hts₂⟩ := filter_isTemplate hts
  rw [addAll_eq_ok hids hnew, List.filter_append, List.filter_append, hps₁, hps₂, hts₁, hts₂]
  simp [empty]

/-- Adding two lists of policies is adding one after the other. -/
theorem addAll_append (s : PolicySet) (ps qs : List Policy) :
    s.addAll (ps ++ qs) = (s.addAll ps >>= fun t => t.addAll qs) := by
  induction ps generalizing s with
  | nil => rfl
  | cons p ps ih =>
      rw [List.cons_append, addAll, addAll]
      cases s.add p with
      | error e => rfl
      | ok t => exact ih t

end AccessPolicy.PolicySet
