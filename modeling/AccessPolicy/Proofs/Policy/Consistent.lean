import AccessPolicy.Proofs.Policy.Slots

/-!
# Consistent sets

* `PolicySet.Consistent s` — ids are distinct in `s`, the static policies are closed, the templates
  are templates, and each link binds the slots of a template of the set. Adding, linking and
  building keep a set consistent (`PolicySet.Consistent.add`, `PolicySet.Consistent.link`,
  `PolicySet.Consistent.addAll`).
* **A consistent set stands for closed policies** (`PolicySet.Consistent.exists_effective`): the
  static ones, followed by one for each link.
-/

namespace AccessPolicy.PolicySet

variable {s t : PolicySet}

/-- Ids are distinct, static policies are closed, templates are templates, and each link binds the
slots of a template. -/
structure Consistent (s : PolicySet) : Prop where
  /-- The ids of static policies, templates and links are distinct. -/
  ids : s.ids.Nodup
  /-- The static policies have no slots. -/
  policies : ∀ p ∈ s.policies, p.Closed
  /-- The templates have slots, but not in the scope of the action. -/
  templates : ∀ p ∈ s.templates, p.slots ≠ [] ∧ p.action.slot? = none
  /-- The links bind the slots of their templates. -/
  links : ∀ l ∈ s.links, ∃ p, s.template? l.template = some p ∧ Ascending.keys l.values = p.slots

theorem consistent_empty : empty.Consistent :=
  ⟨List.nodup_nil, List.forall_mem_nil _, List.forall_mem_nil _, List.forall_mem_nil _⟩

namespace Consistent

/-- **Adding a policy** keeps a set consistent. -/
theorem add (hs : s.Consistent) {p : Policy} (hp : p.action.slot? = none) (h : s.add p = .ok t) :
    t.Consistent := by
  obtain ⟨hnew, rfl⟩ := add_eq_ok_iff.mp h
  have hids := nodup_ids_push hs.ids hnew
  unfold push at hids ⊢
  split
  · rename_i htemplate
    rw [if_pos htemplate] at hids
    refine ⟨hids, hs.policies, fun q hq => ?_, fun l hl => ?_⟩
    · rcases List.mem_append.mp hq with hq | hq
      · exact hs.templates q hq
      · obtain rfl := List.mem_singleton.mp hq
        have hslots : q.slots ≠ [] := by simpa [Policy.isTemplate] using htemplate
        exact ⟨hslots, hp⟩
    · obtain ⟨q, hq, hkeys⟩ := hs.links l hl
      exact ⟨q, template?_of_append hq rfl, hkeys⟩
  · rename_i hstatic
    rw [if_neg hstatic] at hids
    refine ⟨hids, fun q hq => ?_, hs.templates, hs.links⟩
    rcases List.mem_append.mp hq with hq | hq
    · exact hs.policies q hq
    · obtain rfl := List.mem_singleton.mp hq
      exact Policy.closed_iff.mpr ⟨Bool.eq_false_iff.mpr hstatic, hp⟩

/-- **Linking a template** keeps a set consistent. -/
theorem link (hs : s.Consistent) {template id : String} {values : List (Slot × Uid)}
    (hsorted : Ascending.Sorted (Ascending.keys values)) (h : s.link template id values = .ok t) :
    t.Consistent := by
  obtain ⟨⟨p, q, hp, hq⟩, hnew, rfl⟩ := link_eq_ok_iff.mp h
  refine ⟨nodup_ids_link hs.ids hnew, hs.policies, hs.templates, fun l hl => ?_⟩
  rcases List.mem_append.mp hl with hl | hl
  · exact hs.links l hl
  · obtain rfl := List.mem_singleton.mp hl
    exact ⟨p, hp, Policy.keys_of_link hsorted hq⟩

/-- Adding policies in order keeps a set consistent. -/
theorem addAll {ps : List Policy} : ∀ {s : PolicySet}, s.Consistent →
    (∀ p ∈ ps, p.action.slot? = none) → s.addAll ps = .ok t → t.Consistent := by
  induction ps with
  | nil =>
      intro s hs _ h
      cases h
      exact hs
  | cons p ps ih =>
      intro s hs hps h
      rw [List.forall_mem_cons] at hps
      rw [PolicySet.addAll] at h
      split at h
      · rename_i s' hadd
        exact ih (hs.add hps.1 hadd) hps.2 h
      · cases h

end Consistent

/-- A set of policies without a slot in the scope of the action is consistent. -/
theorem Built.consistent (hs : s.Built fun p => p.action.slot? = none) : s.Consistent := by
  induction hs with
  | empty => exact consistent_empty
  | add _ hp h ih => exact ih.add hp h
  | link _ hsorted _ h ih => exact ih.link hsorted h

/-- A well-formed set is consistent. -/
theorem WellFormed.consistent (hs : s.WellFormed) : s.Consistent where
  ids := hs.ids
  policies p hp := by
    obtain ⟨hp, hstatic⟩ := hs.policies p hp
    exact Policy.closed_iff.mpr ⟨hstatic, Policy.slot?_of_fitsAction hp.action⟩
  templates p hp := by
    obtain ⟨hp, htemplate⟩ := hs.templates p hp
    have hslots : p.slots ≠ [] := by simpa [Policy.isTemplate] using htemplate
    exact ⟨hslots, Policy.slot?_of_fitsAction hp.action⟩
  links l hl := by
    obtain ⟨⟨p, q, hp, hq⟩, hsorted⟩ := (hs.links l hl).toLinkBinds
    exact ⟨p, hp, Policy.keys_of_link hsorted hq⟩

/-! ### What a set stands for -/

/-- The policy of a link has the id of the link. -/
theorem id_of_resolve {l : Link} {p : Policy} (h : s.resolve l = .ok p) : p.id = l.id := by
  unfold resolve at h
  split at h
  · cases h
  · obtain ⟨-, rfl⟩ := Policy.link_eq_ok_iff.mp h
    rfl

/-- What takes part in decisions has the ids of the static policies and of the links. -/
theorem ids_of_effective {ps : List Policy} (h : s.effective = .ok ps) :
    ps.map Policy.id = s.policies.map (·.id) ++ s.links.map (·.id) := by
  obtain ⟨linked, hlinked, rfl⟩ := map_eq_ok.mp h
  have hids : ∀ {ls : List Link} {linked : List Policy},
      List.Forall₂ (fun l p => s.resolve l = .ok p) ls linked →
      linked.map Policy.id = ls.map (·.id) := by
    intro ls linked hall
    induction hall with
    | nil => rfl
    | cons hl _ ih => rw [List.map_cons, List.map_cons, id_of_resolve hl, ih]
  rw [List.map_append, hids (mapM_eq_ok.mp hlinked)]

/-- Where ids are distinct, they are so among what takes part in decisions. -/
theorem nodup_ids_of_effective (hs : s.ids.Nodup) {ps : List Policy} (h : s.effective = .ok ps) :
    (ps.map Policy.id).Nodup := by
  rw [ids_of_effective h]
  refine hs.sublist ?_
  exact (List.sublist_append_left _ _).append (List.Sublist.refl _)

namespace Consistent

/-- A link of a consistent set stands for its template with the slots bound. -/
theorem exists_resolve (hs : s.Consistent) {l : Link} (hl : l ∈ s.links) :
    ∃ p, s.resolve l = .ok p ∧ p.Closed := by
  obtain ⟨t, ht, hkeys⟩ := hs.links l hl
  have hlink : t.link l.id l.values = .ok ((t.bind l.values).withId l.id) :=
    Policy.link_of_keys hkeys
  have hmem : t ∈ s.templates := List.mem_of_find?_eq_some ht
  refine ⟨_, ?_, Policy.closed_of_link (hs.templates t hmem).2 hlink⟩
  simp only [resolve, ht]
  exact hlink

/-- **A consistent set stands for closed policies**: the static ones, followed by one for each link
in order. -/
theorem exists_effective (hs : s.Consistent) :
    ∃ linked, s.effective = .ok (s.policies ++ linked) ∧
      List.Forall₂ (fun l p => s.resolve l = .ok p) s.links linked ∧
      ∀ p ∈ s.policies ++ linked, p.Closed := by
  have hlinked : ∃ linked, List.Forall₂ (fun l p => s.resolve l = .ok p) s.links linked :=
    exists_forall₂_iff.mpr fun l hl => (hs.exists_resolve hl).imp fun _ h => h.1
  obtain ⟨linked, hall⟩ := hlinked
  refine ⟨linked, map_eq_ok.mpr ⟨linked, mapM_eq_ok.mpr hall, rfl⟩, hall, ?_⟩
  refine List.forall_mem_append.mpr ⟨hs.policies, fun p hp => ?_⟩
  obtain ⟨l, hl, hresolve⟩ := exists_of_mem_forall₂ hall hp
  obtain ⟨q, hq, hclosed⟩ := hs.exists_resolve hl
  obtain rfl : q = p := Except.ok.inj (hq.symm.trans hresolve)
  exact hclosed

end Consistent

end AccessPolicy.PolicySet
