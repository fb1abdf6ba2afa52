import AccessPolicy.Proofs.Entity.Hierarchy
import AccessPolicy.Proofs.Schema.Built
import AccessPolicy.Proofs.Schema.TypeSoundness

/-!
# The hierarchies of a schema

* `Schema.HasParentType s` and `Schema.HasGroup s` — the edges that the declared memberships make
  between entity types and between actions.
* **The searches of a well-formed schema are exact**
  (`Schema.WellFormed.typeCanBeIn_iff_reflTransGen`, `Schema.WellFormed.inGroup_iff_reflTransGen`),
  and they end on cycles as well.
* `Schema.AdmitsParents s es` — each parent of an entity of a declared type is of a type that the
  declaration names. A check looks at one record, so that this is all that it can say; checked
  records have it as long as no action is of a declared entity type
  (`Schema.admitsParents_of_checked`).
* **The types over-approximate the entities** (`Schema.typeCanBeIn_exact`): whatever can be reached
  along parents is of a type that can be reached along memberships. The induction on the way carries
  along that the type reached is declared, which is what makes the next edge one of the schema.
-/

namespace AccessPolicy.Schema

variable {s : Schema} {es : Entities} {e : Entity} {u v : Uid} {sections : List Section}

/-! ### Reachability in a schema -/

/-- A declaration of an entity type names another type as one of its parents. -/
def HasParentType (s : Schema) (type parent : String) : Prop :=
  ∃ d, (type, d) ∈ s.entityTypes ∧ parent ∈ d.memberOf

/-- A declaration of an action names another action as one of its groups. -/
def HasGroup (s : Schema) (action group : Uid) : Prop :=
  ∃ d, (action, d) ∈ s.actions ∧ group ∈ d.memberOf

namespace WellFormed

variable (h : s.WellFormed)

include h

theorem hasParentType_iff {type parent : String} :
    s.HasParentType type parent ↔ parent ∈ s.parentTypes type := by
  rw [parentTypes_eq, Reach.mem_successors_iff h.entityTypes.nodup]
  exact Iff.rfl

theorem hasGroup_iff {action group : Uid} :
    s.HasGroup action group ↔ group ∈ s.groupsOf action := by
  rw [groupsOf_eq, Reach.mem_successors_iff h.actions.nodup]
  exact Iff.rfl

/-- **A type can be in another one** exactly if memberships of any number lead there. -/
theorem typeCanBeIn_iff_reflTransGen {type ancestor : String} :
    s.typeCanBeIn type ancestor ↔ Relation.ReflTransGen s.HasParentType type ancestor := by
  have hedge : s.HasParentType = fun x y => y ∈ s.parentTypes x :=
    funext₂ fun x y => propext h.hasParentType_iff
  rw [typeCanBeIn_iff, Reach.eq_or_leads_iff, hedge]

/-- **An action is in a group** exactly if memberships of any number lead there. -/
theorem inGroup_iff_reflTransGen {action group : Uid} :
    s.inGroup action group ↔ Relation.ReflTransGen s.HasGroup action group := by
  have hedge : s.HasGroup = fun x y => y ∈ s.groupsOf x :=
    funext₂ fun x y => propext h.hasGroup_iff
  rw [h.inGroup_iff, Reach.eq_or_leads_iff, hedge]

/-- The search for the types that a type can be in ends with them. -/
theorem explores_parentTypes_iff {type : String} {found : List String} :
    Reach.Explores s.parentTypes (s.parentTypes type) [] found ↔
      found = Reach.nodes s.parentTypes s.parentTypeCount type := by
  rw [parentTypes_eq, parentTypeCount]
  exact Reach.explores_nodes_iff h.entityTypes.nodup

/-- The search for the groups of an action ends with them. -/
theorem explores_groupsOf_iff {action : Uid} {found : List Uid} :
    Reach.Explores s.groupsOf (s.groupsOf action) [] found ↔
      found = Reach.nodes s.groupsOf s.groupCount action := by
  rw [groupsOf_eq, groupCount]
  exact Reach.explores_nodes_iff h.actions.nodup

end WellFormed

/-- The search for one type from another one ends, in every schema. -/
theorem seeks_parentTypes_iff {type ancestor : String} (hne : type ≠ ancestor) {answer : Bool} :
    Reach.Seeks s.parentTypes ancestor [type] [] answer ↔ answer = s.typeCanBeIn type ancestor := by
  rw [parentTypes_eq, Reach.seeks_finds_iff, typeCanBeIn, beq_false_of_ne hne, Bool.false_or,
    parentTypes_eq, parentTypeCount]

/-! ### Parents that a schema admits -/

/-- The parents of entities of declared types are of types that the declarations name. -/
def AdmitsParents (s : Schema) (es : Entities) : Prop :=
  ∀ u v, v ∈ es.parents u → s.hasType u.type → v.type ∈ s.parentTypes u.type

/-- **What an entity can reach** is of a declared type that its type can reach. -/
theorem WellFormed.leads_types (h : s.WellFormed) (hes : s.AdmitsParents es)
    (hlead : Reach.Leads es.parents u v) (hu : s.hasType u.type) :
    Reach.Leads s.parentTypes u.type v.type ∧ s.hasType v.type := by
  induction hlead with
  | single hv =>
      have hmem := hes _ _ hv hu
      exact ⟨.single hmem, h.parents hmem⟩
  | tail _ hw ih =>
      have hmem := hes _ _ hw ih.2
      exact ⟨ih.1.tail hmem, h.parents hmem⟩

/-- What an entity belongs to is of a type that its type can be in. -/
theorem WellFormed.typeCanBeIn_of_isDescendant (h : s.WellFormed) (hes : s.AdmitsParents es)
    (huv : es.isDescendant u v) (hu : s.hasType u.type) : s.typeCanBeIn u.type v.type := by
  rw [typeCanBeIn_iff]
  rcases Entities.eq_or_leads_of_isDescendant huv with rfl | hlead
  · exact .inl rfl
  · exact .inr (h.leads_types hes hlead hu).1

/-- A record that passes its check is that of a declared action, or its parents are of types that
its type can be in. -/
theorem hasAction_or_of_checkEntity (h : s.checkEntity e = .ok ()) :
    s.hasAction e.uid ∨ ∀ p ∈ e.parents, p.type ∈ s.parentTypes e.uid.type := by
  unfold checkEntity at h
  by_cases haction : s.hasAction e.uid
  · exact .inl haction
  · refine .inr fun p hp => ?_
    rw [if_neg haction] at h
    rw [parentTypes]
    cases hd : s.entityType? e.uid.type with
    | none =>
        rw [hd] at h
        cases h
    | some d =>
        rw [hd] at h
        obtain ⟨-, -, h⟩ := bind_eq_ok.mp h
        cases hfind : e.parents.find? fun p => !d.memberOf.contains p.type with
        | some q =>
            rw [hfind] at h
            cases h
        | none =>
            have hmem := List.find?_eq_none.mp hfind p hp
            simpa using hmem

/-- **Records that pass their checks** have parents that the schema admits, where no action is of a
declared entity type. -/
theorem admitsParents_of_checked (hs : s.SeparatesActions)
    (hes : ∀ e ∈ es.records, s.checkEntity e = .ok ()) : s.AdmitsParents es := by
  intro u v hv hu
  obtain ⟨e, he, rfl, hparent⟩ := Entities.hasParent_of_mem_parents hv
  rcases hasAction_or_of_checkEntity (hes e he) with haction | hparents
  · exact absurd hu (hs e.uid haction)
  · exact hparents v hparent

/-! ### Types and entities -/

/-- **The types of a built schema over-approximate the entities.** A type can be in exactly those
types that declared memberships lead to, cycles or not: the search for one of them ends without a
bound on its steps, and so does the search for all of them. And what an entity of a declared type
belongs to is of such a type, in every store whose records pass their checks, unless an action is of
a declared entity type. -/
theorem typeCanBeIn_exact (hs : ofSections sections = .ok s) :
    (∀ type ancestor,
      s.typeCanBeIn type ancestor ↔ Relation.ReflTransGen s.HasParentType type ancestor) ∧
    (∀ type ancestor, type ≠ ancestor → ∀ answer,
      Reach.Seeks s.parentTypes ancestor [type] [] answer ↔ answer = s.typeCanBeIn type ancestor) ∧
    (∀ type found, Reach.Explores s.parentTypes (s.parentTypes type) [] found ↔
      found = Reach.nodes s.parentTypes s.parentTypeCount type) ∧
    (s.SeparatesActions → ∀ es : Entities, (∀ e ∈ es.records, s.checkEntity e = .ok ()) →
      ∀ u v, s.hasType u.type → es.isDescendant u v → s.typeCanBeIn u.type v.type) := by
  have hwf := wellFormed_of_ofSections hs
  refine ⟨fun type ancestor => hwf.typeCanBeIn_iff_reflTransGen,
    fun type ancestor hne answer => seeks_parentTypes_iff hne,
    fun type found => hwf.explores_parentTypes_iff, fun hsep es hes u v hu huv => ?_⟩
  exact hwf.typeCanBeIn_of_isDescendant (admitsParents_of_checked hsep hes) huv hu

/-- Teams are in groups and groups in teams, so that the memberships form a cycle, and so do the
parents of the two records. A user of a team that has a record is in the group above it, and the
user type can be in the group type. -/
theorem typeCanBeIn_exact_cycle :
    let sections : List Section := [⟨"", [("Group", ⟨["Team"], []⟩), ("Team", ⟨["Group"], []⟩),
      ("User", ⟨["Team"], []⟩)], [("view", .empty)]⟩]
    let s : Schema := ⟨[("Group", ⟨["Team"], []⟩), ("Team", ⟨["Group"], []⟩),
      ("User", ⟨["Team"], []⟩)], [(⟨"Action", "view"⟩, .empty)]⟩
    let es : Entities := ⟨[⟨⟨"Group", "staff"⟩, [], [⟨"Team", "ops"⟩]⟩,
      ⟨⟨"Team", "ops"⟩, [], [⟨"Group", "staff"⟩]⟩, ⟨⟨"User", "ann"⟩, [], [⟨"Team", "ops"⟩]⟩]⟩
    ofSections sections = .ok s ∧ s.SeparatesActions ∧
      (∀ e ∈ es.records, s.checkEntity e = .ok ()) ∧
      es.isDescendant ⟨"User", "ann"⟩ ⟨"Group", "staff"⟩ ∧ s.typeCanBeIn "User" "Group" ∧
      Relation.ReflTransGen s.HasParentType "User" "Group" := by
  intro sections s es
  have hs : ofSections sections = .ok s := by decide +kernel
  have hsep : s.SeparatesActions := by decide +kernel
  have hes : ∀ e ∈ es.records, s.checkEntity e = .ok () := by decide +kernel
  have hann : es.isDescendant ⟨"User", "ann"⟩ ⟨"Group", "staff"⟩ := by decide +kernel
  obtain ⟨hexact, -, -, hstores⟩ := typeCanBeIn_exact hs
  have hin := hstores hsep es hes ⟨"User", "ann"⟩ ⟨"Group", "staff"⟩ (by decide +kernel) hann
  exact ⟨hs, hsep, hes, hann, hin, (hexact "User" "Group").mp hin⟩

end AccessPolicy.Schema
