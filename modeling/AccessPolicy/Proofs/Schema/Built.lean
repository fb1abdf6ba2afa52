import AccessPolicy.Proofs.Ascending
import AccessPolicy.Proofs.Except
import AccessPolicy.Proofs.Reach
import AccessPolicy.Schema.Basic

/-!
# Schemas that were built from sections

* `Schema.WellFormed s` — the declarations of `s` ascend, and whatever they name as a parent or as a
  group is declared as well.
* **A schema is built** exactly if nothing is declared twice and every declaration is resolved; it
  has what the declarations are resolved to (`Schema.ofSections_eq_ok_iff`). So each declaration of
  it comes of one in a section (`Schema.Origins`), and it is well-formed
  (`Schema.wellFormed_of_ofSections`).
* `Schema.typeCanBeIn` is reachability along the declared memberships (`Schema.typeCanBeIn_iff`),
  and so is `Schema.inGroup` in a well-formed schema (`Schema.WellFormed.inGroup_iff`).
-/

namespace AccessPolicy

namespace Schema

/-- The declarations ascend, and what they name is declared. -/
structure WellFormed (s : Schema) : Prop where
  /-- The entity types ascend. -/
  entityTypes : Ascending.Sorted (Ascending.keys s.entityTypes)
  /-- The actions ascend. -/
  actions : Ascending.Sorted (Ascending.keys s.actions)
  /-- What is named as a parent is declared. -/
  parents : ∀ {type parent : String}, parent ∈ s.parentTypes type → s.hasType parent
  /-- What is named as a group is declared. -/
  groups : ∀ {action group : Uid}, group ∈ s.groupsOf action → s.hasAction group

variable {s s' : Schema} {declared declared' : Declared} {space path : String}
  {sections : List Section}

/-! ### Memberships -/

/-- The parents of entity types, as successors in a graph. -/
theorem parentTypes_eq (s : Schema) :
    s.parentTypes = Reach.successors EntityDecl.memberOf s.entityTypes := by
  funext name
  unfold parentTypes entityType? Reach.successors
  cases Ascending.get? name s.entityTypes <;> rfl

/-- The groups of actions, as successors in a graph. -/
theorem groupsOf_eq (s : Schema) :
    s.groupsOf = Reach.successors ActionDecl.memberOf s.actions := by
  funext action
  unfold groupsOf action? Reach.successors
  cases Ascending.get? action s.actions <;> rfl

/-- A type can be in another one exactly if the declared memberships lead there. -/
theorem typeCanBeIn_iff {type ancestor : String} :
    s.typeCanBeIn type ancestor ↔ type = ancestor ∨ Reach.Leads s.parentTypes type ancestor := by
  rw [typeCanBeIn, Bool.or_eq_true, beq_iff_eq, parentTypes_eq, parentTypeCount,
    Reach.finds_successors_iff]

/-- An action is in a group exactly if the declared memberships lead there. -/
theorem WellFormed.inGroup_iff (h : s.WellFormed) {action group : Uid} :
    s.inGroup action group ↔ action = group ∨ Reach.Leads s.groupsOf action group := by
  rw [inGroup, Bool.or_eq_true, beq_iff_eq, List.contains_iff_mem, groupsOf_eq, groupCount,
    Reach.mem_nodes_successors_iff h.actions.nodup]

/-! ### Names that were resolved -/

/-- A name of an entity type is resolved to a declared one. -/
theorem Declared.mem_of_typeName {name type : String}
    (h : declared.typeName space path name = .ok type) : type ∈ declared.types := by
  simp only [Declared.typeName] at h
  by_cases hlocal : !hasSeparator name.toList && declared.types.contains (Name.qualify space name)
  · rw [if_pos hlocal] at h
    cases h
    exact List.contains_iff_mem.mp (Bool.and_eq_true_iff.mp hlocal).2
  · rw [if_neg hlocal] at h
    by_cases hglobal : declared.types.contains name
    · rw [if_pos hglobal] at h
      cases h
      exact List.contains_iff_mem.mp hglobal
    · rw [if_neg hglobal] at h
      cases h

/-- Names of entity types are resolved to declared ones. -/
theorem Declared.mem_of_typeNames {names types : List String}
    (h : declared.typeNames space path names = .ok types) : ∀ t ∈ types, t ∈ declared.types := by
  intro t ht
  obtain ⟨ts, hts, rfl⟩ := map_eq_ok.mp h
  obtain ⟨name, -, hname⟩ := exists_of_mem_mapM hts (Ascending.mem_of_mem_ofList ht)
  exact mem_of_typeName hname

/-- A reference to a group is resolved to a declared action. -/
theorem Declared.mem_of_group {u g group : Uid} (h : declared.group space u g = .ok group) :
    group ∈ declared.actions := by
  simp only [Declared.group] at h
  generalize (if g.type = "Action" then actionUid space g.id else g) = resolved at h
  by_cases hmem : declared.actions.contains resolved
  · rw [if_pos hmem] at h
    cases h
    exact List.contains_iff_mem.mp hmem
  · rw [if_neg hmem] at h
    cases h

/-- The parents of a resolved declaration are declared. -/
theorem Declared.memberOf_entityDecl {name : String} {d d' : EntityDecl}
    (h : declared.entityDecl space name d = .ok d') : ∀ t ∈ d'.memberOf, t ∈ declared.types := by
  obtain ⟨memberOf, hmemberOf, h⟩ := bind_eq_ok.mp h
  obtain ⟨attributes, -, h⟩ := bind_eq_ok.mp h
  cases h
  exact mem_of_typeNames hmemberOf

/-- The groups of a resolved declaration are declared. -/
theorem Declared.memberOf_actionDecl {u : Uid} {d d' : ActionDecl}
    (h : declared.actionDecl space u d = .ok d') : ∀ g ∈ d'.memberOf, g ∈ declared.actions := by
  obtain ⟨groups, hgroups, h⟩ := bind_eq_ok.mp h
  obtain ⟨principals, -, h⟩ := bind_eq_ok.mp h
  obtain ⟨resources, -, h⟩ := bind_eq_ok.mp h
  obtain ⟨context, -, h⟩ := bind_eq_ok.mp h
  cases h
  intro g hg
  obtain ⟨written, -, hwritten⟩ := exists_of_mem_mapM hgroups (Ascending.mem_of_mem_ofList hg)
  exact mem_of_group hwritten

/-! ### Declaring all names -/

/-- The qualified entity types of sections, in order. -/
def typeNamesOf (sections : List Section) : List String :=
  sections.flatMap fun x => x.entityTypes.map fun d => Name.qualify x.name d.1

/-- The actions of sections, in order. -/
def actionUidsOf (sections : List Section) : List Uid :=
  sections.flatMap fun x => x.actions.map fun d => actionUid x.name d.1

/-- Declaring the entity types of a section succeeds exactly if none of them is declared yet or
twice, and puts them on top of the declared ones. -/
theorem declareTypes_eq_ok_iff {ds : List (String × EntityDecl)} (h : declared.types.Nodup) :
    declareTypes space ds declared = .ok declared' ↔
      declared' = { declared with
        types := (ds.map fun d => Name.qualify space d.1).reverse ++ declared.types } ∧
      declared'.types.Nodup := by
  induction ds generalizing declared with
  | nil =>
      simp only [declareTypes, Except.ok.injEq, List.map_nil, List.reverse_nil, List.nil_append]
      constructor
      · rintro rfl
        exact ⟨rfl, h⟩
      · rintro ⟨rfl, -⟩
        rfl
  | cons d ds ih =>
      obtain ⟨name, d⟩ := d
      rw [declareTypes]
      simp only [List.map_cons, List.reverse_cons, List.append_assoc, List.singleton_append]
      by_cases hmem : declared.types.contains (Name.qualify space name)
      · rw [if_pos hmem]
        refine iff_of_false nofun ?_
        rintro ⟨rfl, hnodup⟩
        have hcons := (List.nodup_append.mp hnodup).2.1
        exact (List.nodup_cons.mp hcons).1 (List.contains_iff_mem.mp hmem)
      · rw [if_neg hmem]
        have hnew : Name.qualify space name ∉ declared.types :=
          fun hin => hmem (List.contains_iff_mem.mpr hin)
        have hnodup : (Name.qualify space name :: declared.types).Nodup :=
          List.nodup_cons.mpr ⟨hnew, h⟩
        exact ih hnodup

/-- Declaring the actions of a section succeeds exactly if none of them is declared yet or twice,
and puts them on top of the declared ones. -/
theorem declareActions_eq_ok_iff {ds : List (String × ActionDecl)} (h : declared.actions.Nodup) :
    declareActions space ds declared = .ok declared' ↔
      declared' = { declared with
        actions := (ds.map fun d => actionUid space d.1).reverse ++ declared.actions } ∧
      declared'.actions.Nodup := by
  induction ds generalizing declared with
  | nil =>
      simp only [declareActions, Except.ok.injEq, List.map_nil, List.reverse_nil, List.nil_append]
      constructor
      · rintro rfl
        exact ⟨rfl, h⟩
      · rintro ⟨rfl, -⟩
        rfl
  | cons d ds ih =>
      obtain ⟨name, d⟩ := d
      rw [declareActions]
      simp only [List.map_cons, List.reverse_cons, List.append_assoc, List.singleton_append]
      by_cases hmem : declared.actions.contains (actionUid space name)
      · rw [if_pos hmem]
        refine iff_of_false nofun ?_
        rintro ⟨rfl, hnodup⟩
        have hcons := (List.nodup_append.mp hnodup).2.1
        exact (List.nodup_cons.mp hcons).1 (List.contains_iff_mem.mp hmem)
      · rw [if_neg hmem]
        have hnew : actionUid space name ∉ declared.actions :=
          fun hin => hmem (List.contains_iff_mem.mpr hin)
        have hnodup : (actionUid space name :: declared.actions).Nodup :=
          List.nodup_cons.mpr ⟨hnew, h⟩
        exact ih hnodup

/-- **Declaring all names** succeeds exactly if nothing is declared twice. -/
theorem declareAll_eq_ok_iff {xs : List Section} (htypes : declared.types.Nodup)
    (hactions : declared.actions.Nodup) : declareAll xs declared = .ok declared' ↔
      declared' = ⟨(typeNamesOf xs).reverse ++ declared.types,
        (actionUidsOf xs).reverse ++ declared.actions⟩ ∧
      declared'.types.Nodup ∧ declared'.actions.Nodup := by
  induction xs generalizing declared with
  | nil =>
      rw [declareAll, Except.ok.injEq]
      constructor
      · rintro rfl
        exact ⟨rfl, htypes, hactions⟩
      · rintro ⟨rfl, -, -⟩
        rfl
  | cons x xs ih =>
      have hsplit : typeNamesOf (x :: xs) =
          (x.entityTypes.map fun d => Name.qualify x.name d.1) ++ typeNamesOf xs := rfl
      have hsplit' : actionUidsOf (x :: xs) =
          (x.actions.map fun d => actionUid x.name d.1) ++ actionUidsOf xs := rfl
      rw [declareAll, bind_eq_ok, hsplit, hsplit']
      simp only [List.reverse_append, List.append_assoc]
      constructor
      · rintro ⟨declared₁, h₁, h⟩
        obtain ⟨declared₂, h₂, h⟩ := bind_eq_ok.mp h
        obtain ⟨rfl, hnodup₁⟩ := (declareTypes_eq_ok_iff htypes).mp h₁
        obtain ⟨rfl, hnodup₂⟩ := (declareActions_eq_ok_iff (by exact hactions)).mp h₂
        exact (ih (by exact hnodup₁) (by exact hnodup₂)).mp h
      · rintro ⟨rfl, hnodup, hnodup'⟩
        have hnodup₁ := (List.nodup_append.mp hnodup).2.1
        have hnodup₂ := (List.nodup_append.mp hnodup').2.1
        refine ⟨_, (declareTypes_eq_ok_iff htypes).mpr ⟨rfl, hnodup₁⟩, bind_eq_ok.mpr ⟨_,
          (declareActions_eq_ok_iff (by exact hactions)).mpr ⟨rfl, hnodup₂⟩, ?_⟩⟩
        exact (ih (by exact hnodup₁) (by exact hnodup₂)).mpr ⟨rfl, hnodup, hnodup'⟩

/-! ### Putting all declarations -/

/-- What the declarations of entity types in a section are resolved to. -/
def ResolvesTypes (declared : Declared) (x : Section) (es : List (String × EntityDecl)) : Prop :=
  List.Forall₂ (fun d e => e.1 = Name.qualify x.name d.1 ∧
    declared.entityDecl x.name e.1 d.2 = .ok e.2) x.entityTypes es

/-- What the declarations of actions in a section are resolved to. -/
def ResolvesActions (declared : Declared) (x : Section) (es : List (Uid × ActionDecl)) : Prop :=
  List.Forall₂ (fun d e => e.1 = actionUid x.name d.1 ∧
    declared.actionDecl x.name e.1 d.2 = .ok e.2) x.actions es

/-- Adding the entity types of a section succeeds exactly if each declaration is resolved, and puts
what they are resolved to. -/
theorem addTypes_eq_ok_iff {ds : List (String × EntityDecl)} :
    addTypes declared space ds s = .ok s' ↔ ∃ es : List (String × EntityDecl),
      List.Forall₂ (fun d e => e.1 = Name.qualify space d.1 ∧
        declared.entityDecl space e.1 d.2 = .ok e.2) ds es ∧
      s' = { s with entityTypes := Ascending.putAll es s.entityTypes } := by
  induction ds generalizing s with
  | nil =>
      simp only [addTypes, Except.ok.injEq, List.forall₂_nil_left_iff, exists_eq_left]
      exact eq_comm
  | cons d ds ih =>
      obtain ⟨name, d⟩ := d
      simp only [addTypes, bind_eq_ok, ih, List.forall₂_cons_left_iff]
      constructor
      · rintro ⟨d', hd, es, hes, rfl⟩
        exact ⟨_, ⟨(Name.qualify space name, d'), es, ⟨rfl, hd⟩, hes, rfl⟩, rfl⟩
      · rintro ⟨_, ⟨e, es, ⟨hname, hd⟩, hes, rfl⟩, rfl⟩
        obtain ⟨name', d'⟩ := e
        subst hname
        exact ⟨d', hd, es, hes, rfl⟩

/-- Adding the actions of a section succeeds exactly if each declaration is resolved, and puts what
they are resolved to. -/
theorem addActions_eq_ok_iff {ds : List (String × ActionDecl)} :
    addActions declared space ds s = .ok s' ↔ ∃ es : List (Uid × ActionDecl),
      List.Forall₂ (fun d e => e.1 = actionUid space d.1 ∧
        declared.actionDecl space e.1 d.2 = .ok e.2) ds es ∧
      s' = { s with actions := Ascending.putAll es s.actions } := by
  induction ds generalizing s with
  | nil =>
      simp only [addActions, Except.ok.injEq, List.forall₂_nil_left_iff, exists_eq_left]
      exact eq_comm
  | cons d ds ih =>
      obtain ⟨name, d⟩ := d
      simp only [addActions, bind_eq_ok, ih, List.forall₂_cons_left_iff]
      constructor
      · rintro ⟨d', hd, es, hes, rfl⟩
        exact ⟨_, ⟨(actionUid space name, d'), es, ⟨rfl, hd⟩, hes, rfl⟩, rfl⟩
      · rintro ⟨_, ⟨e, es, ⟨hname, hd⟩, hes, rfl⟩, rfl⟩
        obtain ⟨u, d'⟩ := e
        subst hname
        exact ⟨d', hd, es, hes, rfl⟩

/-- **Adding sections** is to put all that their declarations are resolved to. -/
theorem addSections_eq_ok_iff {xs : List Section} : addSections declared xs s = .ok s' ↔
    ∃ (ts : List (List (String × EntityDecl))) (as : List (List (Uid × ActionDecl))),
      List.Forall₂ (ResolvesTypes declared) xs ts ∧
      List.Forall₂ (ResolvesActions declared) xs as ∧
      s' = ⟨Ascending.putAll ts.flatten s.entityTypes,
        Ascending.putAll as.flatten s.actions⟩ := by
  induction xs generalizing s with
  | nil =>
      simp only [addSections, Except.ok.injEq, List.forall₂_nil_left_iff]
      constructor
      · rintro rfl
        exact ⟨[], [], rfl, rfl, rfl⟩
      · rintro ⟨_, _, rfl, rfl, rfl⟩
        rfl
  | cons x xs ih =>
      simp only [addSections, bind_eq_ok, addTypes_eq_ok_iff, addActions_eq_ok_iff, ih,
        List.forall₂_cons_left_iff]
      constructor
      · rintro ⟨_, ⟨t, ht, rfl⟩, _, ⟨a, ha, rfl⟩, ts, as, hts, has, rfl⟩
        refine ⟨_, _, ⟨t, ts, ht, hts, rfl⟩, ⟨a, as, ha, has, rfl⟩, ?_⟩
        rw [List.flatten_cons, List.flatten_cons, Ascending.putAll_append, Ascending.putAll_append]
      · rintro ⟨_, _, ⟨t, ts, ht, hts, rfl⟩, ⟨a, as, ha, has, rfl⟩, rfl⟩
        refine ⟨_, ⟨t, ht, rfl⟩, _, ⟨a, ha, rfl⟩, ts, as, hts, has, ?_⟩
        rw [List.flatten_cons, List.flatten_cons, Ascending.putAll_append, Ascending.putAll_append]

/-! ### Built schemas -/

/-- What sections declare. -/
def declaredBy (xs : List Section) : Declared :=
  ⟨(typeNamesOf xs).reverse, (actionUidsOf xs).reverse⟩

/-- What a schema declares. -/
def declaredIn (s : Schema) : Declared :=
  ⟨Ascending.keys s.entityTypes, Ascending.keys s.actions⟩

/-- **A schema is built** exactly if nothing is declared twice and every declaration is resolved. -/
theorem ofSections_eq_ok_iff {xs : List Section} : ofSections xs = .ok s ↔
    (typeNamesOf xs).Nodup ∧ (actionUidsOf xs).Nodup ∧
    ∃ (ts : List (List (String × EntityDecl))) (as : List (List (Uid × ActionDecl))),
      List.Forall₂ (ResolvesTypes (declaredBy xs)) xs ts ∧
      List.Forall₂ (ResolvesActions (declaredBy xs)) xs as ∧
      s = ⟨Ascending.ofPairs ts.flatten, Ascending.ofPairs as.flatten⟩ := by
  rw [ofSections, bind_eq_ok]
  constructor
  · rintro ⟨declared, hdeclared, h⟩
    obtain ⟨hall, htypes, hactions⟩ :=
      (declareAll_eq_ok_iff List.nodup_nil List.nodup_nil).mp hdeclared
    simp only [List.append_nil] at hall
    subst hall
    exact ⟨List.nodup_reverse.mp htypes, List.nodup_reverse.mp hactions,
      addSections_eq_ok_iff.mp h⟩
  · rintro ⟨htypes, hactions, h⟩
    refine ⟨declaredBy xs, (declareAll_eq_ok_iff List.nodup_nil List.nodup_nil).mpr ⟨?_, ?_, ?_⟩,
      addSections_eq_ok_iff.mpr h⟩
    · simp only [declaredBy, List.append_nil]
    · exact List.nodup_reverse.mpr htypes
    · exact List.nodup_reverse.mpr hactions

/-- What the declarations of sections are resolved to has the qualified names of the
declarations. -/
theorem keys_of_resolvesTypes {xs : List Section} {ts : List (List (String × EntityDecl))}
    (h : List.Forall₂ (ResolvesTypes declared) xs ts) :
    Ascending.keys ts.flatten = typeNamesOf xs := by
  have hsection : ∀ {x : Section} {es : List (String × EntityDecl)},
      ResolvesTypes declared x es →
        Ascending.keys es = x.entityTypes.map fun d => Name.qualify x.name d.1 := by
    intro x es hes
    rw [Ascending.keys, eq_comm, ← List.forall₂_eq_eq_eq]
    rw [List.forall₂_map_left_iff, List.forall₂_map_right_iff]
    exact hes.imp fun d e he => he.1.symm
  induction h with
  | nil => rfl
  | cons hes _ ih =>
      rw [List.flatten_cons, Ascending.keys, List.map_append]
      exact congrArg₂ _ (hsection hes) ih

/-- What the declarations of sections are resolved to has the uids of the actions. -/
theorem keys_of_resolvesActions {xs : List Section} {as : List (List (Uid × ActionDecl))}
    (h : List.Forall₂ (ResolvesActions declared) xs as) :
    Ascending.keys as.flatten = actionUidsOf xs := by
  have hsection : ∀ {x : Section} {es : List (Uid × ActionDecl)},
      ResolvesActions declared x es →
        Ascending.keys es = x.actions.map fun d => actionUid x.name d.1 := by
    intro x es hes
    rw [Ascending.keys, eq_comm, ← List.forall₂_eq_eq_eq]
    rw [List.forall₂_map_left_iff, List.forall₂_map_right_iff]
    exact hes.imp fun d e he => he.1.symm
  induction h with
  | nil => rfl
  | cons hes _ ih =>
      rw [List.flatten_cons, Ascending.keys, List.map_append]
      exact congrArg₂ _ (hsection hes) ih

/-- The same names are declared. -/
structure Declared.Same (declared declared' : Declared) : Prop where
  /-- The entity types are the same. -/
  types : ∀ t, t ∈ declared.types ↔ t ∈ declared'.types
  /-- The actions are the same. -/
  actions : ∀ u, u ∈ declared.actions ↔ u ∈ declared'.actions

/-- A declaration of a built schema comes of one in a section. -/
structure Origins (xs : List Section) (s : Schema) : Prop where
  /-- The schema declares what the sections do. -/
  same : (declaredBy xs).Same s.declaredIn
  /-- Declarations of entity types are resolved in their namespace. -/
  types : ∀ e ∈ s.entityTypes, ∃ x ∈ xs, ∃ d ∈ x.entityTypes, e.1 = Name.qualify x.name d.1 ∧
    (declaredBy xs).entityDecl x.name e.1 d.2 = .ok e.2
  /-- Declarations of actions are resolved in their namespace. -/
  actions : ∀ e ∈ s.actions, ∃ x ∈ xs, ∃ d ∈ x.actions, e.1 = actionUid x.name d.1 ∧
    (declaredBy xs).actionDecl x.name e.1 d.2 = .ok e.2

/-- **What a built schema is made of.** -/
theorem origins_of_ofSections {xs : List Section} (h : ofSections xs = .ok s) : Origins xs s := by
  obtain ⟨-, -, ts, as, hts, has, rfl⟩ := ofSections_eq_ok_iff.mp h
  refine ⟨⟨fun t => ?_, fun u => ?_⟩, fun e he => ?_, fun e he => ?_⟩
  · rw [declaredIn, Ascending.mem_keys_ofPairs, keys_of_resolvesTypes hts, declaredBy,
      List.mem_reverse]
  · rw [declaredIn, Ascending.mem_keys_ofPairs, keys_of_resolvesActions has, declaredBy,
      List.mem_reverse]
  · obtain ⟨es, hes, he⟩ := List.mem_flatten.mp (Ascending.mem_of_mem_ofPairs he)
    obtain ⟨x, hx, hresolves⟩ := exists_of_mem_forall₂ hts hes
    obtain ⟨d, hd, hde⟩ := exists_of_mem_forall₂ hresolves he
    exact ⟨x, hx, d, hd, hde⟩
  · obtain ⟨es, hes, he⟩ := List.mem_flatten.mp (Ascending.mem_of_mem_ofPairs he)
    obtain ⟨x, hx, hresolves⟩ := exists_of_mem_forall₂ has hes
    obtain ⟨d, hd, hde⟩ := exists_of_mem_forall₂ hresolves he
    exact ⟨x, hx, d, hd, hde⟩

/-- **A schema that was built is well-formed.** -/
theorem wellFormed_of_ofSections (h : ofSections sections = .ok s) : s.WellFormed := by
  have horigins := origins_of_ofSections h
  obtain ⟨-, -, ts, as, -, -, rfl⟩ := ofSections_eq_ok_iff.mp h
  refine ⟨Ascending.sorted_ofPairs _, Ascending.sorted_ofPairs _, fun {type parent} hparent => ?_,
    fun {action group} hgroup => ?_⟩
  · unfold parentTypes at hparent
    split at hparent
    · cases hparent
    · rename_i d hd
      obtain ⟨x, -, e, -, -, he⟩ := horigins.types _ (Ascending.mem_of_get? hd)
      have hmem := Declared.memberOf_entityDecl he parent hparent
      obtain ⟨m, hm, rfl⟩ := List.mem_map.mp ((horigins.same.types parent).mp hmem)
      exact Ascending.hasKey_of_mem hm
  · unfold groupsOf at hgroup
    split at hgroup
    · cases hgroup
    · rename_i d hd
      obtain ⟨x, -, e, -, -, he⟩ := horigins.actions _ (Ascending.mem_of_get? hd)
      have hmem := Declared.memberOf_actionDecl he group hgroup
      obtain ⟨m, hm, rfl⟩ := List.mem_map.mp ((horigins.same.actions group).mp hmem)
      exact Ascending.hasKey_of_mem hm

end Schema

end AccessPolicy
