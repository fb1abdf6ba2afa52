import AccessPolicy.Proofs.Schema.Names

/-!
# The sections of a schema

A schema can be cut into sections again, one for each namespace with a declaration, in which every
name is written relative to its namespace.

* **Resolving relative names gives the declarations back** (`Declared.entityDecl_relative`,
  `Declared.actionDecl_relative`), as far as they came of resolving names in the same namespace.
* `Schema.sections s` — the sections of a schema.
* **A schema is built of its sections** (`Schema.ofSections_sections`), if it was built of sections
  at all.
-/

namespace AccessPolicy

/-! ### Relative forms -/

namespace SchemaType

mutual

/-- A type as it is written inside a namespace. -/
def relative (space : String) : SchemaType → SchemaType
  | bool => bool
  | long => long
  | string => string
  | entity name => entity (Schema.relativeName space name)
  | set element => set (relative space element)
  | record fields => record (relativeFields space fields)

/-- Fields as they are written inside a namespace. -/
def relativeFields (space : String) :
    List (String × Bool × SchemaType) → List (String × Bool × SchemaType)
  | [] => []
  | (k, r, t) :: fs => (k, r, relative space t) :: relativeFields space fs

end

end SchemaType

/-- The ascending list of names as they are written inside a namespace. -/
def Schema.relativeNames (space : String) (names : List String) : List String :=
  Ascending.ofList (names.map (relativeName space))

/-- A group as it is written inside a namespace. -/
def Schema.relativeGroup (space : String) (g : Uid) : Uid :=
  ⟨relativeName space g.type, g.id⟩

/-- The declaration of an entity type as it is written inside a namespace. -/
def EntityDecl.relative (space : String) (d : EntityDecl) : EntityDecl :=
  ⟨Schema.relativeNames space d.memberOf, SchemaType.relativeFields space d.attributes⟩

/-- The declaration of an action as it is written inside a namespace. -/
def ActionDecl.relative (space : String) (d : ActionDecl) : ActionDecl :=
  ⟨Ascending.ofList (d.memberOf.map (Schema.relativeGroup space)),
    Schema.relativeNames space d.principalTypes, Schema.relativeNames space d.resourceTypes,
    SchemaType.relativeFields space d.context⟩

namespace Schema

/-- The sections of a schema: its namespaces, with the names in them as they are written there. -/
def sections (s : Schema) : List Section :=
  s.spaces.map fun space =>
    ⟨space, (s.typesIn space).map fun t => (t.1, t.2.relative space),
      (s.actionsIn space).map fun a => (a.1, a.2.relative space)⟩

/-! ### Resolving relative names

A relative name leaves the namespace out where that is the one at hand. It is resolved there to what
it was made of, because this had been found from the same namespace before: a global name that a
local one hides is never found. -/

/-- What is done for each element of a sorted list by its own name gives that list. -/
theorem mapM_ofList {ε α β : Type} [Ord α] [Std.TransOrd α] [Std.LawfulEqOrd α] [Ord β]
    [Std.LawfulEqOrd β] {f : β → Except ε α} {g : α → β} {ts : List α} (hts : Ascending.Sorted ts)
    (h : ∀ t ∈ ts, f (g t) = .ok t) :
    ((Ascending.ofList (ts.map g)).mapM f).map Ascending.ofList = .ok ts := by
  have hresult : ∀ n ∈ Ascending.ofList (ts.map g), ∃ t, t ∈ ts ∧ n = g t ∧ f n = .ok t := by
    intro n hn
    obtain ⟨t, ht, rfl⟩ := List.mem_map.mp (Ascending.mem_ofList.mp hn)
    exact ⟨t, ht, rfl, h t ht⟩
  obtain ⟨us, hus⟩ := exists_forall₂_iff.mpr fun n hn => (hresult n hn).imp fun t ht => ht.2.2
  refine map_eq_ok.mpr ⟨us, mapM_eq_ok.mpr hus, hts.ofList_eq fun u => ⟨fun hu => ?_, fun hu => ?_⟩⟩
  · obtain ⟨n, hn, hnu⟩ := exists_of_mem_forall₂ hus hu
    obtain ⟨t, ht, -, hnt⟩ := hresult n hn
    rw [hnu] at hnt
    exact Except.ok.inj hnt ▸ ht
  · have hn : g u ∈ Ascending.ofList (ts.map g) :=
      Ascending.mem_ofList.mpr (List.mem_map_of_mem hu)
    obtain ⟨v, hv, hnv⟩ := exists_of_mem_forall₂ hus.flip hn
    rw [h u hu] at hnv
    exact Except.ok.inj hnv ▸ hv

namespace Declared

variable {declared declared' : Declared} {space path : String}

/-- Names of entity types are resolved alike where the same is declared, in whatever order. -/
theorem Same.typeName (h : declared.Same declared') (space path name : String) :
    declared.typeName space path name = declared'.typeName space path name := by
  have hcontains : ∀ t, declared.types.contains t = declared'.types.contains t := by
    intro t
    rw [Bool.eq_iff_iff, List.contains_iff_mem, List.contains_iff_mem]
    exact h.types t
  simp only [Declared.typeName, hcontains]

/-- The relative form of a resolved name is resolved to the name. -/
theorem typeName_relative (hsame : declared.Same declared') (hdeclared : declared.Qualified)
    {name t : String} (h : declared.typeName space path name = .ok t)
    (path' : String) : declared'.typeName space path' (relativeName space t) = .ok t := by
  rw [← hsame.typeName]
  exact typeName_relativeName hdeclared h

/-- The relative forms of resolved names are resolved to the names. -/
theorem typeNames_relative (hsame : declared.Same declared') (hdeclared : declared.Qualified)
    {names ts : List String}
    (h : declared.typeNames space path names = .ok ts) (path' : String) :
    declared'.typeNames space path' (relativeNames space ts) = .ok ts := by
  obtain ⟨us, hus, rfl⟩ := map_eq_ok.mp h
  refine mapM_ofList (Ascending.sorted_ofList us) fun t ht => ?_
  obtain ⟨name, -, hname⟩ := exists_of_mem_mapM hus (Ascending.mem_ofList.mp ht)
  exact typeName_relative hsame hdeclared hname path'

/-- The relative form of a resolved group is resolved to the group. -/
theorem group_relative (hsame : declared.Same declared') (hdeclared : declared.Qualified)
    {u g g' : Uid} (h : declared.group space u g = .ok g') (u' : Uid) :
    declared'.group space u' (relativeGroup space g') = .ok g' := by
  have hback : declared.group space u' (relativeGroup space g') = .ok g' :=
    group_relativeName hdeclared h
  rw [group_eq_ok_iff] at hback ⊢
  exact ⟨hback.1, (hsame.actions g').mp hback.2⟩

mutual

/-- A resolved type is resolved again from its relative form. -/
theorem schemaType_relative (hsame : declared.Same declared')
    (hdeclared : declared.Qualified) : (t : SchemaType) → {path : String} → {t' : SchemaType} →
    declared.schemaType space t path = .ok t' → (path' : String) →
    declared'.schemaType space (t'.relative space) path' = .ok t'
  | .bool, _, _, h, _ | .long, _, _, h, _ | .string, _, _, h, _ => by
      cases h
      rfl
  | .entity name, _, _, h, path' => by
      obtain ⟨n, hn, rfl⟩ := map_eq_ok.mp h
      have hback := typeName_relative hsame hdeclared hn path'
      exact map_eq_ok.mpr ⟨n, hback, rfl⟩
  | .set element, _, _, h, path' => by
      obtain ⟨e, he, rfl⟩ := map_eq_ok.mp h
      have hback := schemaType_relative hsame hdeclared element he path'
      exact map_eq_ok.mpr ⟨e, hback, rfl⟩
  | .record fields, _, _, h, path' => by
      obtain ⟨fs, hfs, rfl⟩ := map_eq_ok.mp h
      have hback := attributes_relative hsame hdeclared fields hfs path'
      exact map_eq_ok.mpr ⟨fs, hback, rfl⟩

/-- Resolved fields are resolved again from their relative forms. -/
theorem attributes_relative (hsame : declared.Same declared')
    (hdeclared : declared.Qualified) : (fs : List (String × Bool × SchemaType)) → {path : String} →
    {fs' : List (String × Bool × SchemaType)} →
    declared.attributes space fs path = .ok fs' → (path' : String) →
    declared'.attributes space (SchemaType.relativeFields space fs') path' = .ok fs'
  | [], _, _, h, _ => by
      cases h
      rfl
  | (k, r, t) :: fs, path, _, h, path' => by
      rw [Declared.attributes] at h
      split at h
      · cases h
      · rename_i t' ht
        obtain ⟨fs', hfs, rfl⟩ := map_eq_ok.mp h
        have htype := schemaType_relative hsame hdeclared t ht (path' ++ "." ++ k)
        have hfields := attributes_relative hsame hdeclared fs hfs path'
        rw [SchemaType.relativeFields, Declared.attributes, htype]
        exact map_eq_ok.mpr ⟨fs', hfields, rfl⟩

end

/-- **A resolved declaration of an entity type** is resolved again from its relative form. -/
theorem entityDecl_relative (hsame : declared.Same declared') (hdeclared : declared.Qualified)
    {name : String} {d d' : EntityDecl}
    (h : declared.entityDecl space name d = .ok d') (name' : String) :
    declared'.entityDecl space name' (d'.relative space) = .ok d' := by
  obtain ⟨memberOf, hmemberOf, h⟩ := bind_eq_ok.mp h
  obtain ⟨attributes, hattributes, h⟩ := bind_eq_ok.mp h
  cases h
  have hnames := typeNames_relative hsame hdeclared hmemberOf (name' ++ ".memberOfTypes")
  have hfields := attributes_relative hsame hdeclared _ hattributes (name' ++ ".shape")
  exact bind_eq_ok.mpr ⟨_, hnames, bind_eq_ok.mpr ⟨_, hfields, rfl⟩⟩

/-- **A resolved declaration of an action** is resolved again from its relative form. -/
theorem actionDecl_relative (hsame : declared.Same declared') (hdeclared : declared.Qualified)
    {u : Uid} {d d' : ActionDecl}
    (h : declared.actionDecl space u d = .ok d') (u' : Uid) :
    declared'.actionDecl space u' (d'.relative space) = .ok d' := by
  obtain ⟨groups, hgroups, h⟩ := bind_eq_ok.mp h
  obtain ⟨principals, hprincipals, h⟩ := bind_eq_ok.mp h
  obtain ⟨resources, hresources, h⟩ := bind_eq_ok.mp h
  obtain ⟨context, hcontext, h⟩ := bind_eq_ok.mp h
  cases h
  have hback : ∀ g ∈ Ascending.ofList groups,
      declared'.group space u' (relativeGroup space g) = .ok g := by
    intro g hg
    obtain ⟨written, -, hwritten⟩ := exists_of_mem_mapM hgroups (Ascending.mem_ofList.mp hg)
    exact group_relative hsame hdeclared hwritten u'
  obtain ⟨gs, hgs, hgroups'⟩ := map_eq_ok.mp (mapM_ofList (Ascending.sorted_ofList groups) hback)
  refine bind_eq_ok.mpr ⟨gs, hgs, ?_⟩
  refine bind_eq_ok.mpr ⟨_, typeNames_relative hsame hdeclared hprincipals _, ?_⟩
  refine bind_eq_ok.mpr ⟨_, typeNames_relative hsame hdeclared hresources _, ?_⟩
  refine bind_eq_ok.mpr ⟨_, attributes_relative hsame hdeclared _ hcontext _, ?_⟩
  rw [hgroups']
  rfl

end Declared

/-! ### Cutting a schema into sections -/

variable {s : Schema}

/-- What is declared by sections whose entity types are identifiers has qualified names. -/
theorem qualified_declaredBy {xs : List Section}
    (h : ∀ x ∈ xs, ∀ d ∈ x.entityTypes, Name.isIdent d.1) : (declaredBy xs).Qualified := by
  constructor
  · intro t ht
    obtain ⟨x, hx, hmem⟩ := List.mem_flatMap.mp (List.mem_reverse.mp ht)
    obtain ⟨d, hd, rfl⟩ := List.mem_map.mp hmem
    exact ⟨x.name, d.1, h x hx d hd, rfl⟩
  · intro u hu
    obtain ⟨x, hx, hmem⟩ := List.mem_flatMap.mp (List.mem_reverse.mp hu)
    obtain ⟨d, hd, rfl⟩ := List.mem_map.mp hmem
    exact ⟨x.name, rfl⟩

section partition

variable {α κ : Type} [DecidableEq κ] {f : α → κ} {ks : List κ} {l : List α}

/-- A list that is cut by a key has the elements that it had. -/
theorem mem_flatMap_filter (h : ∀ a ∈ l, f a ∈ ks) {a : α} :
    a ∈ ks.flatMap (fun k => l.filter fun a => f a = k) ↔ a ∈ l := by
  simp only [List.mem_flatMap, List.mem_filter, decide_eq_true_eq]
  constructor
  · rintro ⟨k, -, ha, -⟩
    exact ha
  · intro ha
    exact ⟨f a, h a ha, ha, rfl⟩

/-- A list that is cut by a key repeats nothing if it did not before. -/
theorem nodup_flatMap_filter (hks : ks.Nodup) (hl : l.Nodup) :
    (ks.flatMap fun k => l.filter fun a => f a = k).Nodup := by
  refine List.nodup_flatMap.mpr ⟨fun k _ => hl.filter _, hks.imp ?_⟩
  intro k k' hne a ha ha'
  have hk := of_decide_eq_true (List.mem_filter.mp ha).2
  have hk' := of_decide_eq_true (List.mem_filter.mp ha').2
  exact hne (hk.symm.trans hk')

end partition

/-- A qualified name is put together again from its namespace and its identifier. -/
theorem qualify_splitName {t : String}
    (h : ∃ space name, Name.isIdent name ∧ t = Name.qualify space name) :
    Name.qualify (spaceOf t) (splitName t).2 = t := by
  obtain ⟨space, name, hname, rfl⟩ := h
  rw [spaceOf_qualify hname, splitName_qualify hname]

/-- The uid of an action is put together again from its namespace and its id. -/
theorem qualify_spaceOf_action {u : Uid} (h : ∃ space, u.type = Name.qualify space "Action") :
    actionUid (spaceOf u.type) u.id = u := by
  obtain ⟨space, hspace⟩ := h
  rw [hspace, spaceOf_qualify isIdent_action, actionUid, ← hspace]

/-- No namespace of a schema is counted twice. -/
theorem nodup_spaces (s : Schema) : s.spaces.Nodup :=
  (Ascending.sorted_ofList _).nodup

/-- The namespace of an entity type is one of the schema. -/
theorem spaceOf_mem_spaces_of_type {t : String} (h : t ∈ Ascending.keys s.entityTypes) :
    spaceOf t ∈ s.spaces := by
  obtain ⟨e, he, rfl⟩ := List.mem_map.mp h
  exact Ascending.mem_ofList.mpr (List.mem_append_left _ (List.mem_map_of_mem he))

/-- The namespace of an action is one of the schema. -/
theorem spaceOf_mem_spaces_of_action {u : Uid} (h : u ∈ Ascending.keys s.actions) :
    spaceOf u.type ∈ s.spaces := by
  obtain ⟨e, he, rfl⟩ := List.mem_map.mp h
  exact Ascending.mem_ofList.mpr (List.mem_append_right _ (List.mem_map_of_mem he))

/-- An entity type of a namespace is declared there. -/
theorem mem_typesIn {space : String} {t : String × EntityDecl} :
    t ∈ s.typesIn space ↔ ∃ e ∈ s.entityTypes, spaceOf e.1 = space ∧ ((splitName e.1).2, e.2) = t := by
  simp only [typesIn, List.mem_map, List.mem_filter, decide_eq_true_eq, and_assoc]

/-- An action of a namespace is declared there. -/
theorem mem_actionsIn {space : String} {a : String × ActionDecl} :
    a ∈ s.actionsIn space ↔ ∃ e ∈ s.actions, spaceOf e.1.type = space ∧ (e.1.id, e.2) = a := by
  simp only [actionsIn, List.mem_map, List.mem_filter, decide_eq_true_eq, and_assoc]

/-- The entity types of a namespace, qualified again. -/
theorem qualify_typesIn (h : s.declaredIn.Qualified) (space : String) :
    (s.typesIn space).map (fun t => Name.qualify space t.1) =
      (Ascending.keys s.entityTypes).filter fun t => spaceOf t = space := by
  rw [Ascending.keys, List.filter_map, typesIn, List.map_map]
  refine List.map_congr_left fun e he => ?_
  obtain ⟨hmem, hspace⟩ := List.mem_filter.mp he
  have hname := qualify_splitName (h.types e.1 (List.mem_map_of_mem hmem))
  rwa [of_decide_eq_true hspace] at hname

/-- The actions of a namespace, qualified again. -/
theorem qualify_actionsIn (h : s.declaredIn.Qualified) (space : String) :
    (s.actionsIn space).map (fun a => actionUid space a.1) =
      (Ascending.keys s.actions).filter fun u => spaceOf u.type = space := by
  rw [Ascending.keys, List.filter_map, actionsIn, List.map_map]
  refine List.map_congr_left fun e he => ?_
  obtain ⟨hmem, hspace⟩ := List.mem_filter.mp he
  have hname := qualify_spaceOf_action (h.actions e.1 (List.mem_map_of_mem hmem))
  rwa [of_decide_eq_true hspace] at hname

/-- The sections of a schema have its entity types, namespace by namespace. -/
theorem typeNamesOf_sections (h : s.declaredIn.Qualified) : typeNamesOf s.sections =
    s.spaces.flatMap fun space =>
      (Ascending.keys s.entityTypes).filter fun t => spaceOf t = space := by
  rw [typeNamesOf, sections, List.flatMap_map]
  refine List.flatMap_congr fun space _ => ?_
  rw [List.map_map]
  exact qualify_typesIn h space

/-- The sections of a schema have its actions, namespace by namespace. -/
theorem actionUidsOf_sections (h : s.declaredIn.Qualified) : actionUidsOf s.sections =
    s.spaces.flatMap fun space =>
      (Ascending.keys s.actions).filter fun u => spaceOf u.type = space := by
  rw [actionUidsOf, sections, List.flatMap_map]
  refine List.flatMap_congr fun space _ => ?_
  rw [List.map_map]
  exact qualify_actionsIn h space

/-- The sections of a schema declare what it declares. -/
theorem same_declaredBy_sections (h : s.declaredIn.Qualified) :
    s.declaredIn.Same (declaredBy s.sections) := by
  constructor
  · intro t
    rw [declaredBy, List.mem_reverse, typeNamesOf_sections h]
    exact (mem_flatMap_filter fun t ht => spaceOf_mem_spaces_of_type ht).symm
  · intro u
    rw [declaredBy, List.mem_reverse, actionUidsOf_sections h]
    exact (mem_flatMap_filter fun u hu => spaceOf_mem_spaces_of_action hu).symm

section resolving

variable {xs : List Section} (hnames : ∀ x ∈ xs, ∀ d ∈ x.entityTypes, Name.isIdent d.1)
  (horigins : Origins xs s)

include hnames horigins

/-- What is declared in a schema that was built has qualified names. -/
theorem qualified_declaredIn : s.declaredIn.Qualified := by
  have hqualified := qualified_declaredBy hnames
  exact ⟨fun t ht => hqualified.types t ((horigins.same.types t).mpr ht),
    fun u hu => hqualified.actions u ((horigins.same.actions u).mpr hu)⟩

/-- The sections of a schema declare what those did of which it was built. -/
theorem same_declaredBy : (declaredBy xs).Same (declaredBy s.sections) := by
  have hsame := same_declaredBy_sections (qualified_declaredIn hnames horigins)
  exact ⟨fun t => (horigins.same.types t).trans (hsame.types t),
    fun u => (horigins.same.actions u).trans (hsame.actions u)⟩

/-- In each namespace, the relative forms of the entity types are resolved to them. -/
theorem resolvesTypes_sections :
    List.Forall₂ (ResolvesTypes (declaredBy s.sections)) s.sections
      (s.spaces.map fun space => s.entityTypes.filter fun e => spaceOf e.1 = space) := by
  rw [sections, List.forall₂_map_left_iff, List.forall₂_map_right_iff, List.forall₂_same]
  intro space _
  rw [ResolvesTypes, typesIn, List.map_map, List.forall₂_map_left_iff, List.forall₂_same]
  intro e he
  obtain ⟨hmem, hspace⟩ := List.mem_filter.mp he
  obtain rfl := of_decide_eq_true hspace
  obtain ⟨x, hx, d, hd, hname, hd'⟩ := horigins.types e hmem
  -- The name tells the namespace, so this is where the names in `e` were resolved.
  have hspace' : x.name = spaceOf e.1 := by rw [hname, spaceOf_qualify (hnames x hx d hd)]
  rw [hspace'] at hd'
  refine ⟨(qualify_splitName ⟨x.name, d.1, hnames x hx d hd, hname⟩).symm, ?_⟩
  exact Declared.entityDecl_relative (same_declaredBy hnames horigins)
    (qualified_declaredBy hnames) hd' _

/-- In each namespace, the relative forms of the actions are resolved to them. -/
theorem resolvesActions_sections :
    List.Forall₂ (ResolvesActions (declaredBy s.sections)) s.sections
      (s.spaces.map fun space => s.actions.filter fun e => spaceOf e.1.type = space) := by
  rw [sections, List.forall₂_map_left_iff, List.forall₂_map_right_iff, List.forall₂_same]
  intro space _
  rw [ResolvesActions, actionsIn, List.map_map, List.forall₂_map_left_iff, List.forall₂_same]
  intro e he
  obtain ⟨hmem, hspace⟩ := List.mem_filter.mp he
  obtain rfl := of_decide_eq_true hspace
  obtain ⟨x, hx, d, hd, hname, hd'⟩ := horigins.actions e hmem
  have htype : e.1.type = Name.qualify x.name "Action" := congrArg Uid.type hname
  have hspace' : x.name = spaceOf e.1.type := by rw [htype, spaceOf_qualify isIdent_action]
  rw [hspace'] at hd'
  refine ⟨(qualify_spaceOf_action ⟨x.name, htype⟩).symm, ?_⟩
  exact Declared.actionDecl_relative (same_declaredBy hnames horigins)
    (qualified_declaredBy hnames) hd' _

end resolving

/-- **A schema is built of its sections**, if it was built of sections whose entity types are
identifiers. -/
theorem ofSections_sections {xs : List Section}
    (hnames : ∀ x ∈ xs, ∀ d ∈ x.entityTypes, Name.isIdent d.1) (h : ofSections xs = .ok s) :
    ofSections s.sections = .ok s := by
  have hwf := wellFormed_of_ofSections h
  have horigins := origins_of_ofSections h
  have hqualified := qualified_declaredIn hnames horigins
  have htypes : (typeNamesOf s.sections).Nodup := by
    rw [typeNamesOf_sections hqualified]
    exact nodup_flatMap_filter s.nodup_spaces hwf.entityTypes.nodup
  have hactions : (actionUidsOf s.sections).Nodup := by
    rw [actionUidsOf_sections hqualified]
    exact nodup_flatMap_filter s.nodup_spaces hwf.actions.nodup
  refine ofSections_eq_ok_iff.mpr ⟨htypes, hactions, _, _,
    resolvesTypes_sections hnames horigins, resolvesActions_sections hnames horigins, ?_⟩
  have hrebuilt := hwf.entityTypes.ofPairs_eq fun e => mem_flatMap_filter fun a ha =>
    spaceOf_mem_spaces_of_type (List.mem_map_of_mem ha)
  have hrebuilt' := hwf.actions.ofPairs_eq fun e => mem_flatMap_filter fun a ha =>
    spaceOf_mem_spaces_of_action (List.mem_map_of_mem ha)
  rw [← List.flatMap_def, ← List.flatMap_def, hrebuilt, hrebuilt']

end Schema

end AccessPolicy
