import AccessPolicy.Proofs.Schema.Parsed

/-!
# Resolving the names in declarations

* `EntityDecl.typeNames d` and `ActionDecl.typeNames d` — the entity types that a declaration names,
  as parents, in what it applies to, and anywhere inside the types of attributes;
  `EntityDecl.rename` and `ActionDecl.rename` put other names in their place.
* `Schema.Declared.FindsType declared space name` — a name that is written in a namespace is found,
  and `Schema.Declared.fullType declared space name` is what it stands for then: the type of the
  namespace before a global one. `FindsGroup` and `fullGroup` are the same for groups.
* **A declaration is resolved** exactly if all that it names is found, and what it is resolved to
  has the names that these stand for (`Schema.Declared.entityDecl_eq_ok_iff`,
  `Schema.Declared.actionDecl_eq_ok_iff`).
-/

namespace AccessPolicy

/-! ### Names in declarations -/

namespace SchemaType

mutual

/-- A type with other names of entity types. -/
def rename (f : String → String) : SchemaType → SchemaType
  | bool => bool
  | long => long
  | string => string
  | entity name => entity (f name)
  | set element => set (rename f element)
  | record fields => record (renameFields f fields)

/-- Fields with other names of entity types in their types. -/
def renameFields (f : String → String) :
    List (String × Bool × SchemaType) → List (String × Bool × SchemaType)
  | [] => []
  | (k, r, t) :: fs => (k, r, rename f t) :: renameFields f fs

end

end SchemaType

namespace EntityDecl

/-- The entity types that the declaration of an entity type names. -/
def typeNames (d : EntityDecl) : List String :=
  d.memberOf ++ SchemaType.namesOfFields d.attributes

/-- The declaration of an entity type with other names in it. -/
def rename (f : String → String) (d : EntityDecl) : EntityDecl :=
  ⟨Ascending.ofList (d.memberOf.map f), SchemaType.renameFields f d.attributes⟩

end EntityDecl

namespace ActionDecl

/-- The entity types that the declaration of an action names. -/
def typeNames (d : ActionDecl) : List String :=
  d.principalTypes ++ (d.resourceTypes ++ SchemaType.namesOfFields d.context)

/-- The declaration of an action with other names of types and of groups in it. -/
def rename (f : String → String) (g : Uid → Uid) (d : ActionDecl) : ActionDecl :=
  ⟨Ascending.ofList (d.memberOf.map g), Ascending.ofList (d.principalTypes.map f),
    Ascending.ofList (d.resourceTypes.map f), SchemaType.renameFields f d.context⟩

end ActionDecl

namespace Schema

/-- What a group that is written in a namespace stands for: one of the plain type of actions is that
of the namespace. -/
def fullGroup (space : String) (g : Uid) : Uid :=
  if g.type = "Action" then actionUid space g.id else g

namespace Declared

variable {declared declared' : Declared} {space path : String}

/-! ### What names stand for -/

/-- A name without a separator means a type of its namespace, if there is one. -/
def IsOwn (declared : Declared) (space name : String) : Prop :=
  hasSeparator name.toList = false ∧ Name.qualify space name ∈ declared.types

instance (declared : Declared) (space name : String) : Decidable (declared.IsOwn space name) :=
  inferInstanceAs (Decidable (_ ∧ _))

/-- A name of an entity type is found in its namespace or as it is written. -/
def FindsType (declared : Declared) (space name : String) : Prop :=
  declared.IsOwn space name ∨ name ∈ declared.types

/-- The entity type that a name stands for. -/
def fullType (declared : Declared) (space name : String) : String :=
  if declared.IsOwn space name then Name.qualify space name else name

/-- A group is found. -/
def FindsGroup (declared : Declared) (space : String) (g : Uid) : Prop :=
  fullGroup space g ∈ declared.actions

/-- A name of an entity type is resolved exactly if it is found, to what it stands for. -/
theorem typeName_eq_ok_iff {name t : String} : declared.typeName space path name = .ok t ↔
    declared.FindsType space name ∧ declared.fullType space name = t := by
  have hown : (!hasSeparator name.toList && declared.types.contains (Name.qualify space name)) ↔
      declared.IsOwn space name := by
    rw [Bool.and_eq_true, Bool.not_eq_true', List.contains_iff_mem]
    exact Iff.rfl
  simp only [typeName, FindsType, fullType, hown]
  by_cases hlocal : declared.IsOwn space name
  · rw [if_pos hlocal, if_pos hlocal, Except.ok.injEq, and_iff_right (.inl hlocal)]
  · rw [if_neg hlocal, if_neg hlocal, or_iff_right hlocal, ← List.contains_iff_mem]
    by_cases hglobal : declared.types.contains name
    · rw [if_pos hglobal, Except.ok.injEq, and_iff_right hglobal]
    · rw [if_neg hglobal]
      constructor
      · intro h
        cases h
      · intro h
        exact absurd h.1 hglobal

/-- A list of names is resolved to the ascending list of what they stand for. -/
theorem typeNames_eq_ok_iff {names ts : List String} :
    declared.typeNames space path names = .ok ts ↔
      (∀ n ∈ names, declared.FindsType space n) ∧
        Ascending.ofList (names.map (declared.fullType space)) = ts := by
  have heach : ∀ n t, declared.typeName space path n = .ok t ↔
      declared.FindsType space n ∧ declared.fullType space n = t := fun n t => typeName_eq_ok_iff
  simp only [typeNames, map_eq_ok, mapM_eq_ok_iff_map_eq heach]
  constructor
  · rintro ⟨_, ⟨hfound, rfl⟩, hts⟩
    exact ⟨hfound, hts⟩
  · rintro ⟨hfound, hts⟩
    exact ⟨_, ⟨hfound, rfl⟩, hts⟩

/-- Groups are resolved one by one, and their order is left to the declaration. -/
theorem groups_eq_ok_iff {u : Uid} {groups gs : List Uid} :
    groups.mapM (declared.group space u) = .ok gs ↔
      (∀ g ∈ groups, declared.FindsGroup space g) ∧ groups.map (fullGroup space) = gs := by
  refine mapM_eq_ok_iff_map_eq fun g g' => ?_
  rw [group_eq_ok_iff]
  constructor
  · rintro ⟨rfl, hmem⟩
    exact ⟨hmem, rfl⟩
  · rintro ⟨hmem, rfl⟩
    exact ⟨rfl, hmem⟩

mutual

/-- A type is resolved exactly if the names in it are found, however deep they stand. -/
theorem schemaType_eq_ok_iff : (t : SchemaType) → (path : String) → (t' : SchemaType) →
    (declared.schemaType space t path = .ok t' ↔
      (∀ n ∈ t.names, declared.FindsType space n) ∧ t.rename (declared.fullType space) = t')
  | .bool, _, t' | .long, _, t' | .string, _, t' => by
      rw [SchemaType.names, and_iff_right (List.forall_mem_nil _), Declared.schemaType,
        Except.ok.injEq, SchemaType.rename]
  | .entity name, path, t' => by
      simp only [Declared.schemaType, map_eq_ok, typeName_eq_ok_iff, SchemaType.names,
        List.forall_mem_singleton, SchemaType.rename]
      constructor
      · rintro ⟨_, ⟨hfound, rfl⟩, rfl⟩
        exact ⟨hfound, rfl⟩
      · rintro ⟨hfound, rfl⟩
        exact ⟨_, ⟨hfound, rfl⟩, rfl⟩
  | .set element, path, t' => by
      simp only [Declared.schemaType, map_eq_ok, schemaType_eq_ok_iff element path,
        SchemaType.names, SchemaType.rename]
      constructor
      · rintro ⟨_, ⟨hfound, rfl⟩, rfl⟩
        exact ⟨hfound, rfl⟩
      · rintro ⟨hfound, rfl⟩
        exact ⟨_, ⟨hfound, rfl⟩, rfl⟩
  | .record fields, path, t' => by
      simp only [Declared.schemaType, map_eq_ok, attributes_eq_ok_iff fields path,
        SchemaType.names, SchemaType.rename]
      constructor
      · rintro ⟨_, ⟨hfound, rfl⟩, rfl⟩
        exact ⟨hfound, rfl⟩
      · rintro ⟨hfound, rfl⟩
        exact ⟨_, ⟨hfound, rfl⟩, rfl⟩

/-- Attributes are resolved exactly if all names inside of their types are found, by recursion on
types. -/
theorem attributes_eq_ok_iff : (fs : List (String × Bool × SchemaType)) → (path : String) →
    (fs' : List (String × Bool × SchemaType)) →
    (declared.attributes space fs path = .ok fs' ↔
      (∀ n ∈ SchemaType.namesOfFields fs, declared.FindsType space n) ∧
        SchemaType.renameFields (declared.fullType space) fs = fs')
  | [], _, fs' => by
      rw [SchemaType.namesOfFields, and_iff_right (List.forall_mem_nil _), Declared.attributes,
        Except.ok.injEq, SchemaType.renameFields]
  | (k, r, t) :: fs, path, fs' => by
      have hcons : declared.attributes space ((k, r, t) :: fs) path = .ok fs' ↔
          ∃ t', declared.schemaType space t (path ++ "." ++ k) = .ok t' ∧
            ∃ gs, declared.attributes space fs path = .ok gs ∧ (k, r, t') :: gs = fs' := by
        rw [Declared.attributes]
        cases declared.schemaType space t (path ++ "." ++ k) <;> simp [map_eq_ok]
      simp only [hcons, schemaType_eq_ok_iff t, attributes_eq_ok_iff fs path,
        SchemaType.namesOfFields, List.forall_mem_append, SchemaType.renameFields]
      constructor
      · rintro ⟨_, ⟨htype, rfl⟩, _, ⟨hfields, rfl⟩, rfl⟩
        exact ⟨⟨htype, hfields⟩, rfl⟩
      · rintro ⟨⟨htype, hfields⟩, rfl⟩
        exact ⟨_, ⟨htype, rfl⟩, _, ⟨hfields, rfl⟩, rfl⟩

end

/-! ### Declarations -/

/-- **The declaration of an entity type is resolved** exactly if all that it names is found. -/
theorem entityDecl_eq_ok_iff {name : String} {d d' : EntityDecl} :
    declared.entityDecl space name d = .ok d' ↔
      (∀ n ∈ d.typeNames, declared.FindsType space n) ∧
        d.rename (declared.fullType space) = d' := by
  simp only [entityDecl, bind_eq_ok, typeNames_eq_ok_iff, attributes_eq_ok_iff, pure_eq_ok,
    EntityDecl.typeNames, List.forall_mem_append]
  constructor
  · rintro ⟨_, ⟨hmemberOf, rfl⟩, _, ⟨hattributes, rfl⟩, rfl⟩
    exact ⟨⟨hmemberOf, hattributes⟩, rfl⟩
  · rintro ⟨⟨hmemberOf, hattributes⟩, rfl⟩
    exact ⟨_, ⟨hmemberOf, rfl⟩, _, ⟨hattributes, rfl⟩, rfl⟩

/-- **The declaration of an action is resolved** exactly if all that it names is found. -/
theorem actionDecl_eq_ok_iff {u : Uid} {d d' : ActionDecl} :
    declared.actionDecl space u d = .ok d' ↔
      ((∀ g ∈ d.memberOf, declared.FindsGroup space g) ∧
        ∀ n ∈ d.typeNames, declared.FindsType space n) ∧
      d.rename (declared.fullType space) (fullGroup space) = d' := by
  simp only [actionDecl, bind_eq_ok, groups_eq_ok_iff, typeNames_eq_ok_iff, attributes_eq_ok_iff,
    pure_eq_ok, ActionDecl.typeNames, List.forall_mem_append]
  constructor
  · rintro ⟨_, ⟨hgroups, rfl⟩, _, ⟨hprincipals, rfl⟩, _, ⟨hresources, rfl⟩, _, ⟨hcontext, rfl⟩, rfl⟩
    exact ⟨⟨hgroups, hprincipals, hresources, hcontext⟩, rfl⟩
  · rintro ⟨⟨hgroups, hprincipals, hresources, hcontext⟩, rfl⟩
    exact ⟨_, ⟨hgroups, rfl⟩, _, ⟨hprincipals, rfl⟩, _, ⟨hresources, rfl⟩, _, ⟨hcontext, rfl⟩, rfl⟩

/-- A resolved declaration of an entity type names declared types. -/
theorem typeNames_entityDecl {name : String} {d d' : EntityDecl}
    (h : declared.entityDecl space name d = .ok d') : ∀ n ∈ d'.typeNames, n ∈ declared.types :=
  List.forall_mem_append.mpr ⟨memberOf_entityDecl h,
    mem_of_mem_namesOfFields _ (attributes_of_entityDecl h)⟩

/-- A resolved declaration of an action names declared types. -/
theorem typeNames_actionDecl {u : Uid} {d d' : ActionDecl}
    (h : declared.actionDecl space u d = .ok d') : ∀ n ∈ d'.typeNames, n ∈ declared.types := by
  obtain ⟨hprincipals, hresources⟩ := appliesTo_of_actionDecl h
  have hcontext := mem_of_mem_namesOfFields _ (context_of_actionDecl h)
  exact List.forall_mem_append.mpr
    ⟨hprincipals, List.forall_mem_append.mpr ⟨hresources, hcontext⟩⟩

/-! ### Declarations that only differ in their order -/

namespace Same

variable (h : declared.Same declared')

include h

/-- Which names are those of a namespace does not depend on the order of declarations. -/
theorem isOwn_iff {name : String} : declared.IsOwn space name ↔ declared'.IsOwn space name :=
  and_congr_right fun _ => h.types _

/-- Which types are found does not depend on it either. -/
theorem findsType_iff {name : String} :
    declared.FindsType space name ↔ declared'.FindsType space name :=
  or_congr h.isOwn_iff (h.types name)

/-- Nor does it matter for groups. -/
theorem findsGroup_iff {g : Uid} : declared.FindsGroup space g ↔ declared'.FindsGroup space g :=
  h.actions _

/-- So a name stands for the same type in any order. -/
theorem fullType_eq : declared.fullType = declared'.fullType := by
  funext space name
  simp only [fullType, h.isOwn_iff]

end Same

end Declared

end Schema

end AccessPolicy
