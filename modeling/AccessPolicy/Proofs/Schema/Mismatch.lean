import AccessPolicy.Schema.Basic

/-!
# How building a schema fails

* `Mismatches x` — `x` gives something, or it fails with a wrong shape at a path. One rule for each
  way to put such steps together.
* **Building a schema of sections fails in no other way** (`Schema.mismatches_ofSections`).
-/

namespace AccessPolicy

variable {α β : Type}

/-- A failure is a wrong shape at a path. -/
def Mismatches (x : Except Error α) : Prop :=
  ∀ e, x = .error e → ∃ path detail, e = .schemaMismatch path detail

namespace Mismatches

/-- A result is no failure, so that there is nothing to ask of it. -/
theorem ok {a : α} : Mismatches (.ok a) :=
  nofun

/-- A mismatch at a path fails as it should. -/
theorem error {path detail : String} :
    Mismatches (.error (.schemaMismatch path detail) : Except Error α) := by
  rintro _ ⟨⟩
  exact ⟨path, detail, rfl⟩

/-- Steps one after another fail as the step does that fails. -/
theorem bind {x : Except Error α} {f : α → Except Error β} (hx : Mismatches x)
    (hf : ∀ a, Mismatches (f a)) : Mismatches (x >>= f) := by
  cases x with
  | error e =>
      rintro _ ⟨⟩
      exact hx e rfl
  | ok a => exact hf a

/-- What is done with a result makes no failure. -/
theorem map {x : Except Error α} {f : α → β} (hx : Mismatches x) : Mismatches (x.map f) := by
  cases x with
  | error e =>
      rintro _ ⟨⟩
      exact hx e rfl
  | ok a => exact ok

/-- The first item that fails decides, in the way that items fail. -/
theorem mapM {f : α → Except Error β} (hf : ∀ a, Mismatches (f a)) (as : List α) :
    Mismatches (as.mapM f) := by
  induction as with
  | nil => exact ok
  | cons a as ih =>
      rw [List.mapM_cons]
      exact (hf a).bind fun b => ih.bind fun bs => ok

end Mismatches

namespace Schema

variable {declared : Declared} {space : String}

/-! ### Names -/

/-- A name of an entity type that is not declared is reported where it stands. -/
theorem mismatches_typeName (path name : String) :
    Mismatches (declared.typeName space path name) := by
  unfold Declared.typeName
  dsimp only
  split
  · exact .ok
  split
  · exact .ok
  · exact .error

/-- The names of a list are reported where the list stands. -/
theorem mismatches_typeNames {path : String} {names : List String} :
    Mismatches (declared.typeNames space path names) :=
  (Mismatches.mapM (mismatches_typeName path) names).map

/-- A group that is not declared is reported with the action that it is a group of. -/
theorem mismatches_group (action group : Uid) : Mismatches (declared.group space action group) := by
  unfold Declared.group
  extract_lets resolved
  split
  · exact .ok
  · exact .error

mutual

/-- A type is resolved at its place and a record field by field, each at a longer path. -/
theorem mismatches_schemaType : (t : SchemaType) → (path : String) →
    Mismatches (declared.schemaType space t path)
  | .bool, _ | .long, _ | .string, _ => .ok
  | .entity name, path => (mismatches_typeName path name).map
  | .set element, path => (mismatches_schemaType element path).map
  | .record fields, path => (mismatches_attributes fields path).map

/-- The attributes of a record are resolved in order. -/
theorem mismatches_attributes : (fields : List (String × Bool × SchemaType)) → (path : String) →
    Mismatches (declared.attributes space fields path)
  | [], _ => .ok
  | (k, r, t) :: fields, path => by
      have htype := mismatches_schemaType t (path ++ "." ++ k)
      rw [Declared.attributes]
      split
      · rename_i e he
        rintro _ ⟨⟩
        exact htype e he
      · exact (mismatches_attributes fields path).map

end

/-! ### Declarations -/

/-- The declaration of an entity type fails for a parent type or an attribute. -/
theorem mismatches_entityDecl {name : String} {d : EntityDecl} :
    Mismatches (declared.entityDecl space name d) :=
  mismatches_typeNames.bind fun _ => (mismatches_attributes _ _).bind fun _ => .ok

/-- The declaration of an action fails for a group, a type that it applies to or an attribute of its
context. -/
theorem mismatches_actionDecl {u : Uid} {d : ActionDecl} :
    Mismatches (declared.actionDecl space u d) := by
  unfold Declared.actionDecl
  refine (Mismatches.mapM (mismatches_group u) d.memberOf).bind fun groups => ?_
  refine mismatches_typeNames.bind fun principals => mismatches_typeNames.bind fun resources => ?_
  exact (mismatches_attributes _ _).bind fun context => .ok

/-- An entity type that is declared twice is reported, by induction on the declarations of a
section. -/
theorem mismatches_declareTypes {ds : List (String × EntityDecl)} : ∀ {declared : Declared},
    Mismatches (declareTypes space ds declared) := by
  induction ds with
  | nil => exact .ok
  | cons d ds ih =>
      intro declared
      unfold declareTypes
      dsimp only
      split
      · exact .error
      · exact ih

/-- An action that is declared twice is reported in the same way. -/
theorem mismatches_declareActions {ds : List (String × ActionDecl)} : ∀ {declared : Declared},
    Mismatches (declareActions space ds declared) := by
  induction ds with
  | nil => exact .ok
  | cons d ds ih =>
      intro declared
      unfold declareActions
      dsimp only
      split
      · exact .error
      · exact ih

/-! ### Sections -/

/-- The first pass goes through all sections and only looks for what is declared twice. -/
theorem mismatches_declareAll {sections : List Section} : ∀ {declared : Declared},
    Mismatches (declareAll sections declared) := by
  induction sections with
  | nil => exact .ok
  | cons s sections ih =>
      exact mismatches_declareTypes.bind fun _ => mismatches_declareActions.bind fun _ => ih

/-- The second pass resolves the names in the entity types of a section. -/
theorem mismatches_addTypes {ds : List (String × EntityDecl)} : ∀ {s : Schema},
    Mismatches (addTypes declared space ds s) := by
  induction ds with
  | nil => exact .ok
  | cons d ds ih => exact mismatches_entityDecl.bind fun _ => ih

/-- The second pass resolves the names in the actions of a section. -/
theorem mismatches_addActions {ds : List (String × ActionDecl)} : ∀ {s : Schema},
    Mismatches (addActions declared space ds s) := by
  induction ds with
  | nil => exact .ok
  | cons d ds ih => exact mismatches_actionDecl.bind fun _ => ih

/-- The second pass goes through all sections, with everything declared by then. -/
theorem mismatches_addSections {sections : List Section} : ∀ {s : Schema},
    Mismatches (addSections declared sections s) := by
  induction sections with
  | nil => exact .ok
  | cons x sections ih => exact mismatches_addTypes.bind fun _ => mismatches_addActions.bind fun _ => ih

/-- **Building a schema fails with a wrong shape at a path**, or not at all. -/
theorem mismatches_ofSections (sections : List Section) : Mismatches (ofSections sections) :=
  mismatches_declareAll.bind fun _ => mismatches_addSections

end Schema

end AccessPolicy
