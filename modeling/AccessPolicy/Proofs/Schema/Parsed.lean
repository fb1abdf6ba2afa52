import AccessPolicy.Proofs.Parse.Ensures
import AccessPolicy.Proofs.Schema.Sections
import AccessPolicy.Schema.Text

/-!
# Schemas that were read from a text

* `SchemaType.Ordered t` — the fields of every record in `t` ascend; `SchemaType.names t` — the
  entity types that `t` names. Resolving the names of a type keeps its records
  (`Schema.Declared.ordered_of_schemaType`), and the names that it has then are declared
  (`Schema.Declared.mem_of_mem_names`).
* `Section.Read x` — the namespace and the entity types of `x` have names that can be written, and
  its types are ordered; **every section that is read is such** (`Grammar.ensures_schemaSections`).
* `Schema.Written s` — the schema `s` is built of its sections, and all that can be seen in them can
  be written. **A schema that was read from a text is such** (`Schema.written_of_parse`).
-/

namespace AccessPolicy

/-! ### Ordered types -/

namespace SchemaType

mutual

/-- The fields of every record in a type ascend. -/
def Ordered : SchemaType → Prop
  | bool | long | string | entity _ => True
  | set element => Ordered element
  | record fields => Ascending.Sorted (Ascending.keys fields) ∧ OrderedFields fields

/-- The fields of every record in the types of fields ascend. -/
def OrderedFields : List (String × Bool × SchemaType) → Prop
  | [] => True
  | (_, _, t) :: fs => Ordered t ∧ OrderedFields fs

end

mutual

/-- The entity types that a type names. -/
def names : SchemaType → List String
  | bool | long | string => []
  | entity name => [name]
  | set element => names element
  | record fields => namesOfFields fields

/-- The entity types that the types of fields name. -/
def namesOfFields : List (String × Bool × SchemaType) → List String
  | [] => []
  | (_, _, t) :: fs => names t ++ namesOfFields fs

end

/-- The types of fields are ordered if each of them is. -/
theorem orderedFields_iff {fs : List (String × Bool × SchemaType)} :
    OrderedFields fs ↔ ∀ f ∈ fs, f.2.2.Ordered := by
  induction fs with
  | nil => exact iff_of_true trivial (List.forall_mem_nil _)
  | cons f fs ih => rw [OrderedFields, List.forall_mem_cons, ih]

end SchemaType

/-- Fields ascend, also in the records of their types. -/
def Attributes.Ordered (fields : Attributes) : Prop :=
  (SchemaType.record fields).Ordered

namespace Schema.Declared

variable {declared : Declared} {space : String}

/-- Resolving attributes keeps their names and their order. -/
theorem keys_of_attributes {fs : List (String × Bool × SchemaType)} :
    ∀ {path : String} {fs' : List (String × Bool × SchemaType)},
      declared.attributes space fs path = .ok fs' → Ascending.keys fs' = Ascending.keys fs := by
  induction fs with
  | nil =>
      intro path fs' h
      cases h
      rfl
  | cons f fs ih =>
      intro path fs' h
      rw [Declared.attributes] at h
      split at h
      · cases h
      · obtain ⟨gs, hgs, rfl⟩ := map_eq_ok.mp h
        exact congrArg (f.1 :: ·) (ih hgs)

mutual

/-- Resolving names keeps records in order. -/
theorem ordered_of_schemaType : (t : SchemaType) → {path : String} → {t' : SchemaType} →
    declared.schemaType space t path = .ok t' → t.Ordered → t'.Ordered
  | .bool, _, _, h, _ | .long, _, _, h, _ | .string, _, _, h, _ => by
      cases h
      trivial
  | .entity name, _, _, h, _ => by
      obtain ⟨n, -, rfl⟩ := map_eq_ok.mp h
      trivial
  | .set element, _, _, h, ht => by
      obtain ⟨e, he, rfl⟩ := map_eq_ok.mp h
      have helement : e.Ordered := ordered_of_schemaType element he ht
      exact helement
  | .record fields, _, _, h, ht => by
      obtain ⟨fs, hfs, rfl⟩ := map_eq_ok.mp h
      refine ⟨?_, ordered_of_attributes fields hfs ht.2⟩
      rw [keys_of_attributes hfs]
      exact ht.1

/-- Resolving attributes keeps the order of the fields in their types. -/
theorem ordered_of_attributes : (fs : List (String × Bool × SchemaType)) → {path : String} →
    {fs' : List (String × Bool × SchemaType)} → declared.attributes space fs path = .ok fs' →
    SchemaType.OrderedFields fs → SchemaType.OrderedFields fs'
  | [], _, _, h, _ => by
      cases h
      trivial
  | (k, r, t) :: fs, _, _, h, hfs => by
      rw [Declared.attributes] at h
      split at h
      · cases h
      · rename_i t' ht
        obtain ⟨gs, hgs, rfl⟩ := map_eq_ok.mp h
        exact ⟨ordered_of_schemaType t ht hfs.1, ordered_of_attributes fs hgs hfs.2⟩

end

mutual

/-- The names in a resolved type are declared. -/
theorem mem_of_mem_names : (t : SchemaType) → {path : String} → {t' : SchemaType} →
    declared.schemaType space t path = .ok t' → ∀ n ∈ t'.names, n ∈ declared.types
  | .bool, _, _, h | .long, _, _, h | .string, _, _, h => by
      cases h
      exact fun n hn => nomatch hn
  | .entity name, _, _, h => by
      obtain ⟨n, hn, rfl⟩ := map_eq_ok.mp h
      exact List.forall_mem_singleton.mpr (mem_of_typeName hn)
  | .set element, _, _, h => by
      obtain ⟨e, he, rfl⟩ := map_eq_ok.mp h
      have helement : ∀ n ∈ e.names, n ∈ declared.types := mem_of_mem_names element he
      exact helement
  | .record fields, _, _, h => by
      obtain ⟨fs, hfs, rfl⟩ := map_eq_ok.mp h
      exact mem_of_mem_namesOfFields fields hfs

/-- The entity types that resolved attributes name are declared. -/
theorem mem_of_mem_namesOfFields : (fs : List (String × Bool × SchemaType)) → {path : String} →
    {fs' : List (String × Bool × SchemaType)} → declared.attributes space fs path = .ok fs' →
    ∀ n ∈ SchemaType.namesOfFields fs', n ∈ declared.types
  | [], _, _, h => by
      cases h
      exact fun n hn => nomatch hn
  | (k, r, t) :: fs, _, _, h => by
      rw [Declared.attributes] at h
      split at h
      · cases h
      · rename_i t' ht
        obtain ⟨gs, hgs, rfl⟩ := map_eq_ok.mp h
        exact List.forall_mem_append.mpr
          ⟨mem_of_mem_names t ht, mem_of_mem_namesOfFields fs hgs⟩

end

/-- The attributes of a resolved declaration are resolved. -/
theorem attributes_of_entityDecl {name : String} {d d' : EntityDecl}
    (h : declared.entityDecl space name d = .ok d') :
    declared.attributes space d.attributes (name ++ ".shape") = .ok d'.attributes := by
  obtain ⟨memberOf, -, h⟩ := bind_eq_ok.mp h
  obtain ⟨attributes, hattributes, h⟩ := bind_eq_ok.mp h
  cases h
  exact hattributes

/-- The context of a resolved declaration is resolved. -/
theorem context_of_actionDecl {u : Uid} {d d' : ActionDecl}
    (h : declared.actionDecl space u d = .ok d') :
    declared.attributes space d.context (u.text ++ ".appliesTo.context") = .ok d'.context := by
  obtain ⟨groups, -, h⟩ := bind_eq_ok.mp h
  obtain ⟨principals, -, h⟩ := bind_eq_ok.mp h
  obtain ⟨resources, -, h⟩ := bind_eq_ok.mp h
  obtain ⟨context, hcontext, h⟩ := bind_eq_ok.mp h
  cases h
  exact hcontext

/-- Resolved fields are ordered if they were written in order, and have declared names. -/
theorem ordered_and_declared {fields fields' : Attributes} {path : String}
    (h : declared.attributes space fields path = .ok fields') (hfields : fields.Ordered) :
    fields'.Ordered ∧ ∀ n ∈ SchemaType.namesOfFields fields', n ∈ declared.types := by
  refine ⟨⟨?_, ordered_of_attributes _ h hfields.2⟩, mem_of_mem_namesOfFields _ h⟩
  rw [keys_of_attributes h]
  exact hfields.1

/-- A resolved declaration of an action applies to declared types. -/
theorem appliesTo_of_actionDecl {u : Uid} {d d' : ActionDecl}
    (h : declared.actionDecl space u d = .ok d') :
    (∀ t ∈ d'.principalTypes, t ∈ declared.types) ∧
      ∀ t ∈ d'.resourceTypes, t ∈ declared.types := by
  obtain ⟨groups, -, h⟩ := bind_eq_ok.mp h
  obtain ⟨principals, hprincipals, h⟩ := bind_eq_ok.mp h
  obtain ⟨resources, hresources, h⟩ := bind_eq_ok.mp h
  obtain ⟨context, -, h⟩ := bind_eq_ok.mp h
  cases h
  exact ⟨mem_of_typeNames hprincipals, mem_of_typeNames hresources⟩

end Schema.Declared

/-! ### Sections that are read -/

namespace Schema

/-- A namespace has a name that can be written, or is the global one. -/
def IsSpace (space : String) : Prop :=
  space = "" ∨ Name.isTypeName space

/-- An identifier that is qualified with a namespace is a type name. -/
theorem isTypeName_qualify {space name : String} (hspace : IsSpace space) (h : Name.isIdent name) :
    Name.isTypeName (Name.qualify space name) := by
  by_cases hempty : space = ""
  · rw [hempty, qualify_empty]
    exact Name.isTypeName_of_isIdent h
  · have hextend : Name.qualify space name = Name.extend space name :=
      if_neg (by simpa using hempty)
    rw [hextend]
    exact Name.isTypeName_extend (hspace.resolve_left hempty) h

/-- The name of a declaration, relative to any namespace, is a type name. -/
theorem isTypeName_relativeName {space name : String} (hspace : IsSpace space)
    (h : Name.isIdent name) (space' : String) :
    Name.isTypeName (relativeName space' (Name.qualify space name)) := by
  rw [relativeName_qualify h]
  split
  · exact Name.isTypeName_of_isIdent h
  · exact isTypeName_qualify hspace h

end Schema

/-- The names of a section can be written, and its types are ordered. -/
structure Section.Read (x : Section) : Prop where
  /-- The namespace has a name that can be written. -/
  name : Schema.IsSpace x.name
  /-- Entity types are identifiers, and their attributes are ordered. -/
  entityTypes : ∀ d ∈ x.entityTypes, Name.isIdent d.1 ∧ d.2.attributes.Ordered
  /-- The contexts of actions are ordered. -/
  actions : ∀ d ∈ x.actions, d.2.context.Ordered

/-- A namespace without declarations can be written if its name can. -/
theorem Section.read_empty {name : String} (h : Schema.IsSpace name) :
    Section.Read ⟨name, [], []⟩ :=
  ⟨h, List.forall_mem_nil _, List.forall_mem_nil _⟩

namespace Grammar

open Grammar.Parser

variable {α : Type} {post : α → Prop} {item : Parser α}

/-- What the reader of one item ensures holds of every item between commas. -/
theorem ensures_commaSeparated (hitem : Ensures item post) {count : Nat} :
    Ensures (commaSeparated item count) fun xs => ∀ x ∈ xs, post x := by
  induction count with
  | zero => exact .pure (List.forall_mem_nil _)
  | succ count ih =>
      unfold commaSeparated
      refine hitem.bind fun x hx => ensures_eat.seq fun more => ?_
      split
      · exact ih.bind fun xs hxs => .pure (List.forall_mem_cons.mpr ⟨hx, hxs⟩)
      · exact .pure (List.forall_mem_singleton.mpr hx)

/-- What the reader of one item ensures holds of every item that follows a first one. -/
theorem ensures_trailing {close : Symbol} (hitem : Ensures item post) {count : Nat} :
    Ensures (trailing close item count) fun xs => ∀ x ∈ xs, post x := by
  induction count with
  | zero => exact ensures_unexpected
  | succ count ih =>
      unfold trailing
      refine ensures_eat.seq fun closed => ?_
      split
      · exact .pure (List.forall_mem_nil _)
      · refine hitem.bind fun x hx => ensures_eat.seq fun more => ?_
        split
        · exact ih.bind fun xs hxs => .pure (List.forall_mem_cons.mpr ⟨hx, hxs⟩)
        · exact ensures_expect.seq fun _ => .pure (List.forall_mem_singleton.mpr hx)

/-- What the reader of one item ensures holds of every item of a list that may end with a comma. -/
theorem ensures_trailingUntil {close : Symbol} (hitem : Ensures item post) :
    Ensures (trailingUntil close item) fun xs => ∀ x ∈ xs, post x := by
  unfold trailingUntil
  exact ensures_remaining.seq fun count => ensures_trailing hitem

theorem ensures_typeList : Ensures typeList fun _ => True := by
  unfold typeList
  refine ensures_eat.seq fun bracket => ?_
  split
  · exact (ensures_trailingUntil ensures_typeName).bind fun _ _ => .pure trivial
  · exact ensures_typeName.bind fun _ _ => .pure trivial

/-! ### Types -/

/-- Fields become ordered attributes if their types are ordered. -/
theorem ensures_attributesOf {fs : List (String × Bool × SchemaType)} :
    ∀ {seen : Attributes}, (∀ f ∈ fs, f.2.2.Ordered) → seen.Ordered →
      Ensures (attributesOf fs seen) Attributes.Ordered := by
  induction fs with
  | nil => exact fun _ hseen => .pure hseen
  | cons f fs ih =>
      intro seen hfs hseen
      obtain ⟨hf, hfs⟩ := List.forall_mem_cons.mp hfs
      unfold attributesOf
      split
      · exact .fail
      · refine ih hfs ⟨hseen.1.put, SchemaType.orderedFields_iff.mpr fun g hg => ?_⟩
        rcases Ascending.mem_of_mem_put hg with rfl | hg
        · exact hf
        · exact SchemaType.orderedFields_iff.mp hseen.2 g hg

/-- A record type is ordered if the types of its attributes are: a field is put in its place, and
one that is there is refused. -/
theorem ensures_recordType {type : Parser SchemaType} (htype : Ensures type SchemaType.Ordered) :
    Ensures (recordType type) Attributes.Ordered := by
  have hfield : Ensures (schemaField type) fun f => f.2.2.Ordered := by
    unfold schemaField
    refine ensures_name.bind fun k _ => ensures_eat.seq fun optional => ?_
    exact ensures_expect.seq fun _ => htype.bind fun t ht => .pure ht
  unfold recordType
  refine ensures_expect.seq fun _ => (ensures_trailingUntil hfield).bind fun fs hfs => ?_
  exact ensures_attributesOf hfs ⟨.nil, trivial⟩

/-- A type that is read is ordered. -/
theorem ensures_schemaType {count : Nat} : Ensures (schemaType count) SchemaType.Ordered := by
  induction count with
  | zero => exact ensures_unexpected
  | succ count ih =>
      unfold schemaType
      refine ensures_peek.bind fun found _ => ?_
      split
      · exact (ensures_recordType ih).bind fun fields hfields => .pure hfields
      · refine ensures_typeName.bind fun name _ => ?_
        split
        · exact .pure trivial
        split
        · exact .pure trivial
        split
        · exact .pure trivial
        split
        · refine ensures_expect.seq fun _ => ih.bind fun element helement => ?_
          exact ensures_expect.seq fun _ => .pure helement
        · exact .pure trivial

/-- The attributes of a record that are read are ordered. -/
theorem ensures_recordFields : Ensures recordFields Attributes.Ordered := by
  unfold recordFields
  exact ensures_remaining.seq fun count => ensures_recordType ensures_schemaType

/-! ### Declarations -/

/-- A declaration of entity types gives identifiers with ordered attributes. -/
theorem ensures_entityDeclaration : Ensures entityDeclaration fun ds =>
    ∀ d ∈ ds, Name.isIdent d.1 ∧ d.2.attributes.Ordered := by
  unfold entityDeclaration
  refine ensures_remaining.seq fun count => ?_
  refine (ensures_commaSeparated ensures_ident).bind fun names hnames => ?_
  -- Each optional part is followed by the same reader, so it is dealt with from behind.
  have hdone : ∀ memberOf : List String, ∀ attributes : Attributes, attributes.Ordered →
      Ensures (do
        expectSymbol .semicolon
        pure (names.map (·, (⟨memberOf, attributes⟩ : EntityDecl)))) fun ds =>
          ∀ d ∈ ds, Name.isIdent d.1 ∧ d.2.attributes.Ordered := by
    intro memberOf attributes hattributes
    refine ensures_expect.seq fun _ => .pure fun d hd => ?_
    obtain ⟨name, hname, rfl⟩ := List.mem_map.mp hd
    exact ⟨hnames name hname, hattributes⟩
  have hrest : ∀ memberOf : List String, Ensures (do
      let attributes ← if (← peek) = some (.sym .openBrace) then recordFields else pure []
      expectSymbol .semicolon
      pure (names.map (·, (⟨memberOf, attributes⟩ : EntityDecl)))) fun ds =>
        ∀ d ∈ ds, Name.isIdent d.1 ∧ d.2.attributes.Ordered := by
    intro memberOf
    refine ensures_peek.bind fun found _ => ?_
    dsimp only
    split
    · exact ensures_recordFields.bind fun attributes h => hdone memberOf attributes h
    · exact hdone memberOf [] ⟨.nil, trivial⟩
  refine ensures_eat.seq fun eaten => ?_
  dsimp only
  split
  · exact ensures_typeList.seq hrest
  · exact hrest []

/-! ### Actions -/

theorem ensures_actionGroup : Ensures actionGroup fun _ => True := by
  unfold actionGroup
  refine ensures_peek.bind fun found _ => ?_
  split
  · exact ensures_string.seq fun id => .pure trivial
  · refine ensures_path.bind fun p _ => ?_
    split
    · exact .pure trivial
    · split
      · exact .fail
      · exact .pure trivial

/-- The context that a declaration has is ordered, whichever of its parts are read and in which
order. -/
theorem ensures_appliesTo {count : Nat} : ∀ {d : ActionDecl}, d.context.Ordered →
    Ensures (appliesTo count d) fun d => d.context.Ordered := by
  induction count with
  | zero => exact fun hd => .pure hd
  | succ count ih =>
      intro d hd
      -- What follows an entry is the same for all of them.
      have hrest : ∀ d : ActionDecl, d.context.Ordered → Ensures (do
          if ← eatSymbol .comma then appliesTo count d
          else if (← peek) = some (.sym .closeBrace) then appliesTo count d
          else unexpected "\x60,\x60 or \x60\x7d\x60") fun d => d.context.Ordered := by
        intro d hd
        refine ensures_eat.seq fun comma => ?_
        split
        · exact ih hd
        · refine ensures_peek.bind fun found _ => ?_
          split
          · exact ih hd
          · exact ensures_unexpected
      unfold appliesTo
      refine ensures_eat.seq fun closed => ?_
      split
      · exact .pure hd
      · refine ensures_ident.bind fun key _ => ensures_expect.seq fun _ => ?_
        dsimp only
        split
        · exact ensures_typeList.seq fun types => hrest _ hd
        split
        · exact ensures_typeList.seq fun types => hrest _ hd
        split
        · exact ensures_recordFields.bind fun fields hfields => hrest _ hfields
        · exact .fail

/-- A declaration of actions gives ordered contexts. -/
theorem ensures_actionDeclaration : Ensures actionDeclaration fun ds =>
    ∀ d ∈ ds, d.2.context.Ordered := by
  unfold actionDeclaration
  refine ensures_remaining.seq fun count => ?_
  refine (ensures_commaSeparated ensures_name).bind fun names _ => ?_
  -- As for entity types, the optional parts are dealt with from behind.
  have hdone : ∀ d : ActionDecl, d.context.Ordered → Ensures (do
      expectSymbol .semicolon
      pure (names.map (·, d))) fun ds => ∀ d ∈ ds, d.2.context.Ordered := by
    intro d hd
    refine ensures_expect.seq fun _ => .pure fun e he => ?_
    obtain ⟨name, -, rfl⟩ := List.mem_map.mp he
    exact hd
  have hrest : ∀ groups : List Uid, Ensures (do
      let d : ActionDecl := { ActionDecl.empty with memberOf := groups }
      let d ←
        if ← eatKeyword "appliesTo" then do
          expectSymbol .openBrace
          appliesTo ((← remaining) + 1) d
        else pure d
      expectSymbol .semicolon
      pure (names.map (·, d))) fun ds => ∀ d ∈ ds, d.2.context.Ordered := by
    intro groups
    have hempty : Attributes.Ordered [] := ⟨.nil, trivial⟩
    refine ensures_eat.seq fun eaten => ?_
    dsimp only
    split
    · refine ensures_expect.seq fun _ => ensures_remaining.seq fun count => ?_
      exact (ensures_appliesTo hempty).bind hdone
    · exact hdone _ hempty
  refine ensures_eat.seq fun eaten => ?_
  dsimp only
  split
  · refine ensures_eat.seq fun bracket => ?_
    split
    · exact (ensures_trailingUntil ensures_actionGroup).bind fun groups _ => hrest _
    · exact ensures_actionGroup.seq fun group => hrest _
  · exact hrest []

/-! ### Sections -/

/-- A declaration keeps a section such that it can be written. -/
theorem ensures_declaration {x : Section} (hx : x.Read) :
    Ensures (declaration x) fun y => y.Read ∧ y.name = x.name := by
  unfold declaration
  refine ensures_eat.seq fun entity => ?_
  split
  · refine ensures_entityDeclaration.bind fun types htypes => .pure ⟨⟨hx.name, ?_, hx.actions⟩, rfl⟩
    exact List.forall_mem_append.mpr ⟨hx.entityTypes, htypes⟩
  · refine ensures_eat.seq fun action => ?_
    split
    · refine ensures_actionDeclaration.bind fun actions hactions =>
        .pure ⟨⟨hx.name, hx.entityTypes, ?_⟩, rfl⟩
      exact List.forall_mem_append.mpr ⟨hx.actions, hactions⟩
    · refine ensures_peek.bind fun found _ => ?_
      split <;> exact .fail

/-- The declarations in a namespace keep its section such as can be written. -/
theorem ensures_namespaceBody {count : Nat} : ∀ {x : Section}, x.Read →
    Ensures (namespaceBody count x) Section.Read := by
  induction count with
  | zero => exact fun hx => .pure hx
  | succ count ih =>
      intro x hx
      unfold namespaceBody
      refine ensures_eat.seq fun closed => ?_
      split
      · exact .pure hx
      · exact (ensures_declaration hx).bind fun y hy => ih hy.1

/-- Declarations outside of namespaces, and namespaces among them, give sections that can be
written. -/
theorem ensures_schemaBody {count : Nat} : ∀ {x : Section}, x.Read →
    Ensures (schemaBody count x) fun r => r.1.Read ∧ ∀ y ∈ r.2, y.Read := by
  induction count with
  | zero => exact fun hx => .pure ⟨hx, List.forall_mem_nil _⟩
  | succ count ih =>
      intro x hx
      unfold schemaBody
      refine ensures_peek.bind fun found _ => ?_
      split
      · exact .pure ⟨hx, List.forall_mem_nil _⟩
      · refine ensures_eat.seq fun keyword => ?_
        split
        · refine ensures_typeName.bind fun name hname => ensures_expect.seq fun _ => ?_
          refine ensures_remaining.seq fun n => ?_
          refine (ensures_namespaceBody (Section.read_empty (.inr hname))).bind fun y hy => ?_
          exact (ih hx).bind fun r hr => .pure ⟨hr.1, List.forall_mem_cons.mpr ⟨hy, hr.2⟩⟩
        · exact (ensures_declaration hx).bind fun y hy => ih hy.1

/-- **Every section that is read** can be written. -/
theorem ensures_schemaSections : Ensures schemaSections fun xs => ∀ x ∈ xs, x.Read := by
  unfold schemaSections
  refine ensures_remaining.seq fun count => ?_
  refine (ensures_schemaBody (Section.read_empty (.inl rfl))).bind ?_
  rintro ⟨global, rest⟩ hr
  dsimp only
  split
  · exact .pure hr.2
  · exact .pure (List.forall_mem_cons.mpr hr)

end Grammar

/-! ### Schemas that are read -/

namespace Schema

/-- All that can be seen in the sections of a schema can be written, and they make the schema. -/
structure Written (s : Schema) : Prop where
  /-- The schema is built of its sections. -/
  sections : ofSections s.sections = .ok s
  /-- The schema is well-formed. -/
  wellFormed : s.WellFormed
  /-- Entity types are identifiers in namespaces that can be written. -/
  typeName : ∀ t ∈ Ascending.keys s.entityTypes, ∃ space name, IsSpace space ∧ Name.isIdent name ∧
    t = Name.qualify space name
  /-- Actions have the type of actions of a namespace that can be written. -/
  actionType : ∀ u ∈ Ascending.keys s.actions, ∃ space, IsSpace space ∧
    u.type = Name.qualify space "Action"
  /-- Entity types have declared parents. -/
  parents : ∀ e ∈ s.entityTypes, ∀ t ∈ e.2.memberOf, t ∈ Ascending.keys s.entityTypes
  /-- The attributes are ordered and have declared names. -/
  attributes : ∀ e ∈ s.entityTypes, e.2.attributes.Ordered ∧
    ∀ n ∈ SchemaType.namesOfFields e.2.attributes, n ∈ Ascending.keys s.entityTypes
  /-- Actions belong to declared groups. -/
  groups : ∀ e ∈ s.actions, ∀ g ∈ e.2.memberOf, g ∈ Ascending.keys s.actions
  /-- Actions apply to declared types. -/
  appliesTo : ∀ e ∈ s.actions, (∀ t ∈ e.2.principalTypes, t ∈ Ascending.keys s.entityTypes) ∧
    ∀ t ∈ e.2.resourceTypes, t ∈ Ascending.keys s.entityTypes
  /-- The contexts are ordered and have declared names. -/
  context : ∀ e ∈ s.actions, e.2.context.Ordered ∧
    ∀ n ∈ SchemaType.namesOfFields e.2.context, n ∈ Ascending.keys s.entityTypes

/-- What is built of sections that can be written can be written. -/
theorem written_of_ofSections {xs : List Section} {s : Schema} (hxs : ∀ x ∈ xs, x.Read)
    (h : ofSections xs = .ok s) : s.Written := by
  have hnames : ∀ x ∈ xs, ∀ d ∈ x.entityTypes, Name.isIdent d.1 :=
    fun x hx d hd => ((hxs x hx).entityTypes d hd).1
  -- Each declaration of `s` comes of one in a section, of which it is known how it was read.
  have horigins := origins_of_ofSections h
  have htypes : ∀ t ∈ (declaredBy xs).types, t ∈ Ascending.keys s.entityTypes :=
    fun t => (horigins.same.types t).mp
  have hactions : ∀ u ∈ (declaredBy xs).actions, u ∈ Ascending.keys s.actions :=
    fun u => (horigins.same.actions u).mp
  constructor
  case sections => exact ofSections_sections hnames h
  case wellFormed => exact wellFormed_of_ofSections h
  case typeName =>
    intro t ht
    obtain ⟨e, he, rfl⟩ := List.mem_map.mp ht
    obtain ⟨x, hx, d, hd, hname, -⟩ := horigins.types e he
    exact ⟨x.name, d.1, (hxs x hx).name, hnames x hx d hd, hname⟩
  case actionType =>
    intro u hu
    obtain ⟨e, he, rfl⟩ := List.mem_map.mp hu
    obtain ⟨x, hx, d, hd, hname, -⟩ := horigins.actions e he
    exact ⟨x.name, (hxs x hx).name, congrArg Uid.type hname⟩
  case parents =>
    intro e he t ht
    obtain ⟨x, hx, d, hd, -, hd'⟩ := horigins.types e he
    exact htypes t (Declared.memberOf_entityDecl hd' t ht)
  case attributes =>
    intro e he
    obtain ⟨x, hx, d, hd, -, hd'⟩ := horigins.types e he
    have hread := ((hxs x hx).entityTypes d hd).2
    have hresolved := Declared.attributes_of_entityDecl hd'
    exact (Declared.ordered_and_declared hresolved hread).imp_right fun hn n hmem =>
      htypes n (hn n hmem)
  case groups =>
    intro e he g hg
    obtain ⟨x, hx, d, hd, -, hd'⟩ := horigins.actions e he
    exact hactions g (Declared.memberOf_actionDecl hd' g hg)
  case appliesTo =>
    intro e he
    obtain ⟨x, hx, d, hd, -, hd'⟩ := horigins.actions e he
    exact (Declared.appliesTo_of_actionDecl hd').imp (fun hn t ht => htypes t (hn t ht))
      fun hn t ht => htypes t (hn t ht)
  case context =>
    intro e he
    obtain ⟨x, hx, d, hd, -, hd'⟩ := horigins.actions e he
    have hread := (hxs x hx).actions d hd
    have hresolved := Declared.context_of_actionDecl hd'
    exact (Declared.ordered_and_declared hresolved hread).imp_right fun hn n hmem =>
      htypes n (hn n hmem)

/-- **A schema that was read from a text** can be written. -/
theorem written_of_parse {text : String} {s : Schema} (h : parse text = .ok s) : s.Written := by
  obtain ⟨xs, hxs, h⟩ := bind_eq_ok.mp h
  exact written_of_ofSections (Grammar.post_of_readAll Grammar.ensures_schemaSections hxs) h

namespace Written

variable {s : Schema} (h : s.Written)

include h

/-- Inside a namespace, the name of an entity type is a type name. -/
theorem isTypeName_type {t : String} (ht : t ∈ Ascending.keys s.entityTypes) (space : String) :
    Name.isTypeName (relativeName space t) := by
  obtain ⟨space', name, hspace, hname, rfl⟩ := h.typeName t ht
  exact isTypeName_relativeName hspace hname space

/-- Inside a namespace, the type of an action is a type name. -/
theorem isTypeName_action {u : Uid} (hu : u ∈ Ascending.keys s.actions) (space : String) :
    Name.isTypeName (relativeName space u.type) := by
  obtain ⟨space', hspace, htype⟩ := h.actionType u hu
  rw [htype]
  exact isTypeName_relativeName hspace isIdent_action space

/-- The type of an action is a type name. -/
theorem isValid_action {u : Uid} (hu : u ∈ Ascending.keys s.actions) : u.isValid := by
  obtain ⟨space, hspace, htype⟩ := h.actionType u hu
  rw [Uid.isValid, htype]
  exact isTypeName_qualify hspace isIdent_action

/-- Entity types of a namespace have identifiers, and declarations of the schema. -/
theorem of_mem_typesIn {space : String} {t : String × EntityDecl} (ht : t ∈ s.typesIn space) :
    Name.isIdent t.1 ∧ ∃ e ∈ s.entityTypes, t.2 = e.2 := by
  obtain ⟨e, hmem, -, rfl⟩ := mem_typesIn.mp ht
  obtain ⟨space', name, -, hname, htype⟩ := h.typeName e.1 (List.mem_map_of_mem hmem)
  refine ⟨?_, e, hmem, rfl⟩
  rw [htype, splitName_qualify hname]
  exact hname

/-- What a schema that was read declares has qualified names. -/
theorem qualified : s.declaredIn.Qualified := by
  constructor
  · intro t ht
    obtain ⟨space, name, -, hname⟩ := h.typeName t ht
    exact ⟨space, name, hname⟩
  · intro u hu
    exact (h.actionType u hu).imp fun space htype => htype.2

/-- The namespaces of a schema that was read can be written. -/
theorem isSpace {space : String} (hspace : space ∈ s.spaces) : IsSpace space := by
  rcases List.mem_append.mp (Ascending.mem_ofList.mp hspace) with hmem | hmem
  · obtain ⟨e, he, rfl⟩ := List.mem_map.mp hmem
    obtain ⟨space', name, hspace', hname, htype⟩ := h.typeName e.1 (List.mem_map_of_mem he)
    rw [htype, spaceOf_qualify hname]
    exact hspace'
  · obtain ⟨e, he, rfl⟩ := List.mem_map.mp hmem
    obtain ⟨space', hspace', htype⟩ := h.actionType e.1 (List.mem_map_of_mem he)
    rw [htype, spaceOf_qualify isIdent_action]
    exact hspace'

end Written

end Schema

end AccessPolicy
