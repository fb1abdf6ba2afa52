import AccessPolicy.Proofs.Json.Merge
import AccessPolicy.Proofs.Schema.Parsed
import AccessPolicy.Schema.Json

/-!
# Schemas come back from their JSON form

* `SchemaType.ReadsAs v t` — the object `v` is read as the type `t`, whatever members, such as the
  mark of a field, are appended. The type object of an ordered type is read as the type in its
  relative form (`SchemaType.readsAs_toJson`), and so are fields (`SchemaType.ofMembers_toMembers`).
* Declarations are read in their relative forms (`Schema.entityOfJson_entityToJson`,
  `Schema.actionOfJson_actionToJson`), so that the namespaces are read as the sections of the schema
  (`Schema.Written.sectionOfJson_spaceToJson`).
* **A schema that was read from a text comes back from its JSON form** (`Schema.ofJson_toJson`), in
  which no object repeats a key.
-/

namespace AccessPolicy

open Json (Path)

/-! ### Types -/

namespace SchemaType

/-- The object is read as a type and as no mark, whatever members are appended. -/
def ReadsAs (v : Json) (t : SchemaType) : Prop :=
  ∃ members, v = .obj members ∧ Json.find? "required" members = none ∧
    ∀ (more : List (String × Json)) (path : Path), ofJson (.obj (members ++ more)) path = .ok t

/-- With nothing appended it is read as the type. -/
theorem ReadsAs.ofJson_eq {v : Json} {t : SchemaType} (h : ReadsAs v t) (path : Path) :
    ofJson v path = .ok t := by
  obtain ⟨members, rfl, -, hread⟩ := h
  have hnone := hread [] path
  rwa [List.append_nil] at hnone

/-- The mark of a field is one of the members that may be appended. -/
theorem ReadsAs.ofJson_markRequired {v : Json} {t : SchemaType} (h : ReadsAs v t) (required : Bool)
    (path : Path) : ofJson (markRequired required v) path = .ok t := by
  obtain ⟨members, rfl, -, hread⟩ := h
  exact hread [("required", .bool required)] path

/-- The mark is found, as the type object has none of its own. -/
theorem ReadsAs.isRequired_markRequired {v : Json} {t : SchemaType} (h : ReadsAs v t)
    (required : Bool) (path : Path) : isRequired (markRequired required v) path = .ok required := by
  obtain ⟨members, rfl, hfind, -⟩ := h
  rw [markRequired, isRequired, Json.find?_append hfind]
  rfl

/-- Relative names are in the types of fields, not in their keys. -/
theorem keys_relativeFields (space : String) (fs : List (String × Bool × SchemaType)) :
    Ascending.keys (relativeFields space fs) = Ascending.keys fs := by
  induction fs with
  | nil => rfl
  | cons f fs ih => exact congrArg (f.1 :: ·) ih

variable {space : String}

mutual

/-- **A type object** is read as the type in its relative form. -/
theorem readsAs_toJson : (t : SchemaType) → t.Ordered → ReadsAs (toJson space t) (t.relative space)
  | bool, _ => ⟨_, rfl, rfl, fun _ _ => rfl⟩
  | long, _ => ⟨_, rfl, rfl, fun _ _ => rfl⟩
  | string, _ => ⟨_, rfl, rfl, fun _ _ => rfl⟩
  | entity _, _ => ⟨_, rfl, rfl, fun _ _ => rfl⟩
  | set element, h => by
      have helement := (readsAs_toJson element h).ofJson_eq
      refine ⟨_, rfl, rfl, fun more path => ?_⟩
      change (ofJson (toJson space element) (path.member "element")).map set = _
      rw [helement]
      rfl
  | record fields, h => by
      have hfields := ofMembers_toMembers fields h.2
      have hsorted : Ascending.Sorted (Ascending.keys (relativeFields space fields)) := by
        rw [keys_relativeFields]
        exact h.1
      refine ⟨_, rfl, rfl, fun more path => ?_⟩
      -- The members are put in order once more, which changes nothing.
      change ((ofMembers (toMembers space fields) (path.member "attributes")).map
        Ascending.ofPairs).map record = _
      rw [hfields, Except.map, hsorted.ofPairs_eq fun f => Iff.rfl]
      rfl

/-- The type objects of fields are read as the fields in their relative forms. -/
theorem ofMembers_toMembers : (fs : List (String × Bool × SchemaType)) → OrderedFields fs →
    ∀ path : Path, ofMembers (toMembers space fs) path = .ok (relativeFields space fs)
  | [], _, _ => rfl
  | (k, required, t) :: fs, h, path => by
      have htype : ReadsAs (toJson space t) (t.relative space) := readsAs_toJson t h.1
      rw [toMembers, ofMembers, htype.ofJson_markRequired, htype.isRequired_markRequired,
        ofMembers_toMembers fs h.2]
      rfl

end

/-- A field stands under its own name. -/
theorem keys_toMembers (fs : List (String × Bool × SchemaType)) :
    (toMembers space fs).map (·.1) = Ascending.keys fs := by
  induction fs with
  | nil => rfl
  | cons f fs ih => exact congrArg (f.1 :: ·) ih

/-- The mark does not repeat a key of the type object. -/
theorem merged_markRequired {v : Json} {t : SchemaType} (h : ReadsAs v t) (hv : v.Merged)
    (required : Bool) : (markRequired required v).Merged := by
  obtain ⟨members, rfl, hfind, -⟩ := h
  obtain ⟨hkeys, hmembers⟩ := Json.merged_obj_iff.mp hv
  refine Json.merged_obj_iff.mpr ⟨?_, List.forall_mem_append.mpr ⟨hmembers, ?_⟩⟩
  · rw [List.map_append]
    exact hkeys.append (List.nodup_singleton _)
      (List.disjoint_singleton.mpr (Json.find?_eq_none_iff.mp hfind))
  · exact List.forall_mem_singleton.mpr rfl

mutual

/-- No object in a type object repeats a key. -/
theorem merged_toJson : (t : SchemaType) → t.Ordered → (toJson space t).Merged
  | bool, _ | long, _ | string, _ | entity _, _ => rfl
  | set element, h => by
      have helement : (toJson space element).Merged := merged_toJson element h
      exact Json.merged_pair (by decide) rfl helement
  | record fields, h => by
      have hfields : (Json.obj (toMembers space fields)).Merged := by
        rw [Json.merged_obj_iff, keys_toMembers]
        exact ⟨h.1.nodup, merged_toMembers fields h.2⟩
      exact Json.merged_pair (by decide) rfl hfields

/-- The type objects of fields repeat no key. -/
theorem merged_toMembers : (fs : List (String × Bool × SchemaType)) → OrderedFields fs →
    ∀ m ∈ toMembers space fs, m.2.Merged
  | [], _ => nofun
  | (_, required, t) :: fs, h => List.forall_mem_cons.mpr
      ⟨merged_markRequired (readsAs_toJson t h.1) (merged_toJson t h.1) required,
        merged_toMembers fs h.2⟩

end

end SchemaType

/-! ### Declarations -/

namespace Schema

variable {space : String} {path : Path}

/-- A list of encoded values is decoded item by item. -/
theorem asList_map {α β : Type} {read : Json → Except Json.Fault β} {write : α → Json} {f : α → β}
    {xs : List α} (h : ∀ x ∈ xs, read (write x) = .ok (f x)) :
    Json.asList read (.arr (xs.map write)) = .ok (xs.map f) := by
  refine mapM_eq_ok.mpr ?_
  rw [List.forall₂_map_left_iff, List.forall₂_map_right_iff, List.forall₂_same]
  exact h

/-- A list of names is read as the list of the names that it was written with. -/
theorem asList_namesToJson (names : List String) :
    Json.asList Json.asString (namesToJson space names) = .ok (names.map (relativeName space)) :=
  asList_map fun _ _ => rfl

/-- Attributes are read in the order of their names, in which they are written. -/
theorem attributesOfJson_attributesToJson {fields : Attributes} (h : fields.Ordered) :
    attributesOfJson (some (attributesToJson space fields)) path =
      .ok (SchemaType.relativeFields space fields) := by
  have hread : SchemaType.ofJson (attributesToJson space fields) path =
      .ok (.record (SchemaType.relativeFields space fields)) :=
    (SchemaType.readsAs_toJson (.record fields) h).ofJson_eq path
  rw [attributesOfJson, hread]

/-- **The JSON form of an entity type** is read as its relative form. -/
theorem entityOfJson_entityToJson {d : EntityDecl} (h : d.attributes.Ordered) :
    entityOfJson (entityToJson space d) path = .ok (d.relative space) := by
  have hshape : ∀ shape : Option Json,
      attributesOfJson shape (path.member "shape") =
        .ok (SchemaType.relativeFields space d.attributes) →
      (attributesOfJson shape (path.member "shape") >>= fun attributes =>
        pure (⟨Ascending.ofList (d.memberOf.map (relativeName space)), attributes⟩ : EntityDecl)) =
          .ok (d.relative space) := by
    intro shape hshape
    rw [hshape]
    rfl
  rw [entityOfJson, entityToJson]
  -- Without attributes nothing is written for them, which is read as a record without fields.
  split
  · rename_i hempty
    have hread : Json.readRecord ⟨true, false⟩ entityFields ([], none)
        (.obj [("memberOfTypes", namesToJson space d.memberOf)]) =
          .ok (d.memberOf.map (relativeName space), none) := by
      simp [Json.readRecord, Json.storeMembers, entityFields, asList_namesToJson, Except.map]
    rw [hread]
    refine hshape none ?_
    rw [List.isEmpty_iff.mp hempty]
    rfl
  · have hread : Json.readRecord ⟨true, false⟩ entityFields ([], none)
        (.obj [("memberOfTypes", namesToJson space d.memberOf),
          ("shape", attributesToJson space d.attributes)]) =
          .ok (d.memberOf.map (relativeName space), some (attributesToJson space d.attributes)) := by
      simp [Json.readRecord, Json.storeMembers, entityFields, asList_namesToJson, Except.map,
        attributesToJson, SchemaType.toJson, Json.asOption]
    rw [hread]
    exact hshape _ (attributesOfJson_attributesToJson h)

/-- **The JSON form of an action** is read as its relative form. -/
theorem actionOfJson_actionToJson {d : ActionDecl} (h : d.context.Ordered)
    (hgroups : ∀ g ∈ d.memberOf, Name.isTypeName (relativeName space g.type)) :
    actionOfJson (actionToJson space d) path = .ok (d.relative space) := by
  have happlication : decodeApplication (.obj
      [("principalTypes", namesToJson space d.principalTypes),
        ("resourceTypes", namesToJson space d.resourceTypes),
        ("context", attributesToJson space d.context)]) =
      .ok ⟨d.principalTypes.map (relativeName space), d.resourceTypes.map (relativeName space),
        some (attributesToJson space d.context)⟩ := by
    simp [decodeApplication, Json.readRecord, Json.storeMembers, applicationFields,
      asList_namesToJson, Except.map, attributesToJson, SchemaType.toJson, Json.asOption]
  have hread : Json.readRecord ⟨true, false⟩ actionFields ([], none) (actionToJson space d) =
      .ok (d.memberOf.map fun g => (g.id, some (relativeName space g.type)), some
        ⟨d.principalTypes.map (relativeName space), d.resourceTypes.map (relativeName space),
          some (attributesToJson space d.context)⟩) := by
    have hmember : Json.asList decodeGroup (.arr (d.memberOf.map (groupToJson space))) =
        .ok (d.memberOf.map fun g => (g.id, some (relativeName space g.type))) :=
      asList_map fun _ _ => rfl
    simp [Json.readRecord, Json.storeMembers, actionFields, actionToJson, hmember, Json.asOption,
      happlication, Except.map]
  have hmemberOf : (d.memberOf.map fun g => (g.id, some (relativeName space g.type))).mapM
      (groupOfParts (path.member "memberOf")) = .ok (d.memberOf.map (relativeGroup space)) := by
    rw [mapM_eq_ok, List.forall₂_map_left_iff, List.forall₂_map_right_iff, List.forall₂_same]
    intro g hg
    rw [groupOfParts, Option.getD_some, Uid.ofParts, if_pos (hgroups g hg)]
    rfl
  rw [actionOfJson, hread]
  change (List.mapM _ _ >>= fun memberOf => attributesOfJson _ _ >>= fun context => _) = _
  rw [hmemberOf, ok_bind]
  change (attributesOfJson (some (attributesToJson space d.context)) _ >>= fun context => _) = _
  rw [attributesOfJson_attributesToJson h]
  rfl

/-- Declarations that are read back one by one are read back together. -/
theorem declarations_map {α β : Type} {read : Json → Path → Except Error α} {write : β → Json}
    {f : β → α} {ds : List (String × β)} (h : ∀ d ∈ ds, ∀ path, read (write d.2) path = .ok (f d.2))
    (path : Path) : declarations read path (ds.map fun d => (d.1, write d.2)) =
      .ok (ds.map fun d => (d.1, f d.2)) := by
  induction ds with
  | nil => rfl
  | cons d ds ih =>
      obtain ⟨hd, hds⟩ := List.forall_mem_cons.mp h
      rw [List.map_cons, declarations, hd, ih hds]
      rfl

/-- A list of names is an array of texts. -/
theorem merged_namesToJson (names : List String) : (namesToJson space names).Merged :=
  Json.merged_arr_iff.mpr (List.forall_mem_map.mpr fun _ _ => rfl)

/-- The object of an entity type has two members, and those of its attributes ascend. -/
theorem merged_entityToJson {d : EntityDecl} (h : d.attributes.Ordered) :
    (entityToJson space d).Merged := by
  have hnames : (namesToJson space d.memberOf).Merged := merged_namesToJson d.memberOf
  rw [entityToJson]
  split
  · exact Json.merged_obj_iff.mpr ⟨List.nodup_singleton _, List.forall_mem_singleton.mpr hnames⟩
  · exact Json.merged_pair (by decide) hnames (SchemaType.merged_toJson (.record d.attributes) h)

/-- The object of an action has two members or three, and that of what it applies to has three. -/
theorem merged_actionToJson {d : ActionDecl} (h : d.context.Ordered) :
    (actionToJson space d).Merged := by
  have hgroup : ∀ g : Uid, (groupToJson space g).Merged :=
    fun g => Json.merged_pair (by decide) rfl rfl
  refine Json.merged_pair (by decide) ?_ ?_
  · exact Json.merged_arr_iff.mpr (List.forall_mem_map.mpr fun g _ => hgroup g)
  · have hkeys : ["principalTypes", "resourceTypes", "context"].Nodup := by decide
    refine Json.merged_obj_iff.mpr ⟨hkeys, ?_⟩
    refine List.forall_mem_cons.mpr ⟨merged_namesToJson _, ?_⟩
    refine List.forall_mem_cons.mpr ⟨merged_namesToJson _, ?_⟩
    exact List.forall_mem_singleton.mpr (SchemaType.merged_toJson (.record d.context) h)

/-- Namespaces are collected under distinct keys. -/
theorem merged_mergeKeys {ms : List (String × Json)} (h : ∀ m ∈ ms, m.2.Merged) :
    (Json.obj (Json.mergeKeys ms)).Merged := by
  refine Json.merged_obj_iff.mpr ⟨Json.nodup_keys_mergeKeys ms, fun m hm => ?_⟩
  obtain ⟨n, hn, heq⟩ := List.mem_map.mp (Json.mem_of_mem_mergeKeys hm)
  exact heq ▸ h n hn

/-! ### Namespaces -/

namespace Written

variable {s : Schema} (h : s.Written)

include h

/-- A schema declares no type twice, so that no namespace does. -/
theorem nodup_keys_typesIn (space : String) : ((s.typesIn space).map (·.1)).Nodup := by
  refine List.Nodup.of_map (Name.qualify space) ?_
  rw [List.map_map]
  exact (qualify_typesIn h.qualified space).symm ▸ h.wellFormed.entityTypes.nodup.filter _

/-- The same of actions. -/
theorem nodup_keys_actionsIn (space : String) : ((s.actionsIn space).map (·.1)).Nodup := by
  refine List.Nodup.of_map (actionUid space) ?_
  rw [List.map_map]
  exact (qualify_actionsIn h.qualified space).symm ▸ h.wellFormed.actions.nodup.filter _

/-- The JSON form of a namespace is read as its section. -/
theorem sectionOfJson_spaceToJson (space : String) :
    sectionOfJson space (s.spaceToJson space) =
      .ok ⟨space, (s.typesIn space).map fun t => (t.1, t.2.relative space),
        (s.actionsIn space).map fun a => (a.1, a.2.relative space)⟩ := by
  have htypes : ∀ t ∈ s.typesIn space, ∀ path,
      entityOfJson (entityToJson space t.2) path = .ok (t.2.relative space) := by
    intro t ht path
    obtain ⟨e, hmem, -, rfl⟩ := mem_typesIn.mp ht
    exact entityOfJson_entityToJson (h.attributes e hmem).1
  have hactions : ∀ a ∈ s.actionsIn space, ∀ path,
      actionOfJson (actionToJson space a.2) path = .ok (a.2.relative space) := by
    intro a ha path
    obtain ⟨e, hmem, -, rfl⟩ := mem_actionsIn.mp ha
    exact actionOfJson_actionToJson (h.context e hmem).1 fun g hg =>
      h.isTypeName_action (h.groups e hmem g hg) space
  -- Names in a namespace are distinct, so that merging keys leaves the members alone.
  have hmergeTypes : Json.mergeKeys ((s.typesIn space).map fun t => (t.1, entityToJson space t.2)) =
      (s.typesIn space).map fun t => (t.1, entityToJson space t.2) := by
    refine Json.mergeKeys_of_nodup ?_
    rw [List.map_map]
    exact h.nodup_keys_typesIn space
  have hmergeActions :
      Json.mergeKeys ((s.actionsIn space).map fun a => (a.1, actionToJson space a.2)) =
        (s.actionsIn space).map fun a => (a.1, actionToJson space a.2) := by
    refine Json.mergeKeys_of_nodup ?_
    rw [List.map_map]
    exact h.nodup_keys_actionsIn space
  rw [sectionOfJson, spaceToJson, hmergeTypes, hmergeActions]
  change (declarations entityOfJson _ _ >>= fun types => declarations actionOfJson _ _ >>=
    fun actions => pure (⟨space, types, actions⟩ : Section)) = _
  rw [declarations_map htypes, ok_bind, declarations_map hactions]
  rfl

/-- No object in the JSON form of a schema repeats a key. -/
theorem merged_toJson : s.toJson.Merged := by
  have htypes : ∀ space, ∀ t ∈ s.typesIn space, (entityToJson space t.2).Merged := by
    intro space t ht
    obtain ⟨e, hmem, -, rfl⟩ := mem_typesIn.mp ht
    exact merged_entityToJson (h.attributes e hmem).1
  have hactions : ∀ space, ∀ a ∈ s.actionsIn space, (actionToJson space a.2).Merged := by
    intro space a ha
    obtain ⟨e, hmem, -, rfl⟩ := mem_actionsIn.mp ha
    exact merged_actionToJson (h.context e hmem).1
  rw [toJson, Json.merged_obj_iff, List.map_map, List.forall_mem_map]
  refine ⟨?_, fun space _ => Json.merged_pair (by decide) ?_ ?_⟩
  · exact s.nodup_spaces.map Function.injective_id
  · exact merged_mergeKeys (List.forall_mem_map.mpr (htypes space))
  · exact merged_mergeKeys (List.forall_mem_map.mpr (hactions space))

end Written

/-- **A schema that was read from a text comes back from its JSON form**, in which no object repeats
a key. -/
theorem ofJson_toJson {text : String} {s : Schema} (h : parse text = .ok s) :
    s.toJson.Merged ∧ ofJson s.toJson = .ok s := by
  have hwritten := written_of_parse h
  refine ⟨hwritten.merged_toJson, ?_⟩
  have hsections : (s.spaces.map fun space => (space, s.spaceToJson space)).mapM
      (fun m => sectionOfJson m.1 m.2) = .ok s.sections := by
    rw [mapM_eq_ok, sections, List.forall₂_map_left_iff, List.forall₂_map_right_iff,
      List.forall₂_same]
    exact fun space _ => hwritten.sectionOfJson_spaceToJson space
  rw [toJson, ofJson, hsections]
  exact hwritten.sections

/-- A schema with a type that hides a global one and with a group of another namespace comes
back. -/
theorem ofJson_toJson_hidden :
    let text := "entity U; namespace B \x7b action all; \x7d namespace D \x7b entity U; " ++
      "entity F in U \x7b owner: U, tags?: Set<\x7b n: Long \x7d> \x7d; " ++
      "action r in [w, B::Action::\"all\"] appliesTo \x7b principal: U, resource: F \x7d; " ++
      "action w; \x7d"
    ∃ s, parse text = .ok s ∧ s.toJson.Merged ∧ ofJson s.toJson = .ok s := by
  intro text
  have hread : (parse text).toOption.isSome := by decide +kernel
  cases h : parse text with
  | error e =>
      rw [h] at hread
      cases hread
  | ok s => exact ⟨s, rfl, ofJson_toJson h⟩

end Schema

end AccessPolicy
