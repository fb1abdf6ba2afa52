import AccessPolicy.Proofs.Schema.Read
import Mathlib.Data.String.Basic

/-!
# Schemas come back from their text

* `Schema.NamesNoBuiltIn s` — no entity type that an attribute or a context entry of `s` names has,
  in the namespace of the declaration, the name of a built-in type.
* `Schema.sectionsAsRead s` — what the text of `s` is read as
  (`Schema.Written.gives_schemaSections`).
* **A schema that was read from a text comes back from its own text exactly if it names no built-in
  type** (`Schema.parse_text_iff`). A type that has to be written in full, such as the `Long` of a
  namespace, is printed by its last segment alone there, which means the built-in type
  (`Schema.not_parse_text`).
-/

namespace AccessPolicy

open Grammar Grammar.Parser

namespace Schema

/-- No attribute and no entry of a context has an entity type that bears the name of a built-in type
in the namespace of the declaration. -/
structure NamesNoBuiltIn (s : Schema) : Prop where
  /-- Attributes name no such type. -/
  attributes : ∀ e ∈ s.entityTypes, ∀ n ∈ SchemaType.namesOfFields e.2.attributes,
    relativeName (spaceOf e.1) n ∉ SchemaType.builtIn
  /-- Contexts name no such type. -/
  contexts : ∀ e ∈ s.actions, ∀ n ∈ SchemaType.namesOfFields e.2.context,
    relativeName (spaceOf e.1.type) n ∉ SchemaType.builtIn

/-- It can be looked up whether a schema names a built-in type. -/
instance (s : Schema) : Decidable s.NamesNoBuiltIn :=
  decidable_of_iff
    ((∀ e ∈ s.entityTypes, ∀ n ∈ SchemaType.namesOfFields e.2.attributes,
        relativeName (spaceOf e.1) n ∉ SchemaType.builtIn) ∧
      ∀ e ∈ s.actions, ∀ n ∈ SchemaType.namesOfFields e.2.context,
        relativeName (spaceOf e.1.type) n ∉ SchemaType.builtIn)
    ⟨fun h => ⟨h.1, h.2⟩, fun h => ⟨h.attributes, h.contexts⟩⟩

/-- What the text of a namespace is read as. -/
def sectionAsRead (s : Schema) (space : String) : Section :=
  ⟨space, (s.typesIn space).map fun t => (t.1, t.2.asRead space),
    (s.actionsIn space).map fun a => (a.1, a.2.asRead space)⟩

/-- What the text of a schema is read as. -/
def sectionsAsRead (s : Schema) : List Section :=
  s.spaces.map s.sectionAsRead

/-- A schema that names no built-in type is read as its sections. -/
theorem NamesNoBuiltIn.sectionsAsRead_eq {s : Schema} (h : s.NamesNoBuiltIn) :
    s.sectionsAsRead = s.sections := by
  refine List.map_congr_left fun space _ => ?_
  have htypes : ∀ t ∈ s.typesIn space, (t.1, t.2.asRead space) = (t.1, t.2.relative space) := by
    intro t ht
    obtain ⟨e, hmem, rfl, rfl⟩ := mem_typesIn.mp ht
    rw [EntityDecl.asRead,
      SchemaType.asReadFields_eq_relativeFields _ (h.attributes e hmem)]
    rfl
  have hactions : ∀ a ∈ s.actionsIn space, (a.1, a.2.asRead space) = (a.1, a.2.relative space) := by
    intro a ha
    obtain ⟨e, hmem, rfl, rfl⟩ := mem_actionsIn.mp ha
    rw [ActionDecl.asRead,
      SchemaType.asReadFields_eq_relativeFields _ (h.contexts e hmem)]
    rfl
  rw [sectionAsRead, List.map_congr_left htypes, List.map_congr_left hactions]

/-- The global namespace comes before all others. -/
theorem spaces_eq_cons (s : Schema) (h : "" ∈ s.spaces) :
    ∃ spaces, s.spaces = "" :: spaces ∧ ∀ space ∈ spaces, space ≠ "" := by
  have hleast : ∀ space : String, compare space "" ≠ .lt := by
    intro space hlt
    have hless : space < "" := compare_lt_iff_lt.mp hlt
    exact List.not_lt_nil space.toList hless
  have hsorted : Ascending.Sorted s.spaces := Ascending.sorted_ofList _
  have hnodup := s.nodup_spaces
  generalize s.spaces = spaces at h hsorted hnodup
  cases spaces with
  | nil => cases h
  | cons space spaces =>
      obtain ⟨hfirst, -⟩ := Ascending.sorted_cons.mp hsorted
      rcases List.mem_cons.mp h with rfl | h
      · refine ⟨spaces, rfl, fun space hspace => ?_⟩
        rintro rfl
        exact (List.nodup_cons.mp hnodup).1 hspace
      · exact absurd (hfirst "" h) (hleast space)

theorem length_spaces_le (s : Schema) {spaces : List String}
    (hspaces : ∀ space ∈ spaces, space ≠ "") :
    spaces.length ≤ (spaces.flatMap s.spaceLexemes).length := by
  refine length_flatMap_le fun space hspace => ?_
  have hempty : ¬space.isEmpty := by simpa using hspaces space hspace
  rw [spaceLexemes, if_neg hempty]
  exact List.cons_ne_nil _ _

/-- A namespace of a schema has declarations. -/
theorem sectionAsRead_nonempty {s : Schema} {space : String} (h : space ∈ s.spaces) :
    ((s.sectionAsRead space).entityTypes.isEmpty && (s.sectionAsRead space).actions.isEmpty) =
      false := by
  refine Bool.eq_false_iff.mpr fun hempty => ?_
  simp only [sectionAsRead, typesIn, actionsIn, Bool.and_eq_true, List.isEmpty_iff,
    List.map_eq_nil_iff, List.filter_eq_nil_iff, decide_eq_true_eq] at hempty
  rcases List.mem_append.mp (Ascending.mem_ofList.mp h) with hmem | hmem
  · obtain ⟨e, he, hspace⟩ := List.mem_map.mp hmem
    exact hempty.1 e he hspace
  · obtain ⟨e, he, hspace⟩ := List.mem_map.mp hmem
    exact hempty.2 e he hspace

namespace Written

variable {s : Schema} (hs : s.Written)

include hs

section reading

variable {fails : Prop} (hset : ¬ s.NamesNoBuiltIn → fails)

include hset

theorem declares_typeIn {space : String} {t : String × EntityDecl} (ht : t ∈ s.typesIn space) :
    Declares fails (·.addType (t.1, t.2.asRead space)) (entityLexemes space t.1 t.2) := by
  obtain ⟨e, hmem, rfl, rfl⟩ := mem_typesIn.mp ht
  refine declares_entity (hs.attributes e hmem).1 ?_
  rintro ⟨n, hn, heq⟩
  refine hset fun hno => hno.attributes e hmem n hn ?_
  rw [heq]
  decide

theorem declares_actionIn {space : String} {a : String × ActionDecl} (ha : a ∈ s.actionsIn space) :
    Declares fails (·.addAction (a.1, a.2.asRead space)) (actionLexemes space a.1 a.2) := by
  obtain ⟨e, hmem, rfl, rfl⟩ := mem_actionsIn.mp ha
  refine declares_action (fun g hg => ?_) (hs.context e hmem).1 ?_
  · exact (hs.actionType g (hs.groups e hmem g hg)).imp fun _ htype => htype.2
  · rintro ⟨n, hn, heq⟩
    refine hset fun hno => hno.contexts e hmem n hn ?_
    rw [heq]
    decide

/-- The declarations of a namespace are read one by one. -/
theorem gives_declarations {β : Type} {body : Nat → Section → Parser β}
    (hbody : Continues fails body) {space : String} {ms ns : List Lexeme} {b : β} {least : Nat}
    (hrest : ∀ count ≥ least, Gives fails (body count (s.sectionAsRead space)) ms b ns) :
    ∀ count ≥ least + (s.declarationLexemes space).length,
      Gives fails (body count ⟨space, [], []⟩) (s.declarationLexemes space ++ ms) b ns := by
  have htypesCount : (s.typesIn space).length ≤
      ((s.typesIn space).flatMap fun t => entityLexemes space t.1 t.2).length :=
    length_flatMap_le fun t _ => List.cons_ne_nil _ _
  have hactionsCount : (s.actionsIn space).length ≤
      ((s.actionsIn space).flatMap fun a => actionLexemes space a.1 a.2).length :=
    length_flatMap_le fun a _ => List.cons_ne_nil _ _
  have hactionsRead : ∀ count ≥ least + (s.actionsIn space).length, Gives fails
      (body count ⟨space, (s.typesIn space).map fun t => (t.1, t.2.asRead space), []⟩)
      ((s.actionsIn space).flatMap (fun a => actionLexemes space a.1 a.2) ++ ms) b ns := by
    refine hbody.each (fun a ha => hs.declares_actionIn hset ha) ?_
    rw [Section.foldl_addAction]
    exact hrest
  have htypesRead : ∀ count ≥ least + (s.actionsIn space).length + (s.typesIn space).length,
      Gives fails (body count ⟨space, [], []⟩)
        ((s.typesIn space).flatMap (fun t => entityLexemes space t.1 t.2) ++
          ((s.actionsIn space).flatMap (fun a => actionLexemes space a.1 a.2) ++ ms)) b ns := by
    refine hbody.each (fun t ht => hs.declares_typeIn hset ht) ?_
    rw [Section.foldl_addType]
    exact hactionsRead
  intro count hcount
  -- The bound counts tokens, and no declaration is without one.
  rw [declarationLexemes, List.length_append] at hcount
  rw [declarationLexemes, List.append_assoc]
  exact htypesRead count (by omega)

/-- Namespaces are read one by one, behind the global declarations. -/
theorem gives_namespaces {global : Section} : (spaces : List String) →
    (∀ space ∈ spaces, space ≠ "") → ∀ count > spaces.length, Gives fails (schemaBody count global)
      (spaces.flatMap s.spaceLexemes) (global, spaces.map s.sectionAsRead) []
  | [], _, count, hcount => by
      obtain ⟨count, rfl⟩ := Nat.exists_eq_add_one_of_ne_zero (Nat.ne_zero_of_lt hcount)
      unfold schemaBody
      exact yields_peek.andThen yields_pure.gives
  | space :: spaces, hspaces, count, hcount => by
      obtain ⟨hspace, hspaces⟩ := List.forall_mem_cons.mp hspaces
      rw [List.length_cons] at hcount
      obtain ⟨count, rfl⟩ := Nat.exists_eq_add_one_of_ne_zero (Nat.ne_zero_of_lt hcount)
      have hempty : ¬space.isEmpty := by simpa using hspace
      have hls : (space :: spaces).flatMap s.spaceLexemes = .ident "namespace" ::
          (Name.lexemes space ++ .sym .openBrace :: (s.declarationLexemes space ++
            .sym .closeBrace :: spaces.flatMap s.spaceLexemes)) := by
        rw [List.flatMap_cons, spaceLexemes, if_neg hempty]
        simp
      have hclose : ∀ count ≥ 1, Gives fails (namespaceBody count (s.sectionAsRead space))
          (.sym .closeBrace :: spaces.flatMap s.spaceLexemes) (s.sectionAsRead space)
          (spaces.flatMap s.spaceLexemes) := by
        intro count hcount
        obtain ⟨count, rfl⟩ := Nat.exists_eq_add_one_of_ne_zero (Nat.ne_zero_of_lt hcount)
        unfold namespaceBody
        exact yields_eat.andThen yields_pure.gives
      rw [hls]
      unfold schemaBody
      refine yields_peek.andThen (yields_eat.andThen ?_)
      refine (yields_typeName (by simp)).andThen (yields_expect.andThen ?_)
      refine yields_remaining.andThen ?_
      refine (hs.gives_declarations hset continues_namespaceBody hclose _ ?_).bind ?_
      · rw [List.length_append, List.length_cons]
        omega
      · exact (gives_namespaces spaces hspaces count (by omega)).bind yields_pure.gives

/-- **The text of a schema** is read, unless a type in it is called `Set`. -/
theorem gives_schemaSections : Gives fails schemaSections s.lexemes s.sectionsAsRead [] := by
  unfold schemaSections lexemes sectionsAsRead
  refine yields_remaining.andThen ?_
  by_cases hglobal : "" ∈ s.spaces
  · -- What is global comes first, with no braces around it.
    obtain ⟨spaces, hsplit, hspaces⟩ := s.spaces_eq_cons hglobal
    have hlength := s.length_spaces_le hspaces
    have hnamespaces : ∀ count ≥ spaces.length + 1, Gives fails
        (schemaBody count (s.sectionAsRead "")) (spaces.flatMap s.spaceLexemes)
        (s.sectionAsRead "", spaces.map s.sectionAsRead) [] :=
      hs.gives_namespaces hset spaces hspaces
    have hfirst : s.spaceLexemes "" = s.declarationLexemes "" := if_pos rfl
    rw [hsplit, List.flatMap_cons, List.map_cons, hfirst]
    refine (hs.gives_declarations hset continues_schemaBody hnamespaces _ ?_).bind ?_
    · rw [List.length_append]
      omega
    · change Gives fails (if _ then _ else _) _ _ _
      rw [sectionAsRead_nonempty hglobal, if_neg Bool.false_ne_true]
      exact yields_pure.gives
  · have hspaces : ∀ space ∈ s.spaces, space ≠ "" := fun space hspace heq => hglobal (heq ▸ hspace)
    have hlength := s.length_spaces_le hspaces
    refine (hs.gives_namespaces hset s.spaces hspaces _ (by omega)).bind ?_
    exact yields_pure.gives

end reading

/-- **What a text is read as** makes the schema that was printed only if that names no built-in
type. -/
theorem namesNoBuiltIn_of_ofSections (h : ofSections s.sectionsAsRead = .ok s) :
    s.NamesNoBuiltIn := by
  have horigins := origins_of_ofSections h
  have hwf := wellFormed_of_ofSections h
  constructor
  · intro e he
    obtain ⟨x, hx, d, hd, hname, hd'⟩ := horigins.types e he
    obtain ⟨space, -, rfl⟩ := List.mem_map.mp hx
    obtain ⟨t, ht, rfl⟩ := List.mem_map.mp hd
    obtain ⟨e', hmem, rfl, rfl⟩ := mem_typesIn.mp ht
    -- What became `e` was read from the text of `e`, for the text of no other bears its name.
    have hkey : e.1 = e'.1 :=
      hname.trans (qualify_splitName (hs.qualified.types e'.1 (List.mem_map_of_mem hmem)))
    obtain rfl := List.inj_on_of_nodup_map hwf.entityTypes.nodup he hmem hkey
    have hresolved := Declared.attributes_of_entityDecl hd'
    exact Declared.relativeName_not_mem_builtIn_of_fields _ hresolved
  · intro e he
    obtain ⟨x, hx, d, hd, hname, hd'⟩ := horigins.actions e he
    obtain ⟨space, -, rfl⟩ := List.mem_map.mp hx
    obtain ⟨a, ha, rfl⟩ := List.mem_map.mp hd
    obtain ⟨e', hmem, rfl, rfl⟩ := mem_actionsIn.mp ha
    have hkey : e.1 = e'.1 :=
      hname.trans (qualify_spaceOf_action (hs.qualified.actions e'.1 (List.mem_map_of_mem hmem)))
    obtain rfl := List.inj_on_of_nodup_map hwf.actions.nodup he hmem hkey
    have hresolved := Declared.context_of_actionDecl hd'
    exact Declared.relativeName_not_mem_builtIn_of_fields _ hresolved

/-- The text of a schema is read as said, and then built. -/
theorem parse_text_of_read {fails : Prop} (hset : ¬ s.NamesNoBuiltIn → fails) :
    parse s.text = ofSections s.sectionsAsRead ∨ fails ∧ ∃ e, parse s.text = .error e := by
  rcases readAll_of_gives "unexpected input after schema" hs.spells_text
    (hs.gives_schemaSections hset) with hread | ⟨hfails, e, hread⟩
  · left
    rw [parse, hread]
    rfl
  · refine .inr ⟨hfails, e, ?_⟩
    rw [parse, hread]
    rfl

end Written

/-- **A schema that was read from a text comes back from its own text** exactly if it names no
built-in type. -/
theorem parse_text_iff {text : String} {s : Schema} (h : parse text = .ok s) :
    parse s.text = .ok s ↔ s.NamesNoBuiltIn := by
  have hs := written_of_parse h
  constructor
  · intro hagain
    -- The reader may complain of anything: a text that it does not read does not give `s` back.
    have hset : ¬ s.NamesNoBuiltIn → True := fun _ => trivial
    rcases hs.parse_text_of_read hset with hread | ⟨-, e, hread⟩
    · exact hs.namesNoBuiltIn_of_ofSections (hread.symm.trans hagain)
    · rw [hread] at hagain
      cases hagain
  · intro hno
    rcases hs.parse_text_of_read (fun hnot => hnot hno) with hread | ⟨hfalse, -⟩
    · rw [hread, hno.sectionsAsRead_eq]
      exact hs.sections
    · exact hfalse.elim

/-- A schema with types of other namespaces, and with records in sets, comes back. -/
theorem parse_text_iff_nested :
    let text := "namespace B \x7b entity Long; action all; \x7d namespace D \x7b " ++
      "entity U in B::Long \x7b \"a b\"?: Set<\x7b n: Long, by: B::Long \x7d> \x7d; " ++
      "action r in [B::Action::\"all\"] appliesTo \x7b principal: U, resource: U \x7d; \x7d"
    ∃ s, parse text = .ok s ∧ parse s.text = .ok s := by
  intro text
  have hread : (parse text).toOption.any fun s => s.NamesNoBuiltIn := by decide +kernel
  cases h : parse text with
  | error e =>
      rw [h] at hread
      cases hread
  | ok s =>
      rw [h] at hread
      exact ⟨s, rfl, (parse_text_iff h).mpr (of_decide_eq_true hread)⟩

/-- **A schema that does not come back from its text**: inside its namespace, the type `A::Long` is
printed as `Long`, and is read as the built-in type. -/
theorem not_parse_text : ¬ ∀ (text : String) (s : Schema), parse text = .ok s →
    parse s.text = .ok s := by
  intro hall
  let text := "namespace A \x7b entity Long; entity User \x7b x: A::Long \x7d; \x7d"
  have hother : (parse text).toOption.any fun s => (parse s.text).toOption ≠ some s := by
    decide +kernel
  cases h : parse text with
  | error e =>
      rw [h] at hother
      cases hother
  | ok s =>
      rw [h] at hother
      have hne : (parse s.text).toOption ≠ some s := of_decide_eq_true hother
      rw [hall text s h] at hne
      exact hne rfl

end Schema

end AccessPolicy
