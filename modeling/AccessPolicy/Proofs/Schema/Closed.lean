import AccessPolicy.Proofs.Schema.Hierarchy
import AccessPolicy.Proofs.Schema.Resolved

/-!
# Which sections make a schema

* `Schema.Unresolved xs x` — the section `x` names something that no section declares. **Sections
  are rejected** exactly if something is declared twice or named without being declared
  (`Schema.exists_ofSections_error_iff`).
* `Schema.resolved xs` — the declarations of sections, each under its full name and with the names
  in it that those in it stand for. **A schema that is built** is this one
  (`Schema.ofSections_eq_ok_iff_resolved`).
* `Schema.Reordered xs ys` — the same declarations in the same namespaces, in any order and in any
  blocks. **The order does not matter** (`Schema.Reordered.ofSections`).
* `Schema.Closed s` — what `s` names it declares, and an action is in the groups that memberships
  lead to. All of it is said of any sections in `Schema.ofSections_closed`.
-/

namespace AccessPolicy.Schema

variable {xs ys zs : List Section} {s : Schema} {space : String}

/-! ### References that are not resolved -/

/-- Sections declare an entity type of a namespace. The qualified name says which type that is, so
that it does not matter where between its segments the namespace of a block ends. -/
def DeclaresType (xs : List Section) (space name : String) : Prop :=
  Name.qualify space name ∈ typeNamesOf xs

/-- Sections declare an action of a namespace. -/
def DeclaresAction (xs : List Section) (space id : String) : Prop :=
  actionUid space id ∈ actionUidsOf xs

/-- The name of an entity type that is written in a namespace stands for nothing. -/
inductive UnresolvedType (xs : List Section) (space name : String) : Prop
  /-- Neither its namespace nor the global one declares a name without a separator. -/
  | plain (hname : hasSeparator name.toList = false) (hown : ¬DeclaresType xs space name)
      (hglobal : ¬DeclaresType xs "" name)
  /-- A name with a separator is not declared as it is written. -/
  | qualified (hname : hasSeparator name.toList) (h : name ∉ typeNamesOf xs)

/-- A group that is written in a namespace stands for nothing. -/
inductive UnresolvedGroup (xs : List Section) (space : String) (g : Uid) : Prop
  /-- A group of the plain type of actions is no action of its namespace. -/
  | own (htype : g.type = "Action") (h : ¬DeclaresAction xs space g.id)
  /-- Another group is no action as it is written. -/
  | other (htype : g.type ≠ "Action") (h : g ∉ actionUidsOf xs)

/-- A declaration in a section names something that stands for nothing. -/
inductive Unresolved (xs : List Section) (x : Section) : Prop
  /-- The declaration of an entity type names it as a parent or in the type of an attribute. -/
  | ofType {d : String × EntityDecl} {name : String} (hd : d ∈ x.entityTypes)
      (hname : name ∈ d.2.typeNames) (h : UnresolvedType xs x.name name)
  /-- The declaration of an action names it among what it applies to or in the type of a context. -/
  | ofAction {d : String × ActionDecl} {name : String} (hd : d ∈ x.actions)
      (hname : name ∈ d.2.typeNames) (h : UnresolvedType xs x.name name)
  /-- The declaration of an action names it as a group. -/
  | ofGroup {d : String × ActionDecl} {g : Uid} (hd : d ∈ x.actions) (hg : g ∈ d.2.memberOf)
      (h : UnresolvedGroup xs x.name g)

/-- The name of an entity type is unresolved exactly if it is not found among what is declared. -/
theorem unresolvedType_iff {name : String} :
    UnresolvedType xs space name ↔ ¬(declaredBy xs).FindsType space name := by
  have hmem : ∀ t, t ∈ (declaredBy xs).types ↔ t ∈ typeNamesOf xs := fun t => List.mem_reverse
  rw [Declared.FindsType, Declared.IsOwn, hmem, hmem, not_or, not_and]
  constructor
  · rintro (⟨hname, hown, hglobal⟩ | ⟨hname, h⟩)
    · exact ⟨fun _ => hown, hglobal⟩
    · exact ⟨fun hplain => absurd hname (by simp [hplain]), h⟩
  · rintro ⟨hown, hglobal⟩
    cases hname : hasSeparator name.toList with
    | false => exact .plain hname (hown hname) hglobal
    | true => exact .qualified hname hglobal

/-- A reference to a group is unresolved exactly if it is not found among what is declared. -/
theorem unresolvedGroup_iff {g : Uid} :
    UnresolvedGroup xs space g ↔ ¬(declaredBy xs).FindsGroup space g := by
  have hmem : ∀ u, u ∈ (declaredBy xs).actions ↔ u ∈ actionUidsOf xs := fun u => List.mem_reverse
  rw [Declared.FindsGroup, hmem, fullGroup]
  constructor
  · rintro (⟨htype, h⟩ | ⟨htype, h⟩)
    · rw [if_pos htype]
      exact h
    · rw [if_neg htype]
      exact h
  · intro h
    by_cases htype : g.type = "Action"
    · rw [if_pos htype] at h
      exact .own htype h
    · rw [if_neg htype] at h
      exact .other htype h

/-- A section is resolved exactly if its declarations are. -/
theorem not_unresolved_iff {x : Section} : ¬Unresolved xs x ↔
    (∀ d ∈ x.entityTypes, ∀ n ∈ d.2.typeNames, (declaredBy xs).FindsType x.name n) ∧
    ∀ d ∈ x.actions, (∀ g ∈ d.2.memberOf, (declaredBy xs).FindsGroup x.name g) ∧
      ∀ n ∈ d.2.typeNames, (declaredBy xs).FindsType x.name n := by
  constructor
  · intro h
    refine ⟨fun d hd n hn => ?_, fun d hd => ⟨fun g hg => ?_, fun n hn => ?_⟩⟩
    · exact by_contra fun hnot => h (.ofType hd hn (unresolvedType_iff.mpr hnot))
    · exact by_contra fun hnot => h (.ofGroup hd hg (unresolvedGroup_iff.mpr hnot))
    · exact by_contra fun hnot => h (.ofAction hd hn (unresolvedType_iff.mpr hnot))
  · rintro ⟨htypes, hactions⟩ (⟨hd, hn, h⟩ | ⟨hd, hn, h⟩ | ⟨hd, hg, h⟩)
    · exact unresolvedType_iff.mp h (htypes _ hd _ hn)
    · exact unresolvedType_iff.mp h ((hactions _ hd).2 _ hn)
    · exact unresolvedGroup_iff.mp h ((hactions _ hd).1 _ hg)

/-! ### What a schema is built of -/

/-- The entry that the declaration of an entity type makes. -/
def typeEntry (xs : List Section) (space : String) (d : String × EntityDecl) :
    String × EntityDecl :=
  (Name.qualify space d.1, d.2.rename ((declaredBy xs).fullType space))

/-- The entry that the declaration of an action makes. -/
def actionEntry (xs : List Section) (space : String) (d : String × ActionDecl) :
    Uid × ActionDecl :=
  (actionUid space d.1, d.2.rename ((declaredBy xs).fullType space) (fullGroup space))

/-- The schema of the declarations in sections, with all names in full. -/
def resolved (xs : List Section) : Schema :=
  ⟨Ascending.ofPairs (xs.flatMap fun x => x.entityTypes.map (typeEntry xs x.name)),
    Ascending.ofPairs (xs.flatMap fun x => x.actions.map (actionEntry xs x.name))⟩

/-- The entity types of a section are resolved exactly if every name in them is found, and then to
their entries. -/
theorem resolvesTypes_iff (x : Section) (es : List (String × EntityDecl)) :
    ResolvesTypes (declaredBy xs) x es ↔
      (∀ d ∈ x.entityTypes, ∀ n ∈ d.2.typeNames, (declaredBy xs).FindsType x.name n) ∧
        x.entityTypes.map (typeEntry xs x.name) = es := by
  refine forall₂_iff_map_eq fun d e => ?_
  obtain ⟨name, d'⟩ := e
  rw [Declared.entityDecl_eq_ok_iff, typeEntry, Prod.mk.injEq, and_left_comm, eq_comm]

/-- The actions of a section are resolved exactly if every group and every name in them is found,
and then to their entries. -/
theorem resolvesActions_iff (x : Section) (es : List (Uid × ActionDecl)) :
    ResolvesActions (declaredBy xs) x es ↔
      (∀ d ∈ x.actions, (∀ g ∈ d.2.memberOf, (declaredBy xs).FindsGroup x.name g) ∧
        ∀ n ∈ d.2.typeNames, (declaredBy xs).FindsType x.name n) ∧
        x.actions.map (actionEntry xs x.name) = es := by
  refine forall₂_iff_map_eq fun d e => ?_
  obtain ⟨u, d'⟩ := e
  rw [Declared.actionDecl_eq_ok_iff, actionEntry, Prod.mk.injEq, and_left_comm, eq_comm]

/-- **A schema is built** exactly if nothing is declared twice and all sections are resolved, and it
has their declarations with all names in full. -/
theorem ofSections_eq_ok_iff_resolved : ofSections xs = .ok s ↔
    ((typeNamesOf xs).Nodup ∧ (actionUidsOf xs).Nodup ∧ ∀ x ∈ xs, ¬Unresolved xs x) ∧
      s = resolved xs := by
  rw [ofSections_eq_ok_iff]
  simp only [forall₂_iff_map_eq resolvesTypes_iff, forall₂_iff_map_eq resolvesActions_iff,
    not_unresolved_iff, forall₂_and]
  constructor
  · rintro ⟨hnames, huids, _, _, ⟨hts, rfl⟩, ⟨has, rfl⟩, rfl⟩
    exact ⟨⟨hnames, huids, hts, has⟩, rfl⟩
  · rintro ⟨⟨hnames, huids, hts, has⟩, rfl⟩
    exact ⟨hnames, huids, _, _, ⟨hts, rfl⟩, ⟨has, rfl⟩, rfl⟩

/-- **Sections are rejected** exactly if something is declared twice or not resolved. -/
theorem exists_ofSections_error_iff : (∃ e, ofSections xs = .error e) ↔
    ¬(typeNamesOf xs).Nodup ∨ ¬(actionUidsOf xs).Nodup ∨ ∃ x ∈ xs, Unresolved xs x := by
  have hbuilt : (∃ s, ofSections xs = .ok s) ↔
      (typeNamesOf xs).Nodup ∧ (actionUidsOf xs).Nodup ∧ ∀ x ∈ xs, ¬Unresolved xs x := by
    simp only [ofSections_eq_ok_iff_resolved, exists_and_left, exists_eq, and_true]
  rw [exists_error_iff, hbuilt, not_and_or, not_and_or]
  simp only [not_forall, not_not, exists_prop]

/-! ### The order of declarations

All names are declared before any is resolved, and declarations are kept by their names. So neither
pass depends on the order in which sections and declarations come. -/

/-- The declarations of one kind in sections, each with its namespace, in order. -/
def declarationsOf {δ : Type} (f : Section → List (String × δ)) (xs : List Section) :
    List (String × String × δ) :=
  xs.flatMap fun x => (f x).map fun d => (x.name, d)

/-- The same declarations in the same namespaces, in any order and in any blocks. -/
structure Reordered (xs ys : List Section) : Prop where
  /-- The declarations of entity types are the same. -/
  types : (declarationsOf Section.entityTypes xs).Perm (declarationsOf Section.entityTypes ys)
  /-- The declarations of actions are the same. -/
  actions : (declarationsOf Section.actions xs).Perm (declarationsOf Section.actions ys)

section

variable {β δ κ : Type} {f : Section → List (String × δ)}

/-- A declaration in a namespace is in a section of that namespace. -/
theorem mem_declarationsOf {d : String × δ} :
    (space, d) ∈ declarationsOf f xs ↔ ∃ x ∈ xs, x.name = space ∧ d ∈ f x := by
  simp only [declarationsOf, List.mem_flatMap, List.mem_map, Prod.mk.injEq]
  constructor
  · rintro ⟨x, hx, _, hd, hname, rfl⟩
    exact ⟨x, hx, hname, hd⟩
  · rintro ⟨x, hx, hname, hd⟩
    exact ⟨x, hx, d, hd, hname, rfl⟩

/-- What is made of each declaration of each section, in order. -/
theorem map_declarationsOf (g : String → String × δ → β) :
    (declarationsOf f xs).map (fun m => g m.1 m.2) = xs.flatMap fun x => (f x).map (g x.name) := by
  rw [declarationsOf, List.map_flatMap]
  simp only [List.map_map]
  rfl

/-- What is made of the same declarations in another order is the same in another order. -/
theorem flatMap_map_perm (h : (declarationsOf f xs).Perm (declarationsOf f ys))
    (g : String → String × δ → β) : (xs.flatMap fun x => (f x).map (g x.name)).Perm
      (ys.flatMap fun y => (f y).map (g y.name)) := by
  rw [← map_declarationsOf, ← map_declarationsOf]
  exact h.map _

/-- The keys of the entries that are made of each declaration of each section. -/
theorem keys_flatMap_map (g : String → String × δ → κ × β) :
    Ascending.keys (xs.flatMap fun x => (f x).map (g x.name)) =
      xs.flatMap fun x => (f x).map fun d => (g x.name d).1 := by
  rw [Ascending.keys, List.map_flatMap]
  simp only [List.map_map]
  rfl

end

namespace Reordered

/-- Reordering declarations can be undone. -/
theorem symm (h : Reordered xs ys) : Reordered ys xs :=
  ⟨h.types.symm, h.actions.symm⟩

variable (h : Reordered xs ys)

include h

/-- Reordered sections declare the same entity types, as often as before. -/
theorem typeNames_perm : (typeNamesOf xs).Perm (typeNamesOf ys) :=
  flatMap_map_perm h.types fun space d => Name.qualify space d.1

/-- Reordered sections declare the same actions, as often as before. -/
theorem actionUids_perm : (actionUidsOf xs).Perm (actionUidsOf ys) :=
  flatMap_map_perm h.actions fun space d => actionUid space d.1

/-- Reordered sections declare the same names. -/
theorem same : (declaredBy xs).Same (declaredBy ys) := by
  constructor
  · intro t
    rw [declaredBy, declaredBy, List.mem_reverse, List.mem_reverse]
    exact h.typeNames_perm.mem_iff
  · intro u
    rw [declaredBy, declaredBy, List.mem_reverse, List.mem_reverse]
    exact h.actionUids_perm.mem_iff

/-- What the sections name is found in either order. -/
theorem not_unresolved (hxs : ∀ x ∈ xs, ¬Unresolved xs x) : ∀ y ∈ ys, ¬Unresolved ys y := by
  simp only [not_unresolved_iff] at hxs ⊢
  intro y hy
  constructor
  · intro d hd
    obtain ⟨x, hx, hname, hd⟩ :=
      mem_declarationsOf.mp (h.types.mem_iff.mpr (mem_declarationsOf.mpr ⟨y, hy, rfl, hd⟩))
    rw [← hname]
    exact fun n hn => h.same.findsType_iff.mp ((hxs x hx).1 d hd n hn)
  · intro d hd
    obtain ⟨x, hx, hname, hd⟩ :=
      mem_declarationsOf.mp (h.actions.mem_iff.mpr (mem_declarationsOf.mpr ⟨y, hy, rfl, hd⟩))
    obtain ⟨hgroups, htypes⟩ := (hxs x hx).2 d hd
    rw [← hname]
    exact ⟨fun g hg => h.same.findsGroup_iff.mp (hgroups g hg),
      fun n hn => h.same.findsType_iff.mp (htypes n hn)⟩

/-- If nothing is declared twice, either order makes the same maps. -/
theorem resolved_eq (htypes : (typeNamesOf xs).Nodup) (hactions : (actionUidsOf xs).Nodup) :
    resolved xs = resolved ys := by
  have htypeEntry : typeEntry xs = typeEntry ys := by
    funext space d
    rw [typeEntry, typeEntry, h.same.fullType_eq]
  have hactionEntry : actionEntry xs = actionEntry ys := by
    funext space d
    rw [actionEntry, actionEntry, h.same.fullType_eq]
  rw [resolved, resolved, htypeEntry, hactionEntry]
  congr 1
  · refine Ascending.ofPairs_perm (flatMap_map_perm h.types (typeEntry ys)) ?_
    rw [keys_flatMap_map]
    exact h.typeNames_perm.nodup htypes
  · refine Ascending.ofPairs_perm (flatMap_map_perm h.actions (actionEntry ys)) ?_
    rw [keys_flatMap_map]
    exact h.actionUids_perm.nodup hactions

/-- **The order does not matter.** -/
theorem ofSections (hs : ofSections xs = .ok s) : ofSections ys = .ok s := by
  obtain ⟨⟨hnames, huids, hresolved⟩, rfl⟩ := ofSections_eq_ok_iff_resolved.mp hs
  exact ofSections_eq_ok_iff_resolved.mpr
    ⟨⟨h.typeNames_perm.nodup hnames, h.actionUids_perm.nodup huids, h.not_unresolved hresolved⟩,
      h.resolved_eq hnames huids⟩

end Reordered

/-! ### Closed schemas -/

/-- What a schema names it declares, and its groups are what memberships lead to. -/
structure Closed (s : Schema) : Prop where
  /-- The types named by declarations of entity types, in attributes as well, are declared. -/
  entityTypes : ∀ m ∈ s.entityTypes, ∀ name ∈ m.2.typeNames, s.hasType name
  /-- The types named by declarations of actions, in contexts as well, are declared. -/
  actions : ∀ m ∈ s.actions, ∀ name ∈ m.2.typeNames, s.hasType name
  /-- The groups of actions are declared. -/
  groups : ∀ m ∈ s.actions, ∀ g ∈ m.2.memberOf, s.hasAction g
  /-- An action is in exactly the groups that any number of memberships lead to. -/
  inGroup : ∀ action group, s.inGroup action group ↔ Relation.ReflTransGen s.HasGroup action group
  /-- The search for the groups of an action ends, also where groups form cycles. -/
  ends : ∀ action found, Reach.Explores s.groupsOf (s.groupsOf action) [] found ↔
    found = Reach.nodes s.groupsOf s.groupCount action

/-- A schema that was built is closed. -/
theorem closed_of_ofSections (hs : ofSections xs = .ok s) : s.Closed := by
  have hwf := wellFormed_of_ofSections hs
  have horigins := origins_of_ofSections hs
  have htype : ∀ {name : String}, name ∈ (declaredBy xs).types → s.hasType name :=
    fun hmem => Ascending.hasKey_iff.mpr ((horigins.same.types _).mp hmem)
  have haction : ∀ {u : Uid}, u ∈ (declaredBy xs).actions → s.hasAction u :=
    fun hmem => Ascending.hasKey_iff.mpr ((horigins.same.actions _).mp hmem)
  constructor
  case entityTypes =>
    intro m hm name hname
    obtain ⟨x, -, d, -, -, hd⟩ := horigins.types m hm
    exact htype (Declared.typeNames_entityDecl hd name hname)
  case actions =>
    intro m hm name hname
    obtain ⟨x, -, d, -, -, hd⟩ := horigins.actions m hm
    exact htype (Declared.typeNames_actionDecl hd name hname)
  case groups =>
    intro m hm g hg
    obtain ⟨x, -, d, -, -, hd⟩ := horigins.actions m hm
    exact haction (Declared.memberOf_actionDecl hd g hg)
  case inGroup => exact fun action group => hwf.inGroup_iff_reflTransGen
  case ends => exact fun action found => hwf.explores_groupsOf_iff

/-- **Sections make a closed schema or none.** They are rejected exactly if an entity type or an
action is declared twice or a reference is not resolved; a schema that is built of them has their
declarations with all names in full, and is closed; and the same declarations in another order, or
cut into other blocks, make the same schema or none. -/
theorem ofSections_closed (xs : List Section) :
    ((∃ e, ofSections xs = .error e) ↔
      ¬(typeNamesOf xs).Nodup ∨ ¬(actionUidsOf xs).Nodup ∨ ∃ x ∈ xs, Unresolved xs x) ∧
    (∀ s, ofSections xs = .ok s → s = resolved xs ∧ s.Closed) ∧
    ∀ ys, Reordered xs ys → ∀ s, ofSections xs = .ok s ↔ ofSections ys = .ok s :=
  ⟨exists_ofSections_error_iff,
    fun _ hs => ⟨(ofSections_eq_ok_iff_resolved.mp hs).2, closed_of_ofSections hs⟩,
    fun _ h _ => ⟨h.ofSections, h.symm.ofSections⟩⟩

/-- A shop has an item type of its own beside the global one, and two actions that are groups of
each other. In one block or in two, its schema is the same. -/
theorem ofSections_closed_shop :
    let item : String × EntityDecl := ("Item", ⟨[], []⟩)
    let basket : String × EntityDecl := ("Basket", ⟨["Item"], [("first", false, .entity "Item")]⟩)
    let buy : String × ActionDecl := ("buy", ⟨[⟨"Action", "pay"⟩], ["Basket"], ["Item"], []⟩)
    let pay : String × ActionDecl := ("pay", ⟨[⟨"Shop::Action", "buy"⟩], [], [], []⟩)
    let xs : List Section := [⟨"Shop", [basket, item], [buy, pay]⟩, ⟨"", [item], []⟩]
    let ys : List Section := [⟨"Shop", [item], [pay]⟩, ⟨"", [item], []⟩, ⟨"Shop", [basket], [buy]⟩]
    let s : Schema := ⟨[("Item", ⟨[], []⟩),
      ("Shop::Basket", ⟨["Shop::Item"], [("first", false, .entity "Shop::Item")]⟩),
      ("Shop::Item", ⟨[], []⟩)],
      [(⟨"Shop::Action", "buy"⟩, ⟨[⟨"Shop::Action", "pay"⟩], ["Shop::Basket"], ["Shop::Item"], []⟩),
        (⟨"Shop::Action", "pay"⟩, ⟨[⟨"Shop::Action", "buy"⟩], [], [], []⟩)]⟩
    ofSections xs = .ok s ∧ s.Closed ∧ Reordered xs ys ∧ ofSections ys = .ok s ∧
      s.inGroup ⟨"Shop::Action", "buy"⟩ ⟨"Shop::Action", "pay"⟩ ∧
      s.inGroup ⟨"Shop::Action", "pay"⟩ ⟨"Shop::Action", "buy"⟩ := by
  intro item basket buy pay xs ys s
  have hs : ofSections xs = .ok s := by decide +kernel
  have hreordered : Reordered xs ys := ⟨by decide +kernel, by decide +kernel⟩
  obtain ⟨-, hclosed, horder⟩ := ofSections_closed xs
  exact ⟨hs, (hclosed s hs).2, hreordered, (horder ys hreordered s).mp hs, by decide +kernel,
    by decide +kernel⟩

end AccessPolicy.Schema
