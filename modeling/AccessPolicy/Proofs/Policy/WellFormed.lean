import AccessPolicy.Grammar.Token
import AccessPolicy.Proofs.Ascending
import AccessPolicy.Proofs.Expr.Parts
import AccessPolicy.Proofs.Policy.Set

/-!
# Well-formed policies

What holds of every policy that was read from a text or from a tree.

* `Scope.Allowed slot s` — the scope `s` may stand where the given slot may, which is what the
  checks of single scopes decide (`Scope.allowed_iff_fitsEntity`, `Scope.allowed_iff_fitsAction`).
* `Policy.Shaped` — the scopes and the annotations have the shapes that can be written.
* `Policy.WellFormed`, `PolicySet.WellFormed` — conditions are valid and not too deep, ids are
  distinct, and links fit their templates.
* `PolicySet.Sound` — the same but for the uids that are bound to slots, of which linking asks
  nothing. A set is well-formed exactly if it is sound and binds valid uids
  (`PolicySet.wellFormed_iff`).
* **Sets stay sound** (`PolicySet.Sound.add`, `PolicySet.Sound.link`) **and well-formed**
  (`PolicySet.WellFormed.add`, `PolicySet.WellFormed.link`), whatever well-formed policy is added
  and whatever template is linked, and so does what is built of them (`PolicySet.Built.wellFormed`).
-/

namespace AccessPolicy

/-! ### Scopes -/

/-- Whether a reference is a valid uid or the slot of its scope. -/
def Reference.fits (slot : Slot) : Reference → Bool
  | uid u => u.isValid
  | .slot s => s = slot

namespace Scope

/-- Whether a scope can be that of a principal or a resource with the given slot. -/
def fitsEntity (slot : Slot) : Scope → Bool
  | any => true
  | eq r | mem r => r.fits slot
  | memAny _ => false
  | is type => Name.isTypeName type
  | isMem type r => Name.isTypeName type && r.fits slot

/-- Whether a scope can be that of an action. -/
def fitsAction : Scope → Bool
  | any => true
  | eq (.uid u) | mem (.uid u) => u.isValid
  | memAny us => us.all (·.isValid)
  | _ => false

end Scope

/-! ### Scopes by the slot of their place

One predicate says for all three scopes what may stand there. The scope of the action is the one
without a slot. -/

/-- A reference is a valid uid, or the slot that may stand in its place. -/
inductive Reference.Allowed (slot : Option Slot) : Reference → Prop
  | uid {u : Uid} (hu : u.isValid) : Allowed slot (.uid u)
  | slot {s : Slot} (hs : slot = some s) : Allowed slot (.slot s)

/-- A scope may stand where the given slot may: only that of the action has none. -/
inductive Scope.Allowed (slot : Option Slot) : Scope → Prop
  | any : Allowed slot .any
  | eq {r : Reference} (hr : r.Allowed slot) : Allowed slot (.eq r)
  | mem {r : Reference} (hr : r.Allowed slot) : Allowed slot (.mem r)
  | memAny {us : List Uid} (hnone : slot = none) (hus : ∀ u ∈ us, u.isValid) :
      Allowed slot (.memAny us)
  | is {type : String} (hsome : slot.isSome) (htype : Name.isTypeName type) :
      Allowed slot (.is type)
  | isMem {type : String} {r : Reference} (hsome : slot.isSome) (htype : Name.isTypeName type)
      (hr : r.Allowed slot) : Allowed slot (.isMem type r)

/-- The check of a reference decides whether it may stand in its place. -/
theorem Reference.allowed_iff_fits {r : Reference} {t : Slot} :
    r.Allowed (some t) ↔ r.fits t := by
  constructor
  · intro h
    cases h with
    | uid hu => exact hu
    | slot hs => exact decide_eq_true (Option.some.inj hs).symm
  · intro h
    cases r with
    | uid u => exact .uid h
    | slot s => exact .slot (congrArg some (of_decide_eq_true h).symm)

/-- The check of a scope of a principal or a resource decides whether it may stand there. -/
theorem Scope.allowed_iff_fitsEntity {s : Scope} {t : Slot} :
    s.Allowed (some t) ↔ s.fitsEntity t := by
  constructor
  · intro h
    cases h with
    | any => rfl
    | eq hr => exact Reference.allowed_iff_fits.mp hr
    | mem hr => exact Reference.allowed_iff_fits.mp hr
    | memAny hnone _ => cases hnone
    | is _ htype => exact htype
    | isMem _ htype hr =>
        exact Bool.and_eq_true_iff.mpr ⟨htype, Reference.allowed_iff_fits.mp hr⟩
  · intro h
    cases s with
    | any => exact .any
    | eq r => exact .eq (Reference.allowed_iff_fits.mpr h)
    | mem r => exact .mem (Reference.allowed_iff_fits.mpr h)
    | memAny us => cases h
    | is type => exact .is rfl h
    | isMem type r =>
        obtain ⟨htype, hr⟩ := Bool.and_eq_true_iff.mp h
        exact .isMem rfl htype (Reference.allowed_iff_fits.mpr hr)

/-- The check of a scope of an action decides whether it may stand there. -/
theorem Scope.allowed_iff_fitsAction {s : Scope} : s.Allowed none ↔ s.fitsAction := by
  constructor
  · intro h
    cases h with
    | any => rfl
    | eq hr | mem hr =>
        cases hr with
        | uid hu => exact hu
        | slot hs => cases hs
    | memAny _ hus => exact List.all_eq_true.mpr hus
    | is hsome _ => cases hsome
    | isMem hsome _ _ => cases hsome
  · intro h
    cases s with
    | any => exact .any
    | eq r =>
        cases r with
        | uid u => exact .eq (.uid h)
        | slot s => cases h
    | mem r =>
        cases r with
        | uid u => exact .mem (.uid h)
        | slot s => cases h
    | memAny us => exact .memAny rfl (List.all_eq_true.mp h)
    | is type => cases h
    | isMem type r => cases h

/-! ### Policies -/

namespace Policy

/-- The scopes and the annotations of a policy can be written. -/
structure Shaped (p : Policy) : Prop where
  /-- The scope of the principal can be written. -/
  principal : p.principal.fitsEntity .principal
  /-- The scope of the action can be written. -/
  action : p.action.fitsAction
  /-- The scope of the resource can be written. -/
  resource : p.resource.fitsEntity .resource
  /-- The keys of annotations are identifiers other than `id`. -/
  keys : ∀ a ∈ p.annotations, Name.isIdent a.1 ∧ a.1 ≠ "id"
  /-- The keys of annotations ascend. -/
  sorted : Ascending.Sorted (Ascending.keys p.annotations)

/-- A policy that could have been read. -/
structure WellFormed (p : Policy) : Prop extends p.Shaped where
  /-- The conditions are valid and not too deep. -/
  conditions : ∀ c ∈ p.conditions, c.body.Valid ∧ c.body.depth ≤ Grammar.nestingLimit

end Policy

/-! ### Sets -/

namespace PolicySet

/-- A link binds exactly the slots of its template, each once. -/
structure LinkBinds (s : PolicySet) (l : Link) : Prop where
  /-- The template can be linked in this way. -/
  links : ∃ t p, s.template? l.template = some t ∧ t.link l.id l.values = .ok p
  /-- The slots ascend. -/
  sorted : Ascending.Sorted (Ascending.keys l.values)

/-- A link binds exactly the slots of its template, to valid uids. -/
structure LinkFits (s : PolicySet) (l : Link) : Prop extends s.LinkBinds l where
  /-- The uids are valid. -/
  valid : ∀ v ∈ l.values, v.2.isValid

/-- A set of policies that could have been read, and of links of its templates. Linking does not
look at the uids, so that any may be bound. -/
structure Sound (s : PolicySet) : Prop where
  /-- The ids are distinct. -/
  ids : s.ids.Nodup
  /-- The static policies have no slots. -/
  policies : ∀ p ∈ s.policies, p.WellFormed ∧ p.isTemplate = false
  /-- The templates have slots. -/
  templates : ∀ p ∈ s.templates, p.WellFormed ∧ p.isTemplate = true
  /-- The links bind the slots of their templates. -/
  links : ∀ l ∈ s.links, s.LinkBinds l

/-- The uids that links bind are valid. -/
def BindsValid (s : PolicySet) : Prop :=
  ∀ l ∈ s.links, ∀ v ∈ l.values, v.2.isValid

instance (s : PolicySet) : Decidable s.BindsValid :=
  inferInstanceAs (Decidable (∀ l ∈ s.links, ∀ v ∈ l.values, v.2.isValid))

/-- A set of policies that could have been read, and of links that fit. -/
structure WellFormed (s : PolicySet) : Prop where
  /-- The ids are distinct. -/
  ids : s.ids.Nodup
  /-- The static policies have no slots. -/
  policies : ∀ p ∈ s.policies, p.WellFormed ∧ p.isTemplate = false
  /-- The templates have slots. -/
  templates : ∀ p ∈ s.templates, p.WellFormed ∧ p.isTemplate = true
  /-- The links fit. -/
  links : ∀ l ∈ s.links, s.LinkFits l

/-- A set is well-formed exactly if it is sound and its links bind valid uids. -/
theorem wellFormed_iff {s : PolicySet} : s.WellFormed ↔ s.Sound ∧ s.BindsValid := by
  constructor
  · exact fun h => ⟨⟨h.ids, h.policies, h.templates, fun l hl => (h.links l hl).toLinkBinds⟩,
      fun l hl => (h.links l hl).valid⟩
  · exact fun ⟨h, hvalid⟩ => ⟨h.ids, h.policies, h.templates, fun l hl => ⟨h.links l hl, hvalid l hl⟩⟩

/-- Well-formed sets are sound. -/
theorem WellFormed.sound {s : PolicySet} (h : s.WellFormed) : s.Sound :=
  (wellFormed_iff.mp h).1

/-- The links of a well-formed set bind valid uids. -/
theorem WellFormed.bindsValid {s : PolicySet} (h : s.WellFormed) : s.BindsValid :=
  (wellFormed_iff.mp h).2

theorem sound_empty : empty.Sound :=
  ⟨List.nodup_nil, List.forall_mem_nil _, List.forall_mem_nil _, List.forall_mem_nil _⟩

theorem wellFormed_empty : empty.WellFormed :=
  wellFormed_iff.mpr ⟨sound_empty, List.forall_mem_nil _⟩

/-- A well-formed set without links is what its policies make of the empty set. -/
theorem WellFormed.addAll_eq_ok {s : PolicySet} (hs : s.WellFormed) (hlinks : s.links = []) :
    empty.addAll (s.policies ++ s.templates) = .ok s := by
  have hids : ((s.policies ++ s.templates).map (·.id)).Nodup := by
    simpa [PolicySet.ids, hlinks] using hs.ids
  rw [addAll_append_eq_ok hids (fun p hp => (hs.policies p hp).2)
    (fun p hp => (hs.templates p hp).2), ← hlinks]

section steps

variable {s t : PolicySet}

/-- A link still binds the slots of its template when templates were added. -/
theorem LinkBinds.of_append {l : Link} {ps : List Policy} (h : s.LinkBinds l)
    (ht : t.templates = s.templates ++ ps) : t.LinkBinds l := by
  obtain ⟨⟨p, q, hp, hq⟩, hsorted⟩ := h
  exact ⟨⟨p, q, template?_of_append hp ht, hq⟩, hsorted⟩

/-- **Adding a well-formed policy** keeps a set sound. -/
theorem Sound.add (hs : s.Sound) {p : Policy} (hp : p.WellFormed) (h : s.add p = .ok t) :
    t.Sound := by
  obtain ⟨hnew, rfl⟩ := add_eq_ok_iff.mp h
  have hids : (s.push p).ids.Nodup := nodup_ids_push hs.ids hnew
  unfold push at hids ⊢
  split
  · rename_i ht
    rw [if_pos ht] at hids
    refine ⟨hids, hs.policies, fun q hq => ?_, fun l hl => (hs.links l hl).of_append rfl⟩
    rcases List.mem_append.mp hq with hq | hq
    · exact hs.templates q hq
    · rw [List.mem_singleton.mp hq]
      exact ⟨hp, ht⟩
  · rename_i ht
    rw [if_neg ht] at hids
    refine ⟨hids, fun q hq => ?_, hs.templates,
      fun l hl => (hs.links l hl).of_append (List.append_nil _).symm⟩
    rcases List.mem_append.mp hq with hq | hq
    · exact hs.policies q hq
    · rw [List.mem_singleton.mp hq]
      exact ⟨hp, by simpa using ht⟩

/-- **Linking a template** keeps a set sound, whatever uids are bound. -/
theorem Sound.link (hs : s.Sound) {template id : String} {values : List (Slot × Uid)}
    (hsorted : Ascending.Sorted (Ascending.keys values)) (h : s.link template id values = .ok t) :
    t.Sound := by
  obtain ⟨hlinks, hnew, rfl⟩ := link_eq_ok_iff.mp h
  refine ⟨nodup_ids_link hs.ids hnew, hs.policies, hs.templates, fun l hl => ?_⟩
  rcases List.mem_append.mp hl with hl | hl
  · exact (hs.links l hl).of_append (List.append_nil _).symm
  · rw [List.mem_singleton.mp hl]
    exact ⟨hlinks, hsorted⟩

/-- **Adding a well-formed policy** keeps a set well-formed. -/
theorem WellFormed.add (hs : s.WellFormed) {p : Policy} (hp : p.WellFormed) (h : s.add p = .ok t) :
    t.WellFormed := by
  refine wellFormed_iff.mpr ⟨hs.sound.add hp h, ?_⟩
  obtain ⟨-, rfl⟩ := add_eq_ok_iff.mp h
  rw [BindsValid, links_push]
  exact hs.bindsValid

/-- **Linking a template** to valid uids keeps a set well-formed. -/
theorem WellFormed.link (hs : s.WellFormed) {template id : String} {values : List (Slot × Uid)}
    (hsorted : Ascending.Sorted (Ascending.keys values)) (hvalid : ∀ v ∈ values, v.2.isValid)
    (h : s.link template id values = .ok t) : t.WellFormed := by
  refine wellFormed_iff.mpr ⟨hs.sound.link hsorted h, ?_⟩
  obtain ⟨-, -, rfl⟩ := link_eq_ok_iff.mp h
  exact List.forall_mem_append.mpr ⟨hs.bindsValid, List.forall_mem_singleton.mpr hvalid⟩

end steps

/-! ### Sets that are built step by step -/

/-- The sets that come of adding policies of a kind and linking templates to valid uids. -/
inductive Built (A : Policy → Prop) : PolicySet → Prop
  | empty : Built A empty
  | add {s t : PolicySet} {p : Policy} (hs : Built A s) (hp : A p) (h : s.add p = .ok t) :
      Built A t
  | link {s t : PolicySet} {template id : String} {values : List (Slot × Uid)} (hs : Built A s)
      (hsorted : Ascending.Sorted (Ascending.keys values)) (hvalid : ∀ v ∈ values, v.2.isValid)
      (h : s.link template id values = .ok t) : Built A t

/-- A set of well-formed policies is well-formed. -/
theorem Built.wellFormed {s : PolicySet} (hs : s.Built Policy.WellFormed) : s.WellFormed := by
  induction hs with
  | empty => exact wellFormed_empty
  | add _ hp h ih => exact ih.add hp h
  | link _ hsorted hvalid h ih => exact ih.link hsorted hvalid h

end PolicySet

end AccessPolicy
