import AccessPolicy.Proofs.Schema.Closed
import AccessPolicy.Proofs.Schema.Conforms

/-!
# What a schema admits

* `Schema.AdmitsRequest s r`, `Schema.AdmitsEntity s e` — the declarations of a schema allow a
  request or an entity record: names are declared and stand in the declared lists, and what is given
  as a record has the declared type.
* **A check passes** exactly if the declarations allow what is checked
  (`Schema.Closed.checkRequest_eq_ok_iff`, `Schema.checkEntity_eq_ok_iff`). For requests the schema
  has to be closed, so that the types which an action applies to are declared; one that was built is
  (`Schema.checks_eq_ok_iff`).
-/

namespace AccessPolicy.Schema

variable {s : Schema}

/-! ### Requests -/

/-- The action of a request is declared, applies to the types of its principal and its resource, and
has contexts of the type that its context has. -/
def AdmitsRequest (s : Schema) (r : Request) : Prop :=
  ∃ d, s.action? r.action = some d ∧ r.principal.type ∈ d.principalTypes ∧
    r.resource.type ∈ d.resourceTypes ∧ r.context.toValue.HasType (.record d.context)

theorem checkApplicable_eq_ok_iff {type : String} {admitted : List String} {refused : RequestError} :
    s.checkApplicable type admitted refused = .ok () ↔ s.hasType type ∧ type ∈ admitted := by
  unfold checkApplicable
  split
  · rename_i htype
    exact iff_of_false nofun fun h => by simp [h.1] at htype
  · rename_i htype
    split
    · rename_i hmem
      exact iff_of_false nofun fun h => by simp [h.2] at hmem
    · rename_i hmem
      exact iff_of_true rfl (by simpa using And.intro htype hmem)

/-- What a declared action applies to is declared. -/
theorem Closed.hasType_of_applies (hs : s.Closed) {u : Uid} {d : ActionDecl}
    (hd : s.action? u = some d) {type : String}
    (h : type ∈ d.principalTypes ∨ type ∈ d.resourceTypes) : s.hasType type := by
  refine hs.actions _ (Ascending.mem_of_get? hd) type ?_
  rw [ActionDecl.typeNames, List.mem_append, List.mem_append]
  exact h.imp_right .inl

/-- **A request is accepted** by a closed schema exactly if the schema admits it. -/
theorem Closed.checkRequest_eq_ok_iff (hs : s.Closed) {r : Request} :
    s.checkRequest r = .ok () ↔ s.AdmitsRequest r := by
  unfold checkRequest AdmitsRequest
  cases hd : s.action? r.action with
  | none => exact iff_of_false nofun nofun
  | some d =>
      simp only [check_bind_eq_ok, mapError_eq_ok, checkApplicable_eq_ok_iff,
        Attributes.check_eq_ok_iff, Option.some.injEq, exists_eq_left', Context.toValue]
      constructor
      · rintro ⟨⟨-, hprincipal⟩, ⟨-, hresource⟩, hcontext⟩
        exact ⟨hprincipal, hresource, hcontext⟩
      · rintro ⟨hprincipal, hresource, hcontext⟩
        exact ⟨⟨hs.hasType_of_applies hd (.inl hprincipal), hprincipal⟩,
          ⟨hs.hasType_of_applies hd (.inr hresource), hresource⟩, hcontext⟩

/-! ### Entity records -/

/-- A record is that of a declared action, or its type is declared with attributes of the type that
its own have and with the types of its parents. -/
def AdmitsEntity (s : Schema) (e : Entity) : Prop :=
  s.hasAction e.uid ∨ ∃ d, s.entityType? e.uid.type = some d ∧
    (Value.record e.attrs).HasType (.record d.attributes) ∧ ∀ p ∈ e.parents, p.type ∈ d.memberOf

/-- **A record is accepted** exactly if the schema admits it. -/
theorem checkEntity_eq_ok_iff {e : Entity} : s.checkEntity e = .ok () ↔ s.AdmitsEntity e := by
  unfold checkEntity AdmitsEntity
  split
  · rename_i haction
    exact iff_of_true rfl (.inl haction)
  · rename_i haction
    rw [or_iff_right haction]
    cases s.entityType? e.uid.type with
    | none => exact iff_of_false nofun nofun
    | some d =>
        simp only [check_bind_eq_ok, mapError_eq_ok, Attributes.check_eq_ok_iff, Option.some.injEq,
          exists_eq_left']
        refine and_congr_right fun _ => ?_
        have hnone : (e.parents.find? fun p => !d.memberOf.contains p.type) = none ↔
            ∀ p ∈ e.parents, p.type ∈ d.memberOf := by
          simp [List.find?_eq_none]
        rw [← hnone]
        cases e.parents.find? fun p => !d.memberOf.contains p.type with
        | none => exact iff_of_true rfl rfl
        | some p => exact iff_of_false nofun nofun

/-! ### Schemas that were built -/

/-- **A schema that was built accepts exactly what its declarations admit**, of requests and of
entity records. -/
theorem checks_eq_ok_iff {xs : List Section} (hs : ofSections xs = .ok s) :
    (∀ r, s.checkRequest r = .ok () ↔ s.AdmitsRequest r) ∧
      ∀ e, s.checkEntity e = .ok () ↔ s.AdmitsEntity e :=
  ⟨fun _ => (closed_of_ofSections hs).checkRequest_eq_ok_iff, fun _ => checkEntity_eq_ok_iff⟩

/-- Photos are viewed with a context that has a nested record. A field of it may be missing and none
may be added, and neither may a tag that is no string nor a parent of another type. -/
theorem checks_eq_ok_iff_photos :
    let photo : String × EntityDecl := ("Photo", ⟨["Album"], [("tags", true, .set .string)]⟩)
    let login : SchemaType := .record [("by", false, .entity "User"), ("level", true, .long)]
    let view : String × ActionDecl := ("view", ⟨[], ["User"], ["Photo"], [("login", true, login)]⟩)
    let xs : List Section := [⟨"", [("Album", ⟨[], []⟩), photo, ("User", ⟨[], []⟩)], [view]⟩]
    let s : Schema := ⟨[("Album", ⟨[], []⟩), photo, ("User", ⟨[], []⟩)],
      [(⟨"Action", "view"⟩, view.2)]⟩
    let r : Request := .ofUids ⟨"User", "a"⟩ ⟨"Action", "view"⟩ ⟨"Photo", "p"⟩
    let level : String × Value := ("level", .long ⟨2, by decide, by decide⟩)
    let e : Entity := ⟨⟨"Photo", "p"⟩, [("tags", .set [.string "x"])], [⟨"Album", "q"⟩]⟩
    ofSections xs = .ok s ∧
      s.AdmitsRequest (r.withContext [("login", .record [level])]) ∧
      ¬s.AdmitsRequest (r.withContext [("login", .record [level, ("since", .bool true)])]) ∧
      s.AdmitsEntity e ∧ ¬s.AdmitsEntity (e.setAttr "tags" (.set [.bool true])) ∧
      ¬s.AdmitsEntity (e.addParent ⟨"User", "a"⟩) ∧ s.AdmitsEntity (.ofUid ⟨"Action", "view"⟩) := by
  intro photo login view xs s r level e
  have hs : ofSections xs = .ok s := by decide +kernel
  obtain ⟨hrequest, hentity⟩ := checks_eq_ok_iff hs
  simp only [← hrequest, ← hentity]
  exact ⟨hs, by decide +kernel⟩

end AccessPolicy.Schema
