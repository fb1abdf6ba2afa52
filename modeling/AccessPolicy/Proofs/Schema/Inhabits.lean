import AccessPolicy.Proofs.Schema.Conforms
import AccessPolicy.Schema.StaticType

/-!
# Values of static types

* `SchemaType.declaresOptional`, `Schema.declaresOptional` — a name is declared as optional, at the
  top of a declaration or inside one of its types.
* `Value.Inhabits optional v t` — the value has the static type. A record has fields of the type
  only, and lacks at most fields whose names are optional.
* **Values of declared types are inhabitants** (`SchemaType.inhabits_of_hasType`): a value of a
  declared type inhabits its static type, and so do attributes that fit their declaration
  (`Attributes.inhabits_of_check`).
-/

namespace AccessPolicy

/-! ### Optional names -/

namespace SchemaType

mutual

/-- Whether a name is declared as optional inside a type. -/
def declaresOptional (name : String) : SchemaType → Bool
  | bool | long | string | entity _ => false
  | set element => declaresOptional name element
  | record fields => fieldsDeclareOptional name fields

/-- Whether a name is declared as optional by some of the fields or inside their types. -/
def fieldsDeclareOptional (name : String) : List (String × Bool × SchemaType) → Bool
  | [] => false
  | (k, required, t) :: fs =>
    (!required && k == name) || declaresOptional name t || fieldsDeclareOptional name fs

end

end SchemaType

/-- Whether a name is declared as optional somewhere in a schema. -/
def Schema.declaresOptional (s : Schema) (name : String) : Bool :=
  s.entityTypes.any (fun d => SchemaType.fieldsDeclareOptional name d.2.attributes) ||
    s.actions.any fun d => SchemaType.fieldsDeclareOptional name d.2.context

/-! ### Inhabitants -/

/-- The value has the static type; a record may lack the fields with optional names. -/
inductive Value.Inhabits (optional : String → Prop) : Value → StaticType → Prop
  | any (v : Value) : Inhabits optional v .any
  | bool (b : Bool) : Inhabits optional (.bool b) .bool
  | long (n : Long) : Inhabits optional (.long n) .long
  | string (s : String) : Inhabits optional (.string s) .string
  | anyEntity (u : Uid) : Inhabits optional (.entity u) (.entity none)
  | entity (u : Uid) : Inhabits optional (.entity u) (.entity (some u.type))
  | set {items : List Value} {element : StaticType}
      (inhabits : ∀ v ∈ items, Inhabits optional v element) :
      Inhabits optional (.set items) (.set element)
  | record {values : List (String × Value)} {fields : List (String × StaticType)}
      (inhabits : ∀ k t, Ascending.get? k fields = some t →
        ∀ v, Ascending.get? k values = some v → Inhabits optional v t)
      (missing : ∀ k t, Ascending.get? k fields = some t →
        Ascending.get? k values = none → optional k)
      (declared : ∀ v ∈ values, Ascending.hasKey v.1 fields) :
      Inhabits optional (.record values) (.record fields)

namespace StaticType

/-- The static type of a declared field is that of its declared type. -/
theorem get?_ofAttributes (k : String) (fields : Attributes) :
    Ascending.get? k (ofAttributes fields) =
      (Ascending.get? k fields).map fun d => ofSchema d.2 := by
  induction fields with
  | nil => rfl
  | cons d ds ih =>
      obtain ⟨l, r, t⟩ := d
      simp only [ofAttributes, Ascending.get?]
      split
      · rfl
      · exact ih

theorem hasKey_ofAttributes (k : String) (fields : Attributes) :
    Ascending.hasKey k (ofAttributes fields) = Ascending.hasKey k fields := by
  simp [Ascending.hasKey, get?_ofAttributes]

end StaticType

/-! ### Conformance -/

namespace SchemaType

variable {optional : String → Prop}

/-- What a declared field and its type have as optional, the fields have. -/
theorem fieldsDeclareOptional_of_mem {k : String} {required : Bool} {t : SchemaType}
    {fields : List (String × Bool × SchemaType)} (h : (k, required, t) ∈ fields) :
    (¬required → fieldsDeclareOptional k fields) ∧
      ∀ name, t.declaresOptional name → fieldsDeclareOptional name fields := by
  induction fields with
  | nil => cases h
  | cons f fs ih =>
      rcases List.mem_cons.mp h with rfl | h
      · constructor
        · intro hr
          simp [fieldsDeclareOptional, hr]
        · intro name hn
          simp [fieldsDeclareOptional, hn]
      · obtain ⟨hk, ht⟩ := ih h
        constructor
        · intro hr
          simp [fieldsDeclareOptional, hk hr]
        · intro name hn
          simp [fieldsDeclareOptional, ht name hn]

/-- What is left to say of a declared field, given the values: the value conforms, or it is missing
and optional. -/
def FieldConforms (optional : String → Prop) (values : List (String × Value))
    (field : String × Bool × SchemaType) : Prop :=
  match Ascending.get? field.1 values with
  | none => optional field.1
  | some v => v.Inhabits optional (.ofSchema field.2.2)

/-- Values that conform to each declared field and have no others make a record of the declared
type. -/
theorem inhabits_record {values : List (String × Value)} {fields : Attributes}
    (hf : ∀ f ∈ fields, FieldConforms optional values f)
    (hv : ∀ v ∈ values, Ascending.hasKey v.1 fields) :
    (Value.record values).Inhabits optional (.record (StaticType.ofAttributes fields)) := by
  have lookup : ∀ k t, Ascending.get? k (StaticType.ofAttributes fields) = some t →
      ∃ r d, t = .ofSchema d ∧ (k, r, d) ∈ fields := by
    intro k t h
    rw [StaticType.get?_ofAttributes] at h
    obtain ⟨⟨r, d⟩, hd, rfl⟩ := Option.map_eq_some_iff.mp h
    exact ⟨r, d, rfl, Ascending.mem_of_get? hd⟩
  refine .record (fun k t h v hkv => ?_) (fun k t h hkv => ?_) fun v h => ?_
  · obtain ⟨r, d, rfl, hd⟩ := lookup k t h
    have := hf _ hd
    simpa only [FieldConforms, hkv] using this
  · obtain ⟨r, d, rfl, hd⟩ := lookup k t h
    have := hf _ hd
    simpa only [FieldConforms, hkv] using this
  · rw [StaticType.hasKey_ofAttributes]
    exact hv v h

/-- A value of a declared type inhabits its static type, whatever names are optional beside those of
the type. -/
theorem inhabits_of_hasType {t : SchemaType} {v : Value} (h : v.HasType t)
    (ho : ∀ name, t.declaresOptional name → optional name) : v.Inhabits optional (.ofSchema t) := by
  induction h with
  | bool b => exact .bool b
  | long n => exact .long n
  | string s => exact .string s
  | entity u => exact .entity u
  | set _ ih => exact .set fun w hw => ih w hw ho
  | @record values fields required _ declared ih =>
      refine inhabits_record (fun ⟨k, r, t⟩ hf => ?_) declared
      obtain ⟨hk, ht⟩ := fieldsDeclareOptional_of_mem hf
      unfold FieldConforms
      cases hv : Ascending.get? k values with
      | none =>
          -- A field without a value is not required, so that its name is declared as optional.
          refine ho k (hk ?_)
          rintro rfl
          simpa [Ascending.hasKey, hv] using required k t hf
      | some v => exact ih k r t hf v hv fun name hn => ho name (ht name hn)

end SchemaType

/-- Attributes that fit their declaration make a record of the declared type. -/
theorem Attributes.inhabits_of_check {optional : String → Prop} {values : List (String × Value)}
    {declared : Attributes}
    (ho : ∀ name, SchemaType.fieldsDeclareOptional name declared → optional name)
    (h : declared.check values = .ok ()) :
    (Value.record values).Inhabits optional (.record (StaticType.ofAttributes declared)) :=
  SchemaType.inhabits_of_hasType (check_eq_ok_iff.mp h) ho

end AccessPolicy
