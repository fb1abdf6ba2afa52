import AccessPolicy.Proofs.Ascending
import AccessPolicy.Proofs.Except
import AccessPolicy.Schema.Conformance

/-!
# Values of declared types

* `Value.HasType v t` — the value has the declared type: it is of the kind of the type, an entity is
  of the named type, and items and fields have theirs. A record has the required fields and none
  that are not declared.
* **Checks are exact** (`SchemaType.conform_eq_ok_iff`, `Attributes.check_eq_ok_iff`): a value
  conforms to a type exactly if it has it, wherever it stands, and attributes fit a declaration
  exactly if they make a record of its type.
-/

namespace AccessPolicy

/-! ### Types of values -/

/-- The value has the declared type. -/
inductive Value.HasType : Value → SchemaType → Prop
  | bool (b : Bool) : HasType (.bool b) .bool
  | long (n : Long) : HasType (.long n) .long
  | string (s : String) : HasType (.string s) .string
  | entity (u : Uid) : HasType (.entity u) (.entity u.type)
  | set {items : List Value} {element : SchemaType} (hasType : ∀ v ∈ items, HasType v element) :
      HasType (.set items) (.set element)
  | record {values : List (String × Value)} {fields : Attributes}
      (required : ∀ k t, (k, true, t) ∈ fields → Ascending.hasKey k values)
      (hasType : ∀ k r t, (k, r, t) ∈ fields →
        ∀ v, Ascending.get? k values = some v → HasType v t)
      (declared : ∀ v ∈ values, Ascending.hasKey v.1 fields) :
      HasType (.record values) (.record fields)

/-- Values have one for the declared field if it is required, and any that they have is of its
type. -/
def Attributes.FieldFits (values : List (String × Value)) (field : String × Bool × SchemaType) :
    Prop :=
  (field.2.1 → Ascending.hasKey field.1 values) ∧
    ∀ v, Ascending.get? field.1 values = some v → v.HasType field.2.2

/-- A record has a type exactly if each declared field fits and each value is declared. -/
theorem Value.hasType_record_iff {values : List (String × Value)} {fields : Attributes} :
    (Value.record values).HasType (.record fields) ↔
      (∀ f ∈ fields, Attributes.FieldFits values f) ∧
        ∀ v ∈ values, Ascending.hasKey v.1 fields := by
  constructor
  · rintro ⟨⟩
    case record required hasType declared =>
      refine ⟨fun f hf => ⟨fun hr => required f.1 f.2.2 ?_, hasType f.1 f.2.1 f.2.2 hf⟩, declared⟩
      rw [← hr]
      exact hf
  · rintro ⟨hfits, hdeclared⟩
    exact .record (fun k t hf => (hfits _ hf).1 rfl) (fun k r t hf => (hfits _ hf).2) hdeclared

namespace Attributes

variable {values : List (String × Value)} {k : String} {required : Bool} {t : SchemaType}

/-- A field without a value fits exactly if it is optional. -/
theorem fieldFits_of_none (hk : Ascending.get? k values = none) :
    FieldFits values (k, required, t) ↔ ¬required := by
  simp [FieldFits, Ascending.hasKey, hk]

/-- A field with a value fits exactly if the value is of its type. -/
theorem fieldFits_of_some {v : Value} (hk : Ascending.get? k values = some v) :
    FieldFits values (k, required, t) ↔ v.HasType t := by
  simp [FieldFits, Ascending.hasKey, hk]

end Attributes

/-! ### Conformance -/

namespace SchemaType

/-- A list is checked item by item. -/
theorem conformItems_eq_ok_iff {check : Value → Except Mismatch Unit} {items : List Value} :
    conformItems check items = .ok () ↔ ∀ v ∈ items, check v = .ok () := by
  induction items with
  | nil => simp [conformItems]
  | cons w ws ih =>
      rw [List.forall_mem_cons, ← ih, conformItems]
      cases check w with
      | error m => simp
      | ok u => simp

mutual

/-- **A value conforms** to a type exactly if it has it, whatever it is called in complaints. -/
theorem conform_eq_ok_iff : (t : SchemaType) → (v : Value) → (path : String) →
    (t.conform v path = .ok () ↔ v.HasType t)
  | .bool, v, _ => by
      cases v with
      | bool b => exact iff_of_true rfl (.bool b)
      | _ => exact iff_of_false nofun nofun
  | .long, v, _ => by
      cases v with
      | long n => exact iff_of_true rfl (.long n)
      | _ => exact iff_of_false nofun nofun
  | .string, v, _ => by
      cases v with
      | string s => exact iff_of_true rfl (.string s)
      | _ => exact iff_of_false nofun nofun
  | .entity name, v, _ => by
      cases v with
      | entity u =>
          rw [conform]
          split
          · rename_i hu
            exact iff_of_true rfl (hu ▸ .entity u)
          · rename_i hu
            exact iff_of_false nofun fun h => hu (by cases h; rfl)
      | _ => exact iff_of_false nofun nofun
  | .set element, v, _ => by
      cases v with
      | set items =>
          rw [conform, conformItems_eq_ok_iff]
          constructor
          · exact fun h => .set fun w hw => (conform_eq_ok_iff element w _).mp (h w hw)
          · rintro ⟨⟩ w hw
            case set h => exact (conform_eq_ok_iff element w _).mpr (h w hw)
      | _ => exact iff_of_false nofun nofun
  | .record fields, v, path => by
      cases v with
      | record values =>
          rw [Value.hasType_record_iff, ← conformFields_eq_ok_iff fields values path
            ⟨path, (record fields).text, Kind.record.name⟩, ← List.all_eq_true]
          simp only [conform]
          split
          · rename_i hf
            exact iff_of_false nofun fun h => absurd (hf.symm.trans h.1) nofun
          · rename_i hf
            rw [and_iff_right hf]
            split
            · rename_i hall
              exact iff_of_true rfl hall
            · rename_i hall
              exact iff_of_false nofun hall
      | _ => exact iff_of_false nofun nofun

/-- The fields of a record conform exactly if each of them fits. -/
theorem conformFields_eq_ok_iff : (fields : List (String × Bool × SchemaType)) →
    (values : List (String × Value)) → (path : String) → (here : Mismatch) →
    (conformFields fields values path here = .ok () ↔
      ∀ f ∈ fields, Attributes.FieldFits values f)
  | [], _, _, _ => iff_of_true rfl nofun
  | (k, required, t) :: fs, values, path, here => by
      rw [List.forall_mem_cons, ← conformFields_eq_ok_iff fs values path here, conformFields]
      cases hk : Ascending.get? k values with
      | none =>
          rw [Attributes.fieldFits_of_none hk]
          cases required <;> simp
      | some v =>
          rw [Attributes.fieldFits_of_some hk, ← conform_eq_ok_iff t v (path ++ "." ++ k)]
          dsimp only
          cases conform t v (path ++ "." ++ k) with
          | error m => simp
          | ok u => simp

end

end SchemaType

namespace Attributes

variable {values : List (String × Value)} {declared : Attributes}

/-- The declared attributes pass exactly if each of them fits. -/
theorem checkDeclared_eq_ok_iff :
    checkDeclared values declared = .ok () ↔ ∀ f ∈ declared, FieldFits values f := by
  induction declared with
  | nil => exact iff_of_true rfl nofun
  | cons d ds ih =>
      obtain ⟨k, required, t⟩ := d
      rw [List.forall_mem_cons, ← ih, checkDeclared]
      cases hk : Ascending.get? k values with
      | none =>
          rw [fieldFits_of_none hk]
          cases required <;> simp
      | some v =>
          rw [fieldFits_of_some hk, ← SchemaType.conform_eq_ok_iff t v k]
          dsimp only
          cases t.conform v k with
          | error m => simp
          | ok u => simp

/-- **Attributes fit their declaration** exactly if they make a record of the declared type. -/
theorem check_eq_ok_iff :
    declared.check values = .ok () ↔ (Value.record values).HasType (.record declared) := by
  rw [check, check_bind_eq_ok, Value.hasType_record_iff, ← checkDeclared_eq_ok_iff]
  refine and_congr_right fun _ => ?_
  have hnone : (values.find? fun v => !Ascending.hasKey v.1 declared) = none ↔
      ∀ v ∈ values, Ascending.hasKey v.1 declared := by
    simp [List.find?_eq_none]
  rw [← hnone]
  cases values.find? fun v => !Ascending.hasKey v.1 declared with
  | none => exact iff_of_true rfl rfl
  | some v => exact iff_of_false nofun nofun

end Attributes

end AccessPolicy
