import AccessPolicy.Proofs.Entity.Hierarchy
import AccessPolicy.Proofs.Value.Json

/-!
# Entity data in JSON

* What entity data stands for, part by part (`Entity.attrsOfJson_eq_ok_iff`,
  `Entity.parentsOfJson_eq_ok_iff`, `Entity.ofJson_eq_ok_iff`, `Entities.ofJson_arr_eq_ok_iff`). A
  record whose attributes or parents are missing has none.
* **Records and stores read back** (`Entity.readsBack_of_ofJson`, `Entities.ofJson_toJson_eq_ok`):
  in their JSON form no part is missing, every uid is an object, and all collections ascend.
-/

namespace AccessPolicy

namespace Entity

variable {j : Json} {e : Entity} {name name' : String} {o : Option Json} {attrs : List (String × Value)}
  {parents : List Uid}

/-! ### Reading -/

/-- A list is read exactly if each of its items is. -/
theorem each_eq_ok_iff {α β : Type} {read : α → Except Error β} {as : List α} {bs : List β} :
    each read as = .ok bs ↔ List.Forall₂ (fun a b => read a = .ok b) as bs := by
  have heach : each read as = as.mapM read := by
    induction as with
    | nil => rfl
    | cons a as ih =>
        rw [each, List.mapM_cons, ← ih]
        cases read a with
        | error e => rfl
        | ok b => cases each read as <;> rfl
  rw [heach, mapM_eq_ok]

/-- Attributes are missing, or an object that stands for fields, which are put in order. -/
theorem attrsOfJson_eq_ok_iff : attrsOfJson name o = .ok attrs ↔ (o = none ∧ attrs = []) ∨
    ∃ members fs, o = some (.obj members) ∧ Value.FieldsOf members fs ∧
      Ascending.ofPairs fs = attrs := by
  have hfields : ∀ {members fs}, Value.ofJsonFields members (.root name) = .ok fs ↔
      Value.FieldsOf members fs :=
    Value.ofJsonFields_eq_ok_iff fun m _ => Value.ofJsonAt_eq_ok_iff m.2
  cases o with
  | none => simp [attrsOfJson, eq_comm]
  | some j => cases j with
    | obj members => simp [attrsOfJson, map_eq_ok, hfields]
    | null | bool _ | int _ | float _ | str _ | arr _ => simp [attrsOfJson]

/-- Parents are missing, or an array of uids, which are put in order. -/
theorem parentsOfJson_eq_ok_iff : parentsOfJson name o = .ok parents ↔ (o = none ∧ parents = []) ∨
    ∃ items us, o = some (.arr items) ∧ List.Forall₂ (fun j u => Uid.ofJson j = .ok u) items us ∧
      Ascending.ofList us = parents := by
  cases o with
  | none => simp [parentsOfJson, eq_comm]
  | some j => cases j with
    | arr items => simp [parentsOfJson, map_eq_ok, each_eq_ok_iff]
    | null | bool _ | int _ | float _ | str _ | obj _ => simp [parentsOfJson]

/-- A record is read of an object with a uid. -/
theorem ofJson_eq_ok_iff : ofJson j = .ok e ↔ ∃ members v, j = .obj members ∧
    Json.find? "uid" members = some v ∧ Uid.ofJson v = .ok e.uid ∧
    attrsOfJson e.uid.text (Json.find? "attrs" members) = .ok e.attrs ∧
    parentsOfJson e.uid.text (Json.find? "parents" members) = .ok e.parents := by
  cases j with
  | obj members =>
      rw [ofJson]
      split
      · rename_i hfind
        refine iff_of_false nofun ?_
        rintro ⟨_, v, hmembers, hv, -⟩
        cases hmembers
        cases hfind.symm.trans hv
      · rename_i v hfind
        simp only [bind_eq_ok, pure_eq_ok]
        constructor
        · rintro ⟨u, hu, attrs, hattrs, parents, hparents, rfl⟩
          exact ⟨members, v, rfl, hfind, hu, hattrs, hparents⟩
        · rintro ⟨_, _, hmembers, hv, hu, hattrs, hparents⟩
          cases hmembers
          cases hfind.symm.trans hv
          exact ⟨e.uid, hu, e.attrs, hattrs, e.parents, hparents, rfl⟩
  | null | bool _ | int _ | float _ | str _ | arr _ => simp [ofJson]

/-! ### Reading back -/

/-- The JSON form of a record stands for the record. -/
def ReadsBack (e : Entity) : Prop :=
  ofJson e.toJson = .ok e

/-- Attributes read back, under whatever name they stand: their names ascend, and their values read
back. -/
theorem attrsOfJson_toJsonFields (h : attrsOfJson name o = .ok attrs) :
    attrsOfJson name' (some (.obj (Value.toJsonFields attrs))) = .ok attrs := by
  refine attrsOfJson_eq_ok_iff.mpr (.inr ⟨_, attrs, rfl, ?_⟩)
  rcases attrsOfJson_eq_ok_iff.mp h with ⟨-, rfl⟩ | ⟨members, fs, -, hfs, rfl⟩
  · exact ⟨.nil, rfl⟩
  · refine ⟨Value.fieldsOf_toJsonFields fun f hf => ?_, ?_⟩
    · obtain ⟨m, -, -, hread⟩ := exists_of_mem_forall₂ hfs (Ascending.mem_of_mem_ofPairs hf)
      exact Value.readsBack_of_ofJson hread
    · exact (Ascending.sorted_ofPairs fs).ofPairs_eq fun _ => Iff.rfl

/-- So do parents, which ascend and are valid. -/
theorem parentsOfJson_toJson (h : parentsOfJson name o = .ok parents) :
    parentsOfJson name' (some (.arr (parents.map Uid.toJson))) = .ok parents := by
  refine parentsOfJson_eq_ok_iff.mpr (.inr ⟨_, parents, rfl, ?_⟩)
  rw [List.forall₂_map_left_iff, List.forall₂_same]
  rcases parentsOfJson_eq_ok_iff.mp h with ⟨-, rfl⟩ | ⟨items, us, -, hus, rfl⟩
  · exact ⟨nofun, rfl⟩
  · refine ⟨fun u hu => ?_, ?_⟩
    · obtain ⟨j, -, hread⟩ := exists_of_mem_forall₂ hus (Ascending.mem_of_mem_ofList hu)
      exact Uid.ofJson_toJson_eq_ok (Uid.isValid_of_ofJson hread)
    · exact (Ascending.sorted_ofList us).ofList_eq fun _ => Iff.rfl

/-- **A record that was read reads back.** -/
theorem readsBack_of_ofJson (h : ofJson j = .ok e) : ReadsBack e := by
  obtain ⟨members, v, rfl, -, huid, hattrs, hparents⟩ := ofJson_eq_ok_iff.mp h
  exact ofJson_eq_ok_iff.mpr ⟨_, _, rfl, rfl, Uid.ofJson_toJson_eq_ok (Uid.isValid_of_ofJson huid),
    attrsOfJson_toJsonFields hattrs, parentsOfJson_toJson hparents⟩

end Entity

namespace Entities

variable {j : Json} {items : List Json} {s : Entities}

/-- A store is made of the records that the items of an array stand for. -/
theorem ofJson_arr_eq_ok_iff : ofJson (.arr items) = .ok s ↔
    ∃ es, List.Forall₂ (fun j e => Entity.ofJson j = .ok e) items es ∧ ofList es = .ok s := by
  rw [ofJson, bind_eq_ok]
  simp only [Entity.each_eq_ok_iff]

/-- The records of a store make the store. -/
theorem ofList_records {es : List Entity} (hs : ofList es = .ok s) : ofList s.records = .ok s := by
  have hes : es.Nodup := (ofList_eq_ok_iff.mp hs).1.of_map
  have hrecords : s.records.Nodup := (nodup_uids_of_ofList hs).of_map
  refine ofList_of_perm hs ((List.perm_ext_iff_of_nodup hes hrecords).mpr fun e => ?_)
  exact (mem_records_of_ofList hs).symm

/-- **A store that was read reads back**, with the ancestry of its records. -/
theorem ofJson_toJson_eq_ok (h : ofJson j = .ok s) :
    ofJson s.toJson = .ok s ∧ Ancestry s.records s := by
  cases j with
  | arr items =>
      obtain ⟨es, hes, hs⟩ := ofJson_arr_eq_ok_iff.mp h
      have hrecords :
          List.Forall₂ (fun j e => Entity.ofJson j = .ok e) (s.records.map Entity.toJson)
          s.records := by
        rw [List.forall₂_map_left_iff, List.forall₂_same]
        intro e he
        obtain ⟨j, -, hj⟩ := exists_of_mem_forall₂ hes ((mem_records_of_ofList hs).mp he)
        exact Entity.readsBack_of_ofJson hj
      exact ⟨ofJson_arr_eq_ok_iff.mpr ⟨_, hrecords, ofList_records hs⟩,
        ancestry_of_ofList (ofList_records hs)⟩
  | null | bool _ | int _ | float _ | str _ | obj _ => cases h

end Entities

end AccessPolicy
