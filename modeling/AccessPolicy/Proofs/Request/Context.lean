import AccessPolicy.Proofs.Json.Merge
import AccessPolicy.Proofs.Value.Json
import AccessPolicy.Request.Basic

/-!
# The two ways to read a context

A context is read by itself as a value (`Context.ofJson`) or as a part of a request, member by
member (`Context.decode`).

* Either way takes objects only, and makes the same context of their members
  (`Context.ofJson_eq_ok_iff`, `Context.decode_eq_ok_iff`).
* **The ways agree but for the key that marks entities** (`Context.ofJson_eq_ok_iff_decode`): an
  object with that key is no record for the first one, while the second one takes it for the name of
  an attribute (`Context.decode_marked`).
-/

namespace AccessPolicy.Context

open Value (FieldsOf entityKey)

variable {v : Json} {c : Context} {members : List (String × Json)} {fs : List (String × Value)}

/-- A context that is read by itself is the record that an object stands for. -/
theorem ofJson_eq_ok_iff : ofJson v = .ok c ↔ ∃ members, v = .obj members ∧
    entityKey ∉ members.map (·.1) ∧ ∃ fs, FieldsOf members fs ∧ Ascending.ofPairs fs = c := by
  have hrecord : ofJson v = .ok c ↔ Value.ofJson v = .ok (.record c) := by
    rw [ofJson, ← Value.ofJsonAt_eq_ok_iff v (.root "context")]
    cases Value.ofJsonAt v (.root "context") with
    | error e => exact iff_of_false nofun nofun
    | ok w =>
        cases w with
        | record fields => simp
        | _ => exact iff_of_false nofun nofun
  rw [hrecord]
  cases v with
  | obj members =>
      rw [Value.ofJson_obj_eq_ok_iff]
      simp [Value.ofFields]
  | arr items =>
      rw [Value.ofJson_arr_eq_ok_iff]
      simp [Value.ofItems]
  | int n =>
      rw [Value.ofJson, Value.ofJsonAt]
      cases Long.ofInt? n <;> simp
  | null | bool b | float bits | str s => simp [Value.ofJson, Value.ofJsonAt]

/-- The members of a context are read one by one. Where they are merged, reading them as parts of a
request changes nothing. -/
theorem decodeMembers_eq_ok_iff (hmerged : ∀ m ∈ members, m.2.Merged) :
    decodeMembers members = .ok fs ↔ FieldsOf members fs := by
  unfold FieldsOf Ascending.Agree
  induction members generalizing fs with
  | nil => rw [decodeMembers, List.forall₂_nil_left_iff, Except.ok.injEq, eq_comm]
  | cons m members ih =>
      obtain ⟨hm, hmembers⟩ := List.forall_mem_cons.mp hmerged
      obtain ⟨k, j⟩ := m
      have hj : j.merge = j := hm
      rw [decodeMembers, hj, List.forall₂_cons_left_iff]
      cases hread : Value.ofJson j with
      | error e =>
          refine iff_of_false nofun ?_
          rintro ⟨f, _, ⟨-, hf⟩, -⟩
          cases hread.symm.trans hf
      | ok x =>
          simp only [map_eq_ok, ih hmembers]
          constructor
          · rintro ⟨fs, hfs, rfl⟩
            exact ⟨(k, x), fs, ⟨rfl, hread⟩, hfs, rfl⟩
          · rintro ⟨⟨_, y⟩, fs, ⟨rfl, hy⟩, hfs, rfl⟩
            cases hread.symm.trans hy
            exact ⟨fs, hfs, rfl⟩

theorem asObject_eq_ok_iff : Json.asObject v = .ok members ↔ v = .obj members := by
  cases v <;> simp [Json.asObject]

/-- A context that is read as a part of a request has the members of an object, whatever their
names. -/
theorem decode_eq_ok_iff (hv : v.Merged) : decode v = .ok c ↔
    ∃ members, v = .obj members ∧ ∃ fs, FieldsOf members fs ∧ Ascending.ofPairs fs = c := by
  rw [decode, bind_eq_ok]
  refine exists_congr fun members => ?_
  rw [asObject_eq_ok_iff]
  refine and_congr_right ?_
  rintro rfl
  simp only [map_eq_ok, decodeMembers_eq_ok_iff (Json.merged_obj_iff.mp hv).2]

/-- **The two ways to read a context agree** but for the key that marks entities: what is read by
itself is exactly what is read as a part of a request and does not have that key, and it is the same
context. -/
theorem ofJson_eq_ok_iff_decode (hv : v.Merged) : ofJson v = .ok c ↔
    decode v = .ok c ∧ ∀ members, v = .obj members → entityKey ∉ members.map (·.1) := by
  rw [ofJson_eq_ok_iff, decode_eq_ok_iff hv]
  constructor
  · rintro ⟨members, rfl, hkey, hfields⟩
    refine ⟨⟨members, rfl, hfields⟩, ?_⟩
    rintro _ ⟨⟩
    exact hkey
  · rintro ⟨⟨members, rfl, hfields⟩, hkey⟩
    exact ⟨members, rfl, hkey members rfl, hfields⟩

/-- An entity that is the value of an attribute is read either way. -/
theorem ofJson_owner :
    let v : Json := .obj [("owner", .obj [(entityKey, .str "User::\"a\"")])]
    let c : Context := [("owner", .entity ⟨"User", "a"⟩)]
    v.Merged ∧ decode v = .ok c ∧ ofJson v = .ok c := by
  intro v c
  have hv : v.Merged := rfl
  have hdecode : decode v = .ok c := by decide +kernel
  refine ⟨hv, hdecode, (ofJson_eq_ok_iff_decode hv).mpr ⟨hdecode, fun members h => ?_⟩⟩
  rw [← Json.obj.inj h]
  decide

/-- An object that marks an entity is a context for the second way only. -/
theorem decode_marked :
    ¬∀ v : Json, v.Merged → ∀ c, ofJson v = .ok c ↔ decode v = .ok c := by
  intro h
  have hagree := h (.obj [(entityKey, .str "User::\"a\"")]) rfl
    [(entityKey, .string "User::\"a\"")]
  exact absurd (hagree.mpr (by decide +kernel)) (by decide +kernel)

end AccessPolicy.Context
