import AccessPolicy.Proofs.Uid.Json
import AccessPolicy.Proofs.Value.Order
import AccessPolicy.Value.Decode

/-!
# Values in JSON

* What a JSON value stands for does not depend on where it stands (`Value.ofJsonAt_eq_ok_iff`): a
  path shows in errors only. An array stands for the set of what its items stand for, and an object
  for the record of what its members stand for, unless it marks an entity
  (`Value.ofJson_arr_eq_ok_iff`, `Value.ofJson_obj_eq_ok_iff`).
* `Value.ReadsBack v` — the JSON form of `v` stands for `v`. Sets, entities and records read back if
  their parts do, except that no field may have the name that marks entities. **Everything that a
  JSON value stands for reads back** (`Value.readsBack_of_ofJson`), as no such record is among it.
-/

namespace AccessPolicy

/-- Induction on JSON values. -/
@[elab_as_elim]
theorem Json.induct {motive : Json → Prop} (null : motive .null) (bool : ∀ b, motive (.bool b))
    (int : ∀ n, motive (.int n)) (float : ∀ bits, motive (.float bits))
    (str : ∀ s, motive (.str s)) (arr : ∀ items, (∀ j ∈ items, motive j) → motive (.arr items))
    (obj : ∀ members, (∀ m ∈ members, motive m.2) → motive (.obj members)) (j : Json) : motive j :=
  @Json.rec motive (fun items => ∀ j ∈ items, motive j) (fun members => ∀ m ∈ members, motive m.2)
    (fun m => motive m.2) null bool int float str arr obj (List.forall_mem_nil _)
    (fun _ _ hj hjs => List.forall_mem_cons.mpr ⟨hj, hjs⟩) (List.forall_mem_nil _)
    (fun _ _ hm hms => List.forall_mem_cons.mpr ⟨hm, hms⟩) (fun _ _ hj => hj) j

namespace Value

variable {items : List Json} {members : List (String × Json)} {j : Json} {v : Value}
  {vs : List Value} {fs : List (String × Value)} {path : Json.Path}

/-! ### Reading -/

/-- A JSON value for each field, under the name of the field. -/
def FieldsOf (members : List (String × Json)) (fs : List (String × Value)) : Prop :=
  Ascending.Agree (fun j v => ofJson j = .ok v) members fs

/-- Items are read from left to right, each at its own place. -/
theorem ofJsonItems_cons (j : Json) (items : List Json) (i : Nat) (path : Json.Path) :
    ofJsonItems (j :: items) i path =
      ofJsonAt j (path.item i) >>= fun v => (ofJsonItems items (i + 1) path).map (v :: ·) := by
  rw [ofJsonItems]
  cases ofJsonAt j (path.item i) <;> rfl

/-- Members are read from left to right, each under its own name. -/
theorem ofJsonFields_cons (m : String × Json) (members : List (String × Json)) (path : Json.Path) :
    ofJsonFields (m :: members) path =
      ofJsonAt m.2 (path.member m.1) >>= fun v => (ofJsonFields members path).map ((m.1, v) :: ·) := by
  rw [ofJsonFields]
  cases ofJsonAt m.2 (path.member m.1) <;> rfl

/-- Items stand for a list exactly if each stands for its item, at whatever place. -/
theorem ofJsonItems_eq_ok_iff
    (h : ∀ j ∈ items, ∀ path v, ofJsonAt j path = .ok v ↔ ofJson j = .ok v) (i : Nat) :
    ofJsonItems items i path = .ok vs ↔ List.Forall₂ (fun j v => ofJson j = .ok v) items vs := by
  induction items generalizing i vs with
  | nil => rw [ofJsonItems, List.forall₂_nil_left_iff, Except.ok.injEq, eq_comm]
  | cons j items ih =>
      obtain ⟨hj, hitems⟩ := List.forall_mem_cons.mp h
      simp only [ofJsonItems_cons, List.forall₂_cons_left_iff, bind_eq_ok, map_eq_ok, hj, ih hitems]
      constructor
      · rintro ⟨v, hv, vs, hvs, rfl⟩
        exact ⟨v, vs, hv, hvs, rfl⟩
      · rintro ⟨v, vs, hv, hvs, rfl⟩
        exact ⟨v, hv, vs, hvs, rfl⟩

/-- Members stand for fields exactly if each stands for its field, under whatever path. -/
theorem ofJsonFields_eq_ok_iff
    (h : ∀ m ∈ members, ∀ path v, ofJsonAt m.2 path = .ok v ↔ ofJson m.2 = .ok v) :
    ofJsonFields members path = .ok fs ↔ FieldsOf members fs := by
  unfold FieldsOf Ascending.Agree
  induction members generalizing fs with
  | nil => rw [ofJsonFields, List.forall₂_nil_left_iff, Except.ok.injEq, eq_comm]
  | cons m members ih =>
      obtain ⟨hm, hmembers⟩ := List.forall_mem_cons.mp h
      simp only [ofJsonFields_cons, List.forall₂_cons_left_iff, bind_eq_ok, map_eq_ok, hm, ih hmembers]
      constructor
      · rintro ⟨v, hv, fs, hfs, rfl⟩
        exact ⟨(m.1, v), fs, ⟨rfl, hv⟩, hfs, rfl⟩
      · rintro ⟨⟨_, v⟩, fs, ⟨rfl, hv⟩, hfs, rfl⟩
        exact ⟨v, hv, fs, hfs, rfl⟩

/-- **What a JSON value stands for does not depend on where it stands.** -/
theorem ofJsonAt_eq_ok_iff (j : Json) (path : Json.Path) (v : Value) :
    ofJsonAt j path = .ok v ↔ ofJson j = .ok v := by
  unfold ofJson
  induction j using Json.induct generalizing path v with
  | null => simp [ofJsonAt]
  | bool b => exact Iff.rfl
  | int n =>
      rw [ofJsonAt, ofJsonAt]
      cases Long.ofInt? n <;> simp
  | float bits => simp [ofJsonAt]
  | str s => exact Iff.rfl
  | arr items ih =>
      rw [ofJsonAt, ofJsonAt]
      simp only [map_eq_ok, ofJsonItems_eq_ok_iff ih]
  | obj members ih =>
      rw [ofJsonAt, ofJsonAt]
      split
      · split
        · simp
        · split <;> simp
      · simp only [map_eq_ok, ofJsonFields_eq_ok_iff ih]

/-- An array stands for the set of what its items stand for. -/
theorem ofJson_arr_eq_ok_iff : ofJson (.arr items) = .ok v ↔
    ∃ vs, List.Forall₂ (fun j v => ofJson j = .ok v) items vs ∧ ofItems vs = v := by
  rw [ofJson, ofJsonAt, map_eq_ok]
  simp only [ofJsonItems_eq_ok_iff fun j _ => ofJsonAt_eq_ok_iff j]

/-- An object stands for the entity that its only member marks, or for a record. -/
theorem ofJson_obj_eq_ok_iff : ofJson (.obj members) = .ok v ↔
    (∃ j u, members = [(entityKey, j)] ∧ Uid.ofJson j = .ok u ∧ .entity u = v) ∨
      entityKey ∉ members.map (·.1) ∧ ∃ fs, FieldsOf members fs ∧ ofFields fs = v := by
  rw [ofJson, ofJsonAt, ← Json.find?_eq_none_iff]
  cases hfind : Json.find? entityKey members with
  | none =>
      have hnone : ¬ ∃ j u, members = [(entityKey, j)] ∧ Uid.ofJson j = .ok u ∧ .entity u = v := by
        rintro ⟨j, u, rfl, -, -⟩
        cases hfind
      simp only [map_eq_ok, ofJsonFields_eq_ok_iff fun m _ => ofJsonAt_eq_ok_iff m.2, hnone, true_and,
        false_or]
  | some j =>
      have honly : members.length = 1 ↔ members = [(entityKey, j)] := by
        rw [List.length_eq_one_iff]
        constructor
        · rintro ⟨m, rfl⟩
          rw [List.mem_singleton.mp (Json.mem_of_find hfind)]
        · exact fun h => ⟨_, h⟩
      simp only [reduceCtorEq, false_and, or_false]
      -- The mark counts only as the only member.
      split
      · rename_i hlength
        constructor
        · intro h
          cases h
        · rintro ⟨_, _, rfl, -⟩
          exact absurd rfl hlength
      · rename_i hlength
        obtain rfl := honly.mp (not_not.mp hlength)
        cases hu : Uid.ofJson j with
        | error e =>
            constructor
            · intro h
              cases h
            · rintro ⟨_, _, hj, hj', -⟩
              cases hj
              cases hu.symm.trans hj'
        | ok u =>
            constructor
            · intro h
              exact ⟨j, u, rfl, hu, Except.ok.inj h⟩
            · rintro ⟨_, _, hj, hj', rfl⟩
              cases hj
              cases hu.symm.trans hj'
              rfl

/-! ### Reading back -/

/-- The JSON form of a value stands for the value. -/
def ReadsBack (v : Value) : Prop :=
  ofJson v.toJson = .ok v

theorem toJsonItems_eq_map (vs : List Value) : toJsonItems vs = vs.map toJson := by
  induction vs with
  | nil => rfl
  | cons v vs ih => rw [toJsonItems, ih, List.map_cons]

theorem toJsonFields_eq_map (fs : List (String × Value)) :
    toJsonFields fs = fs.map fun f => (f.1, f.2.toJson) := by
  induction fs with
  | nil => rfl
  | cons f fs ih => rw [toJsonFields, ih, List.map_cons]

/-- The fields of a record read back if their values do. -/
theorem fieldsOf_toJsonFields (h : ∀ f ∈ fs, ReadsBack f.2) : FieldsOf (toJsonFields fs) fs := by
  rw [toJsonFields_eq_map, FieldsOf, Ascending.Agree, List.forall₂_map_left_iff, List.forall₂_same]
  exact fun f hf => ⟨rfl, h f hf⟩

/-- A set reads back if its items do: what is ascending already is not put in another order. -/
theorem readsBack_ofItems (h : ∀ v ∈ vs, ReadsBack v) : ReadsBack (ofItems vs) := by
  have hitems : List.Forall₂ (fun j v => ofJson j = .ok v) ((Ascending.ofList vs).map toJson)
      (Ascending.ofList vs) := by
    rw [List.forall₂_map_left_iff, List.forall₂_same]
    exact fun v hv => h v (Ascending.mem_of_mem_ofList hv)
  have hsorted : Ascending.ofList (Ascending.ofList vs) = Ascending.ofList vs :=
    (Ascending.sorted_ofList vs).ofList_eq fun _ => Iff.rfl
  rw [ReadsBack, ofItems, toJson, toJsonItems_eq_map]
  exact ofJson_arr_eq_ok_iff.mpr ⟨_, hitems, congrArg set hsorted⟩

/-- A record reads back if its fields do and none of them has the name that marks entities. -/
theorem readsBack_ofFields (hkey : entityKey ∉ fs.map (·.1)) (h : ∀ f ∈ fs, ReadsBack f.2) :
    ReadsBack (ofFields fs) := by
  have hfields : FieldsOf (toJsonFields (Ascending.ofPairs fs)) (Ascending.ofPairs fs) :=
    fieldsOf_toJsonFields fun f hf => h f (Ascending.mem_of_mem_ofPairs hf)
  have hsorted : Ascending.ofPairs (Ascending.ofPairs fs) = Ascending.ofPairs fs :=
    (Ascending.sorted_ofPairs fs).ofPairs_eq fun _ => Iff.rfl
  have hkeys :
      (toJsonFields (Ascending.ofPairs fs)).map (·.1) = Ascending.keys (Ascending.ofPairs fs) := by
    rw [toJsonFields_eq_map, List.map_map]
    rfl
  refine ofJson_obj_eq_ok_iff.mpr (.inr ⟨?_, _, hfields, congrArg record hsorted⟩)
  rw [hkeys, Ascending.mem_keys_ofPairs]
  exact hkey

/-- An entity reads back if its uid is valid. -/
theorem readsBack_entity {u : Uid} (h : u.isValid) : ReadsBack (.entity u) :=
  ofJson_obj_eq_ok_iff.mpr (.inl ⟨u.toJson, u, rfl, Uid.ofJson_toJson_eq_ok h, rfl⟩)

/-- **What a JSON value stands for reads back.** -/
theorem readsBack_of_ofJson (h : ofJson j = .ok v) : ReadsBack v := by
  induction j using Json.induct generalizing v with
  | null => cases h
  | bool b =>
      cases h
      rfl
  | int n =>
      rw [ofJson, ofJsonAt] at h
      split at h
      · cases h
        rw [ReadsBack, ofJson, toJson, ofJsonAt, Long.ofInt?_toInt]
      · cases h
  | float bits => cases h
  | str s =>
      cases h
      rfl
  | arr items ih =>
      obtain ⟨vs, hvs, rfl⟩ := ofJson_arr_eq_ok_iff.mp h
      refine readsBack_ofItems fun v hv => ?_
      obtain ⟨j, hj, hread⟩ := exists_of_mem_forall₂ hvs hv
      exact ih j hj hread
  | obj members ih =>
      rcases ofJson_obj_eq_ok_iff.mp h with ⟨j, u, rfl, hu, rfl⟩ | ⟨hkey, fs, hfs, rfl⟩
      · exact readsBack_entity (Uid.isValid_of_ofJson hu)
      · have hkeys : members.map (·.1) = fs.map (·.1) := hfs.keys_eq
        refine readsBack_ofFields (hkeys ▸ hkey) fun f hf => ?_
        obtain ⟨m, hm, -, hread⟩ := exists_of_mem_forall₂ hfs hf
        exact ih m hm hread

end Value

end AccessPolicy
