import AccessPolicy.Proofs.Entity.Json

/-!
# Entity data in another order

* `Role` — what a JSON value inside of entity data stands for, which says whether the items of an
  array may stand in any order (`Role.isCollection`) and what its parts stand for.
* `Reordered role j k` — `k` is `j` with the members of objects and the items of such arrays in
  another order, here and anywhere inside.
* **The order makes no difference** (`Reordered.carries`): whatever `j` stands for, `k` does. There
  is one lemma for each role in which the items or members are put in order, or one of them is
  replaced.
* `survives_json` — the main result, with what holds of the JSON form of what was read.
-/

namespace AccessPolicy.EntityData

/-! ### Roles

In some places of entity data the order counts, and which they are depends on what a value stands
for there. The role goes down with the value: the items of a store are records, the member `attrs`
of a record has attributes. -/

/-- What a JSON value stands for in entity data. -/
inductive Role
  /-- A store: a list of records. -/
  | store
  /-- A record. -/
  | entity
  /-- The attributes of a record. -/
  | attributes
  /-- The parents of a record. -/
  | parents
  /-- A value: the value of an attribute, an item of a set, a field of a record. -/
  | value
  /-- A uid. -/
  | uid
  /-- A part of a uid, or a member that is not read. -/
  | other

namespace Role

/-- The role of an array's items. -/
def item : Role → Role
  | store => entity
  | parents => uid
  | value => value
  | entity | attributes | uid | other => other

/-- The role of the member of an object under a key. -/
def member (key : String) : Role → Role
  | entity =>
    if key = "uid" then uid
    else if key = "attrs" then attributes
    else if key = "parents" then parents
    else other
  | attributes => value
  | value => if key = Value.entityKey then uid else value
  | store | parents | uid | other => other

/-- Whether the order of an array's items says nothing. -/
def isCollection : Role → Bool
  | store | parents | value => true
  | entity | attributes | uid | other => false

/-- Whatever the first value stands for in a role, the second does. -/
def Carries (j k : Json) : Role → Prop
  | store => ∀ s, Entities.ofJson j = .ok s → Entities.ofJson k = .ok s
  | entity => ∀ e, Entity.ofJson j = .ok e → Entity.ofJson k = .ok e
  | attributes => ∀ name attrs, Entity.attrsOfJson name (some j) = .ok attrs →
      Entity.attrsOfJson name (some k) = .ok attrs
  | parents => ∀ name parents, Entity.parentsOfJson name (some j) = .ok parents →
      Entity.parentsOfJson name (some k) = .ok parents
  | value => ∀ v, Value.ofJson j = .ok v → Value.ofJson k = .ok v
  | uid => ∀ u, Uid.ofJson j = .ok u → Uid.ofJson k = .ok u
  | other => ∀ s, j = .str s → k = .str s

/-- A value stands for what it stands for. -/
theorem Carries.refl (role : Role) (j : Json) : role.Carries j j := by
  cases role <;> simp [Carries]

/-- What is carried over twice is carried over. -/
theorem Carries.trans {role : Role} {j k l : Json} (hjk : role.Carries j k) (hkl : role.Carries k l) :
    role.Carries j l := by
  cases role with
  | attributes | parents => exact fun name x h => hkl name x (hjk name x h)
  | store | entity | value | uid | other => exact fun x h => hkl x (hjk x h)

end Role

/-- The second value has the items of sets, of parents and of the whole list, and the members of
objects, in another order than the first, at any number of places. -/
inductive Reordered : Role → Json → Json → Prop
  | refl {role : Role} {j : Json} : Reordered role j j
  | trans {role : Role} {j k l : Json} (hjk : Reordered role j k) (hkl : Reordered role k l) :
      Reordered role j l
  /-- Items in another order. -/
  | items {role : Role} {js ks : List Json} (hrole : role.isCollection) (h : js.Perm ks) :
      Reordered role (.arr js) (.arr ks)
  /-- Members in another order. -/
  | members {role : Role} {ms ns : List (String × Json)} (h : ms.Perm ns) :
      Reordered role (.obj ms) (.obj ns)
  /-- Inside of an item. -/
  | item {role : Role} {front back : List Json} {j k : Json} (h : Reordered role.item j k) :
      Reordered role (.arr (front ++ j :: back)) (.arr (front ++ k :: back))
  /-- Inside of a member. -/
  | member {role : Role} {front back : List (String × Json)} {key : String} {j k : Json}
      (h : Reordered (role.member key) j k) :
      Reordered role (.obj (front ++ (key, j) :: back)) (.obj (front ++ (key, k) :: back))

namespace Reordered

variable {role : Role} {j k : Json}

/-- What was put in another order can be put back. -/
theorem symm (h : Reordered role j k) : Reordered role k j := by
  induction h with
  | refl => exact .refl
  | trans _ _ ihjk ihkl => exact ihkl.trans ihjk
  | items hrole h => exact .items hrole h.symm
  | members h => exact .members h.symm
  | item _ ih => exact .item ih
  | member _ ih => exact .member ih

/-- No key is repeated on the way. -/
theorem merged (h : Reordered role j k) (hj : j.Merged) : k.Merged := by
  induction h with
  | refl => exact hj
  | trans _ _ ihjk ihkl => exact ihkl (ihjk hj)
  | items _ h =>
      rw [Json.merged_arr_iff] at hj ⊢
      exact fun j hj' => hj j (h.mem_iff.mpr hj')
  | members h =>
      rw [Json.merged_obj_iff] at hj ⊢
      exact ⟨(h.map _).nodup_iff.mp hj.1, fun m hm => hj.2 m (h.mem_iff.mpr hm)⟩
  | item _ ih =>
      rw [Json.merged_arr_iff, List.forall_mem_append, List.forall_mem_cons] at hj ⊢
      exact ⟨hj.1, ih hj.2.1, hj.2.2⟩
  | @member role front back key j k _ ih =>
      have hkeys :
          (front ++ (key, k) :: back).map (·.1) = (front ++ (key, j) :: back).map (·.1) := by
        simp
      rw [Json.merged_obj_iff, List.forall_mem_append, List.forall_mem_cons] at hj ⊢
      exact ⟨hkeys ▸ hj.1, hj.2.1, ih hj.2.2.1, hj.2.2.2⟩

end Reordered

/-! ### Items in another order -/

section items

variable {js ks : List Json} (hperm : js.Perm ks)
include hperm

/-- A store sorts its records. -/
theorem carries_items_store : Role.store.Carries (.arr js) (.arr ks) := by
  intro s h
  obtain ⟨es, hes, hs⟩ := Entities.ofJson_arr_eq_ok_iff.mp h
  obtain ⟨fs, hfs, hfes⟩ := exists_forall₂_of_perm hes hperm
  exact Entities.ofJson_arr_eq_ok_iff.mpr ⟨fs, hfs, Entities.ofList_of_perm hs hfes.symm⟩

/-- The parents of a record are sorted, too. -/
theorem carries_items_parents : Role.parents.Carries (.arr js) (.arr ks) := by
  intro name parents h
  obtain ⟨hnone, -⟩ | ⟨items, us, hitems, hus, rfl⟩ := Entity.parentsOfJson_eq_ok_iff.mp h
  · cases hnone
  · cases hitems
    obtain ⟨vs, hvs, hvus⟩ := exists_forall₂_of_perm hus hperm
    exact Entity.parentsOfJson_eq_ok_iff.mpr (.inr ⟨ks, vs, rfl, hvs, Ascending.ofList_perm hvus⟩)

/-- And so are the items of a set. -/
theorem carries_items_value : Role.value.Carries (.arr js) (.arr ks) := by
  intro v h
  obtain ⟨vs, hvs, rfl⟩ := Value.ofJson_arr_eq_ok_iff.mp h
  obtain ⟨ws, hws, hwvs⟩ := exists_forall₂_of_perm hvs hperm
  exact Value.ofJson_arr_eq_ok_iff.mpr ⟨ws, hws, congrArg Value.set (Ascending.ofList_perm hwvs)⟩

end items

/-! ### Members in another order -/

section members

variable {ms ns : List (String × Json)} (hms : (ms.map (·.1)).Nodup) (hperm : ms.Perm ns)
include hms hperm

/-- Fields that come of members in another order make the same map. -/
theorem exists_fieldsOf_of_perm {fs : List (String × Value)} (h : Value.FieldsOf ms fs) :
    ∃ gs, Value.FieldsOf ns gs ∧ Ascending.ofPairs gs = Ascending.ofPairs fs := by
  obtain ⟨gs, hgs, hgfs⟩ := exists_forall₂_of_perm h hperm
  have hkeys : ms.map (·.1) = Ascending.keys fs := h.keys_eq
  exact ⟨gs, hgs, Ascending.ofPairs_perm hgfs (hkeys ▸ hms)⟩

/-- The members of a record are found by their keys. -/
theorem carries_members_entity : Role.entity.Carries (.obj ms) (.obj ns) := by
  intro e h
  obtain ⟨members, v, hmembers, huid, hread, hattrs, hparents⟩ := Entity.ofJson_eq_ok_iff.mp h
  cases hmembers
  rw [Json.find?_perm _ hms hperm] at huid hattrs hparents
  exact Entity.ofJson_eq_ok_iff.mpr ⟨ns, v, rfl, huid, hread, hattrs, hparents⟩

/-- Attributes are sorted by their names. -/
theorem carries_members_attributes : Role.attributes.Carries (.obj ms) (.obj ns) := by
  intro name attrs h
  obtain ⟨hnone, -⟩ | ⟨members, fs, hmembers, hfs, rfl⟩ := Entity.attrsOfJson_eq_ok_iff.mp h
  · cases hnone
  · cases hmembers
    obtain ⟨gs, hgs, hgfs⟩ := exists_fieldsOf_of_perm hms hperm hfs
    exact Entity.attrsOfJson_eq_ok_iff.mpr (.inr ⟨ns, gs, rfl, hgs, hgfs⟩)

/-- The fields of a record are sorted, and the mark of an entity is found by its key. -/
theorem carries_members_value : Role.value.Carries (.obj ms) (.obj ns) := by
  intro v h
  obtain ⟨j, u, rfl, hu, rfl⟩ | ⟨hkey, fs, hfs, rfl⟩ := Value.ofJson_obj_eq_ok_iff.mp h
  · obtain rfl := List.singleton_perm.mp hperm
    exact h
  · obtain ⟨gs, hgs, hgfs⟩ := exists_fieldsOf_of_perm hms hperm hfs
    have hkey' : Value.entityKey ∉ ns.map (·.1) := fun hmem => hkey ((hperm.map _).mem_iff.mpr hmem)
    exact Value.ofJson_obj_eq_ok_iff.mpr (.inr ⟨hkey', gs, hgs, congrArg Value.record hgfs⟩)

/-- The type and the id of a uid are found by their keys. -/
theorem carries_members_uid : Role.uid.Carries (.obj ms) (.obj ns) := by
  intro u h
  have hns : (ns.map (·.1)).Nodup := (hperm.map _).nodup_iff.mp hms
  rw [Uid.ofJson_obj_eq_ok_iff hms] at h
  rw [Uid.ofJson_obj_eq_ok_iff hns, ← Json.find?_perm _ hms hperm, ← Json.find?_perm _ hms hperm]
  exact h

end members

/-! ### An item that is replaced -/

section item

variable {front back : List Json} {j k : Json}

/-- A record in place of another one that it can stand for. -/
theorem carries_item_store (h : Role.entity.Carries j k) :
    Role.store.Carries (.arr (front ++ j :: back)) (.arr (front ++ k :: back)) := by
  intro s hs
  obtain ⟨es, hes, hs⟩ := Entities.ofJson_arr_eq_ok_iff.mp hs
  exact Entities.ofJson_arr_eq_ok_iff.mpr ⟨es, forall₂_replace hes h, hs⟩

/-- A parent in place of another one. -/
theorem carries_item_parents (h : Role.uid.Carries j k) :
    Role.parents.Carries (.arr (front ++ j :: back)) (.arr (front ++ k :: back)) := by
  intro name parents hparents
  obtain ⟨hnone, -⟩ | ⟨items, us, hitems, hus, rfl⟩ := Entity.parentsOfJson_eq_ok_iff.mp hparents
  · cases hnone
  · cases hitems
    exact Entity.parentsOfJson_eq_ok_iff.mpr (.inr ⟨_, us, rfl, forall₂_replace hus h, rfl⟩)

/-- An item of a set in place of another one. -/
theorem carries_item_value (h : Role.value.Carries j k) :
    Role.value.Carries (.arr (front ++ j :: back)) (.arr (front ++ k :: back)) := by
  intro v hv
  obtain ⟨vs, hvs, rfl⟩ := Value.ofJson_arr_eq_ok_iff.mp hv
  exact Value.ofJson_arr_eq_ok_iff.mpr ⟨vs, forall₂_replace hvs h, rfl⟩

/-- The items of an array that stands for a uid are texts. -/
theorem carries_item_uid (h : Role.other.Carries j k) :
    Role.uid.Carries (.arr (front ++ j :: back)) (.arr (front ++ k :: back)) := by
  intro u hu
  have hmem : j ∈ [Json.str u.type, .str u.id] :=
    Uid.eq_of_ofJson_arr hu ▸ List.mem_append_right front List.mem_cons_self
  have htext : ∃ s, j = .str s := by
    rcases List.mem_pair.mp hmem with hj | hj
    · exact ⟨_, hj⟩
    · exact ⟨_, hj⟩
  obtain ⟨s, rfl⟩ := htext
  obtain rfl := h s rfl
  exact hu

end item

/-! ### A member that is replaced -/

section member

variable {front back : List (String × Json)} {key : String} {j k : Json}

/-- Where no key is repeated, a member in the middle is what is found under its key. -/
theorem find?_middle (hms : ((front ++ (key, j) :: back).map (·.1)).Nodup) (l : String) :
    Json.find? l (front ++ (key, j) :: back) =
      if key = l then some j else Json.find? l (front ++ back) := by
  have hkey : key ∉ front.map (·.1) := by
    rw [List.map_append, List.nodup_append] at hms
    exact fun hmem => hms.2.2 key hmem key List.mem_cons_self rfl
  induction front with
  | nil => rfl
  | cons m front ih =>
      obtain ⟨hne, hkey⟩ := List.ne_and_not_mem_of_not_mem_cons hkey
      rw [List.cons_append, Json.find?, List.cons_append, Json.find?, ih hms.of_cons hkey]
      split
      · rename_i hl
        rw [if_neg (hl ▸ hne)]
      · rfl

/-- A field keeps its name when the value is replaced, and has the same value. -/
theorem fieldsOf_replace (h : Role.value.Carries j k) {fs : List (String × Value)}
    (hfs : Value.FieldsOf (front ++ (key, j) :: back) fs) :
    Value.FieldsOf (front ++ (key, k) :: back) fs :=
  forall₂_replace hfs fun f hf => ⟨hf.1, h f.2 hf.2⟩

/-- An attribute keeps its name when its value is replaced. -/
theorem carries_member_attributes (h : Role.value.Carries j k) :
    Role.attributes.Carries (.obj (front ++ (key, j) :: back)) (.obj (front ++ (key, k) :: back)) := by
  intro name attrs hattrs
  obtain ⟨hnone, -⟩ | ⟨members, fs, hmembers, hfs, rfl⟩ := Entity.attrsOfJson_eq_ok_iff.mp hattrs
  · cases hnone
  · cases hmembers
    exact Entity.attrsOfJson_eq_ok_iff.mpr (.inr ⟨_, fs, rfl, fieldsOf_replace h hfs, rfl⟩)

/-- The mark of an entity has a uid under it, and any other member a value. -/
theorem carries_member_value (h : (Role.value.member key).Carries j k) :
    Role.value.Carries (.obj (front ++ (key, j) :: back)) (.obj (front ++ (key, k) :: back)) := by
  intro v hv
  obtain ⟨i, u, hmembers, hu, rfl⟩ | ⟨hkey, fs, hfs, rfl⟩ := Value.ofJson_obj_eq_ok_iff.mp hv
  · obtain ⟨rfl, hmember⟩ := (List.append_eq_singleton_iff.mp hmembers).resolve_right nofun
    cases hmember
    rw [Role.member, if_pos rfl] at h
    exact Value.ofJson_obj_eq_ok_iff.mpr (.inl ⟨k, u, rfl, h u hu, rfl⟩)
  · have hne : key ≠ Value.entityKey := by
      rintro rfl
      exact hkey (by simp)
    rw [Role.member, if_neg hne] at h
    have hkey' : Value.entityKey ∉ (front ++ (key, k) :: back).map (·.1) := by
      simpa using hkey
    exact Value.ofJson_obj_eq_ok_iff.mpr (.inr ⟨hkey', fs, fieldsOf_replace h hfs, rfl⟩)

variable (hj : ((front ++ (key, j) :: back).map (·.1)).Nodup)
include hj

/-- Under the same key another value repeats no key that was not repeated before. -/
theorem nodup_replace : ((front ++ (key, k) :: back).map (·.1)).Nodup := by
  simpa using hj

/-- What holds of the member under a key, or of its absence, holds after a member was replaced, if
it passes to the new member. -/
theorem find?_replace {l : String} {P : Option Json → Prop} (h : key = l → P (some j) → P (some k))
    (hfind : P (Json.find? l (front ++ (key, j) :: back))) :
    P (Json.find? l (front ++ (key, k) :: back)) := by
  rw [find?_middle hj] at hfind
  rw [find?_middle (nodup_replace hj)]
  by_cases hkey : key = l
  · rw [if_pos hkey] at hfind ⊢
    exact h hkey hfind
  · rw [if_neg hkey] at hfind ⊢
    exact hfind

/-- The members of a uid are texts, which stand for nothing but themselves. -/
theorem carries_member_uid (h : Role.other.Carries j k) :
    Role.uid.Carries (.obj (front ++ (key, j) :: back)) (.obj (front ++ (key, k) :: back)) := by
  have htext : ∀ l s, Json.find? l (front ++ (key, j) :: back) = some (.str s) →
      Json.find? l (front ++ (key, k) :: back) = some (.str s) := by
    intro l s
    refine find?_replace hj (P := (· = some (.str s))) fun _ hs => ?_
    exact congrArg some (h s (Option.some.inj hs))
  intro u hu
  obtain ⟨⟨htype, hid⟩, hvalid⟩ := (Uid.ofJson_obj_eq_ok_iff hj).mp hu
  exact (Uid.ofJson_obj_eq_ok_iff (nodup_replace hj)).mpr ⟨⟨htext _ _ htype, htext _ _ hid⟩, hvalid⟩

/-- What a member of a record stands for depends on its key. -/
theorem carries_member_entity (h : (Role.entity.member key).Carries j k) :
    Role.entity.Carries (.obj (front ++ (key, j) :: back)) (.obj (front ++ (key, k) :: back)) := by
  intro e he
  obtain ⟨members, v, hmembers, hv, huid, hattrs, hparents⟩ := Entity.ofJson_eq_ok_iff.mp he
  cases hmembers
  have huid' : ∃ w, Json.find? "uid" (front ++ (key, k) :: back) = some w ∧
      Uid.ofJson w = .ok e.uid := by
    refine find?_replace hj (P := fun x => ∃ w, x = some w ∧ Uid.ofJson w = .ok e.uid) ?_
      ⟨v, hv, huid⟩
    rintro hkey ⟨_, ⟨⟩, huid⟩
    rw [hkey, Role.member, if_pos rfl] at h
    exact ⟨k, rfl, h _ huid⟩
  have hattrs' : Entity.attrsOfJson e.uid.text (Json.find? "attrs" (front ++ (key, k) :: back)) =
      .ok e.attrs := by
    refine find?_replace hj (P := (Entity.attrsOfJson e.uid.text · = .ok e.attrs)) ?_ hattrs
    intro hkey
    rw [hkey, Role.member, if_neg (by decide), if_pos rfl] at h
    exact h _ _
  have hparents' :
      Entity.parentsOfJson e.uid.text (Json.find? "parents" (front ++ (key, k) :: back)) =
      .ok e.parents := by
    refine find?_replace hj (P := (Entity.parentsOfJson e.uid.text · = .ok e.parents)) ?_ hparents
    intro hkey
    rw [hkey, Role.member, if_neg (by decide), if_neg (by decide), if_pos rfl] at h
    exact h _ _
  obtain ⟨w, hw, huid'⟩ := huid'
  exact Entity.ofJson_eq_ok_iff.mpr ⟨_, w, rfl, hw, huid', hattrs', hparents'⟩

end member

/-! ### Any order -/

/-- **Data in another order stands for the same.** -/
theorem Reordered.carries {role : Role} {j k : Json} (h : Reordered role j k) (hj : j.Merged) :
    role.Carries j k := by
  induction h with
  | refl => exact .refl _ _
  | trans hjk _ ihjk ihkl => exact (ihjk hj).trans (ihkl (hjk.merged hj))
  -- Items may only change places where an array is read as a collection.
  | @items role js ks hrole hperm => cases role with
    | store => exact carries_items_store hperm
    | parents => exact carries_items_parents hperm
    | value => exact carries_items_value hperm
    | entity | attributes | uid | other => cases hrole
  | @members role ms ns hperm =>
      have hms := (Json.merged_obj_iff.mp hj).1
      cases role with
      | entity => exact carries_members_entity hms hperm
      | attributes => exact carries_members_attributes hms hperm
      | value => exact carries_members_value hms hperm
      | uid => exact carries_members_uid hms hperm
      | store | parents | other => nofun
  | @item role front back j k _ ih =>
      have hj' :
          j.Merged := Json.merged_arr_iff.mp hj j (List.mem_append_right front List.mem_cons_self)
      cases role with
      | store => exact carries_item_store (ih hj')
      | parents => exact carries_item_parents (ih hj')
      | value => exact carries_item_value (ih hj')
      | uid => exact carries_item_uid (ih hj')
      | entity | attributes | other => nofun
  | @member role front back key j k _ ih =>
      obtain ⟨hms, hmembers⟩ := Json.merged_obj_iff.mp hj
      have hj' : j.Merged := hmembers (key, j) (List.mem_append_right front List.mem_cons_self)
      cases role with
      | entity => exact carries_member_entity hms (ih hj')
      | attributes => exact carries_member_attributes (ih hj')
      | value => exact carries_member_value (ih hj')
      | uid => exact carries_member_uid hms (ih hj')
      | store | parents | other => nofun

/-- **Entity data survives its JSON form.**

* A store that was read is what its JSON form is read as, with the ancestry of its records.
* Where no key is repeated, data in another order is read as the same store, and refused if the data
  in the first order is; so its JSON form does not show the order in which the data was given.
* A value that was read is what its JSON form is read as. -/
theorem survives_json :
    (∀ (j : Json) (s : Entities), Entities.ofJson j = .ok s →
      Entities.ofJson s.toJson = .ok s ∧ Entities.Ancestry s.records s) ∧
    (∀ j k : Json, j.Merged → Reordered .store j k →
      ∀ s, Entities.ofJson j = .ok s ↔ Entities.ofJson k = .ok s) ∧
    ∀ (j : Json) (v : Value), Value.ofJson j = .ok v → Value.ofJson v.toJson = .ok v := by
  refine ⟨fun j s h => Entities.ofJson_toJson_eq_ok h, fun j k hj h s => ?_,
    fun j v h => Value.readsBack_of_ofJson h⟩
  exact ⟨h.carries hj s, h.symm.carries (h.merged hj) s⟩

/-- A user with a literal as uid, a repeated item and a marked entity, and a group without
attributes: in another order at four places, they are the same store, in whose JSON form all uids
are objects. -/
theorem survives_json_user :
    let tags : List Json := [.str "b", .int 1, .str "b"]
    let boss : List (String × Json) := [("type", .str "User"), ("id", .str "bob")]
    let attrs (tags : List Json) (boss : List (String × Json)) : Json :=
      .obj [("tags", .arr tags), ("boss", .obj [("__entity", .obj boss)])]
    let user (attrs : Json) : Json :=
      .obj [("uid", .str "User::\"ann\""), ("attrs", attrs), ("parents", .arr [.str "Group::\"x\""])]
    let group : Json := .obj [("uid", .obj [("type", .str "Group"), ("id", .str "x")])]
    let j : Json := .arr [user (attrs tags boss), group]
    let k : Json := .arr [group, user (attrs tags.reverse boss.reverse)]
    let set : Value := .set [.long ⟨1, by decide, by decide⟩, .string "b"]
    let s : Entities := ⟨[.ofUid ⟨"Group", "x"⟩,
      ⟨⟨"User", "ann"⟩, [("boss", .entity ⟨"User", "bob"⟩), ("tags", set)], [⟨"Group", "x"⟩]⟩]⟩
    (j.Merged ∧ Reordered .store j k ∧ Entities.ofJson j = .ok s ∧ Entities.ofJson k = .ok s) ∧
      (Entities.ofJson s.toJson = .ok s ∧ Entities.Ancestry s.records s) ∧
      Value.ofJson (.arr tags) = .ok set ∧ Value.ofJson set.toJson = .ok set := by
  intro tags boss attrs user group j k set s
  obtain ⟨hstore, horder, hvalue⟩ := survives_json
  have hj : j.Merged := (by decide +kernel : j.merge = j)
  have hs : Entities.ofJson j = .ok s := by decide +kernel
  have hset : Value.ofJson (.arr tags) = .ok set := by decide +kernel
  have htags : Reordered .attributes (attrs tags boss) (attrs tags.reverse boss) :=
    @Reordered.member .attributes [] _ "tags" _ _ (.items rfl (List.reverse_perm tags).symm)
  have hboss :
      Reordered .attributes (attrs tags.reverse boss) (attrs tags.reverse boss.reverse) := by
    refine @Reordered.member .attributes [("tags", _)] [] "boss" _ _ ?_
    exact @Reordered.member .value [] [] "__entity" _ _ (.members (List.reverse_perm boss).symm)
  have hrole : Role.entity.member "attrs" = .attributes := by simp [Role.member]
  have huser :
      Reordered .entity (user (attrs tags boss)) (user (attrs tags.reverse boss.reverse)) :=
    @Reordered.member .entity [("uid", _)] [("parents", _)] "attrs" _ _ (hrole ▸ htags.trans hboss)
  have hjk : Reordered .store j k :=
    (@Reordered.item .store [] [group] _ _ huser).trans (.items rfl (.swap _ _ _))
  exact ⟨⟨hj, hjk, hs, (horder j k hj hjk s).mp hs⟩, hstore j s hs, hset, hvalue _ _ hset⟩

end AccessPolicy.EntityData
