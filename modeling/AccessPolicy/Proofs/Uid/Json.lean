import AccessPolicy.Proofs.Json.Merge
import AccessPolicy.Proofs.Uid.Literal
import AccessPolicy.Value.Decode

/-!
# Uids in JSON

* An object with distinct keys stands for a uid exactly if its members `type` and `id` are texts,
  wherever they stand and whatever else does (`Uid.ofJson_obj_eq_ok_iff`); an array has these two
  texts as its items (`Uid.eq_of_ofJson_arr`).
* **The JSON form of a valid uid is read as the uid** (`Uid.ofJson_toJson_eq_ok`), and only valid
  uids are read (`Uid.isValid_of_ofJson`).
-/

namespace AccessPolicy.Uid

variable {j : Json} {u : Uid} {ms : List (String × Json)} {seen : List String} {type id : String}

/-! ### The members of an object -/

/-- Only a text is read as a text. -/
theorem asString_eq_ok_iff {s : String} : Json.asString j = .ok s ↔ j = .str s := by
  cases j <;> simp [Json.asString]

/-- A part comes out as `got`: a member has it, or it was read before. -/
def Has (key : String) (seen : List String) (before : String) (ms : List (String × Json))
    (got : String) : Prop :=
  (key ∈ seen ∧ got = before) ∨ Json.find? key ms = some (.str got)

section members

variable {key k before got : String}

/-- A member with another key changes nothing for a key that is looked for. -/
theorem has_cons_of_ne (h : k ≠ key) :
    Has key seen before ((k, j) :: ms) got ↔ Has key seen before ms got := by
  rw [Has, Json.find?, if_neg h]
  rfl

/-- That another key was seen changes nothing for a key that is looked for. -/
theorem has_seen_cons_of_ne (h : k ≠ key) :
    Has key (k :: seen) before ms got ↔ Has key seen before ms got := by
  rw [Has, List.mem_cons, or_iff_right h.symm]
  rfl

/-- The member of a part has to be a text, and is read before the other members. -/
theorem has_cons_self (hseen : key ∉ seen) (hms : Json.find? key ms = none) :
    Has key seen before ((key, j) :: ms) got ↔ ∃ s, j = .str s ∧ Has key (key :: seen) s ms got := by
  simp [Has, hseen, hms, Json.find?]

/-- To read the members behind a part, that part has to be a text. -/
theorem exists_storeMembers_cons {p q : String × String} {next : String → String × String}
    {read : List String → Prop}
    (hstep : Json.storeMembers ⟨false, false⟩ parts seen ((key, j) :: ms) p =
      Json.asString j >>= fun s => Json.storeMembers ⟨false, false⟩ parts (key :: seen) ms (next s)) :
    (∃ seen', Json.storeMembers ⟨false, false⟩ parts seen ((key, j) :: ms) p = .ok (seen', q) ∧
      read seen') ↔ ∃ s, j = .str s ∧ ∃ seen',
        Json.storeMembers ⟨false, false⟩ parts (key :: seen) ms (next s) = .ok (seen', q) ∧
          read seen' := by
  simp only [hstep, bind_eq_ok, asString_eq_ok_iff]
  constructor
  · rintro ⟨seen', ⟨s, hj, h⟩, hread⟩
    exact ⟨s, hj, seen', h, hread⟩
  · rintro ⟨s, hj, seen', h, hread⟩
    exact ⟨seen', ⟨s, hj, h⟩, hread⟩

end members

/-- Both parts are there when all members are read. -/
theorem exists_storeMembers_iff (hms : (ms.map (·.1)).Nodup) (hseen : ∀ m ∈ ms, m.1 ∉ seen)
    (t i : String) :
    (∃ seen', Json.storeMembers ⟨false, false⟩ parts seen ms (t, i) = .ok (seen', type, id) ∧
      "type" ∈ seen' ∧ "id" ∈ seen') ↔ Has "type" seen t ms type ∧ Has "id" seen i ms id := by
  have hkeys : "id" ≠ "type" := by decide
  induction ms generalizing seen t i with
  | nil =>
      constructor
      · rintro ⟨_, h, htype, hid⟩
        cases h
        exact ⟨.inl ⟨htype, rfl⟩, .inl ⟨hid, rfl⟩⟩
      · rintro ⟨⟨htype, rfl⟩ | htype, ⟨hid, rfl⟩ | hid⟩
        · exact ⟨seen, rfl, htype, hid⟩
        all_goals contradiction
  | cons m ms ih =>
      obtain ⟨key, j⟩ := m
      obtain ⟨hnew, htail⟩ := List.nodup_cons.mp hms
      obtain ⟨hkey, hrest⟩ := List.forall_mem_cons.mp hseen
      have hfind : Json.find? key ms = none := Json.find?_eq_none_iff.mpr hnew
      have hseen' : ∀ m ∈ ms, m.1 ∉ key :: seen := by
        intro m hm
        refine List.not_mem_cons_of_ne_of_not_mem ?_ (hrest m hm)
        exact fun h => hnew (List.mem_map.mpr ⟨m, hm, h⟩)
      -- A member is stored if its key is one of the two, and passed over otherwise.
      by_cases htype : key = "type"
      · subst htype
        have hstep : Json.storeMembers ⟨false, false⟩ parts seen (("type", j) :: ms) (t, i) =
            Json.asString j >>= fun s =>
              Json.storeMembers ⟨false, false⟩ parts ("type" :: seen) ms (s, i) := by
          cases j <;> simp [Json.storeMembers, parts, hkey, Json.asString, Except.map] <;> rfl
        rw [exists_storeMembers_cons hstep, has_cons_self hkey hfind, has_cons_of_ne (by decide)]
        simp only [ih htail hseen', has_seen_cons_of_ne hkeys.symm]
        constructor
        · rintro ⟨s, hj, htype, hid⟩
          exact ⟨⟨s, hj, htype⟩, hid⟩
        · rintro ⟨⟨s, hj, htype⟩, hid⟩
          exact ⟨s, hj, htype, hid⟩
      by_cases hid : key = "id"
      · subst hid
        have hstep : Json.storeMembers ⟨false, false⟩ parts seen (("id", j) :: ms) (t, i) =
            Json.asString j >>= fun s =>
              Json.storeMembers ⟨false, false⟩ parts ("id" :: seen) ms (t, s) := by
          cases j <;> simp [Json.storeMembers, parts, hkey, Json.asString, Except.map] <;> rfl
        rw [exists_storeMembers_cons hstep, has_cons_self hkey hfind, has_cons_of_ne (by decide)]
        simp only [ih htail hseen', has_seen_cons_of_ne hkeys]
        constructor
        · rintro ⟨s, hj, htype, hid⟩
          exact ⟨htype, s, hj, hid⟩
        · rintro ⟨htype, s, hj, hid⟩
          exact ⟨s, hj, htype, hid⟩
      · have hstep : Json.storeMembers ⟨false, false⟩ parts seen ((key, j) :: ms) (t, i) =
            Json.storeMembers ⟨false, false⟩ parts seen ms (t, i) := by
          simp [Json.storeMembers, parts, Ne.symm htype, Ne.symm hid]
        rw [hstep, has_cons_of_ne htype, has_cons_of_ne hid]
        exact ih htail hrest t i

/-! ### The JSON form -/

/-- A record of the two parts is read if both are there. -/
theorem readRecord_obj_eq_ok_iff :
    Json.readRecord ⟨false, false⟩ parts ("", "") (.obj ms) = .ok (type, id) ↔
      ∃ seen, Json.storeMembers ⟨false, false⟩ parts [] ms ("", "") = .ok (seen, type, id) ∧
        "type" ∈ seen ∧ "id" ∈ seen := by
  rw [Json.readRecord]
  cases Json.storeMembers ⟨false, false⟩ parts [] ms ("", "") with
  | error e => simp
  | ok r =>
      obtain ⟨seen, t, i⟩ := r
      by_cases htype : "type" ∈ seen <;> by_cases hid : "id" ∈ seen <;> simp [parts, htype, hid]

/-- What is read is made of its parts. -/
theorem decode_eq_ok_iff : decode j = .ok u ↔
    Json.readRecord ⟨false, false⟩ parts ("", "") j = .ok (u.type, u.id) ∧ u.isValid := by
  unfold decode
  cases Json.readRecord ⟨false, false⟩ parts ("", "") j with
  | error e => simp
  | ok r =>
      obtain ⟨type, id⟩ := r
      simp only [mapError_eq_ok, ofParts_eq_ok_iff, Except.ok.injEq, Prod.mk.injEq]
      refine and_congr_left fun _ => ⟨?_, ?_⟩
      · rintro rfl
        exact ⟨rfl, rfl⟩
      · rintro ⟨rfl, rfl⟩
        rfl

/-- An object with distinct keys stands for the uid of its members `type` and `id`. -/
theorem ofJson_obj_eq_ok_iff (hms : (ms.map (·.1)).Nodup) : ofJson (.obj ms) = .ok u ↔
    (Json.find? "type" ms = some (.str u.type) ∧ Json.find? "id" ms = some (.str u.id)) ∧
      u.isValid := by
  rw [ofJson, mapError_eq_ok, decode_eq_ok_iff, readRecord_obj_eq_ok_iff,
    exists_storeMembers_iff hms (fun _ _ => List.not_mem_nil)]
  · simp [Has]
  · nofun

/-- An array that stands for a uid has the type and the id as its items. -/
theorem eq_of_ofJson_arr {items : List Json} (h : ofJson (.arr items) = .ok u) :
    items = [.str u.type, .str u.id] := by
  have hitems := (decode_eq_ok_iff.mp (mapError_eq_ok.mp h)).1
  simp only [Json.readRecord, parts] at hitems
  rcases items with _ | ⟨x, items⟩
  · cases hitems
  rw [Json.storeItems] at hitems
  cases hx : Json.asString x with
  | error e => simp [hx, Except.map] at hitems
  | ok type =>
      obtain rfl := asString_eq_ok_iff.mp hx
      simp only [hx, Except.map] at hitems
      rcases items with _ | ⟨y, items⟩
      · cases hitems
      rw [Json.storeItems] at hitems
      cases hy : Json.asString y with
      | error e => simp [hy] at hitems
      | ok id =>
          obtain rfl := asString_eq_ok_iff.mp hy
          simp only [hy] at hitems
          cases items with
          | nil =>
              cases hitems
              rfl
          | cons z items => cases hitems

/-- The JSON form of a valid uid is read as the uid. -/
theorem ofJson_toJson_eq_ok (h : u.isValid) : ofJson u.toJson = .ok u := by
  have hkeys : ([("type", Json.str u.type), ("id", .str u.id)].map (·.1)).Nodup := by simp
  exact (ofJson_obj_eq_ok_iff hkeys).mpr ⟨⟨rfl, rfl⟩, h⟩

/-- What is read is a valid uid. -/
theorem isValid_of_ofJson (h : ofJson j = .ok u) : u.isValid := by
  unfold ofJson at h
  split at h
  · exact isValid_of_parse h
  · exact (decode_eq_ok_iff.mp (mapError_eq_ok.mp h)).2

end AccessPolicy.Uid
