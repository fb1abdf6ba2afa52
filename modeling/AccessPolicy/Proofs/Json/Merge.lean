import AccessPolicy.Json.Reader
import Mathlib.Data.List.Nodup

/-!
# Objects without repeated keys

* `Json.Merged v` — merging the repeated keys of `v` changes nothing.
* **Merged values** (`Json.merged_obj_iff`, `Json.merged_arr_iff`) are those whose objects repeat no
  key, at any level.
-/

namespace AccessPolicy.Json

/-- No object in the value repeats a key. -/
def Merged (v : Json) : Prop :=
  v.merge = v

/-- A new key is put at the end. -/
theorem put_of_not_mem {key : String} {v : Json} {ms : List (String × Json)}
    (h : key ∉ ms.map (·.1)) : put key v ms = ms ++ [(key, v)] := by
  induction ms with
  | nil => rfl
  | cons m ms ih =>
      obtain ⟨hne, h⟩ := List.ne_and_not_mem_of_not_mem_cons h
      rw [put, if_neg hne.symm, ih h]
      rfl

/-- The keys after putting one are that key and those before. -/
theorem mem_keys_put {key k : String} {v : Json} {ms : List (String × Json)} :
    k ∈ (put key v ms).map (·.1) ↔ k = key ∨ k ∈ ms.map (·.1) := by
  induction ms with
  | nil => simp [put]
  | cons m ms ih =>
      rw [put]
      split
      · rename_i hk
        simp [hk]
      · rw [List.map_cons, List.mem_cons, ih, List.map_cons, List.mem_cons]
        exact or_left_comm

/-- Putting a key repeats none. -/
theorem nodup_keys_put {key : String} {v : Json} {ms : List (String × Json)}
    (h : (ms.map (·.1)).Nodup) : ((put key v ms).map (·.1)).Nodup := by
  induction ms with
  | nil => exact List.pairwise_singleton _ _
  | cons m ms ih =>
      rw [List.map_cons, List.nodup_cons] at h
      rw [put]
      split
      · exact List.nodup_cons.mpr h
      · rename_i hk
        rw [List.map_cons, List.nodup_cons, mem_keys_put]
        exact ⟨not_or.mpr ⟨hk, h.1⟩, ih h.2⟩

/-- Merging keys leaves each key once. -/
theorem nodup_keys_mergeKeys (ms : List (String × Json)) : ((mergeKeys ms).map (·.1)).Nodup := by
  have key : ∀ (ms acc : List (String × Json)), (acc.map (·.1)).Nodup →
      ((ms.foldl (fun acc m => put m.1 m.2 acc) acc).map (·.1)).Nodup := by
    intro ms
    induction ms with
    | nil => exact fun _ h => h
    | cons m ms ih => exact fun acc h => ih _ (nodup_keys_put h)
  exact key ms [] List.Pairwise.nil

/-- Where no key is repeated there is nothing to merge. -/
theorem mergeKeys_of_nodup {ms : List (String × Json)} (h : (ms.map (·.1)).Nodup) :
    mergeKeys ms = ms := by
  have key : ∀ (ms acc : List (String × Json)), ((acc ++ ms).map (·.1)).Nodup →
      ms.foldl (fun acc m => put m.1 m.2 acc) acc = acc ++ ms := by
    intro ms
    induction ms with
    | nil => exact fun acc _ => (List.append_nil acc).symm
    | cons m ms ih =>
        intro acc h
        have hnew : m.1 ∉ acc.map (·.1) := by
          rw [List.map_append, List.nodup_append] at h
          exact fun hin => h.2.2 _ hin _ List.mem_cons_self rfl
        rw [List.foldl_cons, put_of_not_mem hnew, ih _ (by simpa using h), List.append_assoc]
        rfl
  exact key ms [] h

theorem mergeMembers_eq_map (ms : List (String × Json)) :
    mergeMembers ms = ms.map fun m => (m.1, m.2.merge) := by
  induction ms with
  | nil => rfl
  | cons m ms ih => rw [mergeMembers, ih, List.map_cons]

theorem mergeItems_eq_map (vs : List Json) : mergeItems vs = vs.map merge := by
  induction vs with
  | nil => rfl
  | cons v vs ih => rw [mergeItems, ih, List.map_cons]

/-- A function changes nothing in a list if it changes no item. -/
theorem map_eq_self_iff {α : Type} {f : α → α} {xs : List α} :
    xs.map f = xs ↔ ∀ x ∈ xs, f x = x := by
  induction xs with
  | nil => simp
  | cons x xs ih => simp [ih]

/-- **An object is merged** if no key is repeated and its members are merged. -/
theorem merged_obj_iff {ms : List (String × Json)} :
    (obj ms).Merged ↔ (ms.map (·.1)).Nodup ∧ ∀ m ∈ ms, m.2.Merged := by
  have hkeys : (ms.map fun m => (m.1, m.2.merge)).map (·.1) = ms.map (·.1) := by
    rw [List.map_map]
    rfl
  have hmap : (ms.map fun m => (m.1, m.2.merge)) = ms ↔ ∀ m ∈ ms, m.2.Merged :=
    map_eq_self_iff.trans (forall₂_congr fun m _ => by simp [Merged, Prod.ext_iff])
  unfold Merged
  rw [merge, mergeMembers_eq_map, obj.injEq]
  constructor
  · intro h
    have hnodup : (ms.map (·.1)).Nodup := h ▸ nodup_keys_mergeKeys _
    rw [mergeKeys_of_nodup (hkeys ▸ hnodup)] at h
    exact ⟨hnodup, hmap.mp h⟩
  · rintro ⟨hnodup, hms⟩
    rw [mergeKeys_of_nodup (hkeys ▸ hnodup), hmap.mpr hms]

/-- An object of two members is merged if their keys differ and their values are merged. -/
theorem merged_pair {k l : String} {v w : Json} (h : k ≠ l) (hv : v.Merged) (hw : w.Merged) :
    (obj [(k, v), (l, w)]).Merged := by
  refine merged_obj_iff.mpr ⟨List.nodup_cons.mpr ⟨?_, List.pairwise_singleton _ l⟩, ?_⟩
  · exact List.not_mem_cons_of_ne_of_not_mem h List.not_mem_nil
  · exact List.forall_mem_cons.mpr ⟨hv, List.forall_mem_singleton.mpr hw⟩

/-- **An array is merged** if its items are. -/
theorem merged_arr_iff {vs : List Json} : (arr vs).Merged ↔ ∀ v ∈ vs, v.Merged := by
  unfold Merged
  rw [merge, mergeItems_eq_map, arr.injEq, map_eq_self_iff]

@[simp] theorem merged_str (s : String) : (str s).Merged :=
  rfl

/-- What is found among members is one of them. -/
theorem mem_of_find {α : Type} {ms : List (String × α)} {key : String} {v : α}
    (h : find? key ms = some v) : (key, v) ∈ ms := by
  induction ms with
  | nil => cases h
  | cons m ms ih =>
      rw [find?] at h
      split at h
      · rename_i hkey
        cases h
        exact hkey ▸ List.mem_cons_self
      · exact List.mem_cons_of_mem m (ih h)

/-- What is not found in front is looked for behind it. -/
theorem find?_append {α : Type} {key : String} {front : List (String × α)}
    (h : find? key front = none) (ms : List (String × α)) :
    find? key (front ++ ms) = find? key ms := by
  induction front with
  | nil => rfl
  | cons m front ih =>
      rw [find?] at h
      rw [List.cons_append, find?]
      split at h
      · cases h
      · rename_i hk
        rw [if_neg hk]
        exact ih h

/-- A key is not found exactly if it is none of the keys. -/
theorem find?_eq_none_iff {α : Type} {key : String} {ms : List (String × α)} :
    find? key ms = none ↔ key ∉ ms.map (·.1) := by
  induction ms with
  | nil => exact iff_of_true rfl List.not_mem_nil
  | cons m ms ih =>
      rw [find?, List.map_cons, List.mem_cons, not_or, ← ih]
      split
      · rename_i hk
        exact iff_of_false nofun fun h => h.1 hk.symm
      · rename_i hk
        exact (and_iff_right (Ne.symm hk)).symm

/-- An object has a key if it is among the keys of its members. -/
theorem hasKey_iff {key : String} {ms : List (String × Json)} :
    hasKey key ms ↔ key ∈ ms.map (·.1) := by
  rw [hasKey, Option.isSome_iff_ne_none, Ne, find?_eq_none_iff, not_not]

/-- Where no key is repeated, every member is found under its key. -/
theorem find?_eq_some_iff {α : Type} {key : String} {v : α} {ms : List (String × α)}
    (hms : (ms.map (·.1)).Nodup) : find? key ms = some v ↔ (key, v) ∈ ms := by
  refine ⟨mem_of_find, fun h => ?_⟩
  cases hfind : find? key ms with
  | none => exact absurd (List.mem_map_of_mem h) (find?_eq_none_iff.mp hfind)
  | some w =>
      have hmember : (key, w) = (key, v) := List.inj_on_of_nodup_map hms (mem_of_find hfind) h rfl
      exact congrArg some (congrArg Prod.snd hmember)

/-- It is found there wherever it stands. -/
theorem find?_perm {α : Type} (key : String) {ms ns : List (String × α)} (hms : (ms.map (·.1)).Nodup)
    (h : ms.Perm ns) : find? key ms = find? key ns := by
  have hns : (ns.map (·.1)).Nodup := (h.map _).nodup_iff.mp hms
  refine Option.ext fun v => ?_
  rw [find?_eq_some_iff hms, find?_eq_some_iff hns, h.mem_iff]

/-- A member of a merged object is merged. -/
theorem Merged.of_find {ms : List (String × Json)} {key : String} {v : Json}
    (h : ∀ m ∈ ms, m.2.Merged) (hv : find? key ms = some v) : v.Merged :=
  h _ (mem_of_find hv)

/-- Putting a value keeps the other members. -/
theorem mem_of_mem_put {m : String × Json} {key : String} {v : Json} {ms : List (String × Json)}
    (hm : m ∈ put key v ms) : m.2 = v ∨ m ∈ ms := by
  induction ms with
  | nil => exact .inl (congrArg Prod.snd (List.mem_singleton.mp hm))
  | cons n ms ih =>
      rw [put] at hm
      split at hm
      · rcases List.mem_cons.mp hm with rfl | hm
        · exact .inl rfl
        · exact .inr (List.mem_cons_of_mem n hm)
      · rcases List.mem_cons.mp hm with rfl | hm
        · exact .inr List.mem_cons_self
        · exact (ih hm).imp_right (List.mem_cons_of_mem n)

/-- Putting values one after the other makes up none. -/
theorem mem_of_mem_foldl_put {m : String × Json} (ms : List (String × Json)) :
    ∀ acc : List (String × Json), m ∈ ms.foldl (fun acc n => put n.1 n.2 acc) acc →
      m ∈ acc ∨ m.2 ∈ ms.map (·.2) := by
  induction ms with
  | nil => exact fun acc hm => .inl hm
  | cons n ms ih =>
      intro acc hm
      rcases ih _ hm with hm | hm
      · rcases mem_of_mem_put hm with hm | hm
        · exact .inr (hm ▸ List.mem_cons_self)
        · exact .inl hm
      · exact .inr (List.mem_cons_of_mem _ hm)

/-- Merging keys makes up no values. -/
theorem mem_of_mem_mergeKeys {m : String × Json} {ms : List (String × Json)}
    (h : m ∈ mergeKeys ms) : m.2 ∈ ms.map (·.2) :=
  (mem_of_mem_foldl_put ms [] h).resolve_left List.not_mem_nil

mutual

/-- Merging leaves nothing to merge. -/
theorem merged_merge : (v : Json) → v.merge.Merged
  | arr items => by
      rw [merge, merged_arr_iff]
      exact merged_mergeItems items
  | obj members => by
      rw [merge, merged_obj_iff]
      refine ⟨nodup_keys_mergeKeys _, fun m hm => ?_⟩
      exact merged_mergeMembers members _ (mem_of_mem_mergeKeys hm)
  | null | bool _ | int _ | float _ | str _ => rfl

/-- Merged items are merged, so that merging again changes nothing. -/
theorem merged_mergeItems : (vs : List Json) → ∀ v ∈ mergeItems vs, v.Merged
  | [] => nofun
  | v :: vs => List.forall_mem_cons.mpr ⟨merged_merge v, merged_mergeItems vs⟩

/-- The values of merged members are merged. -/
theorem merged_mergeMembers : (ms : List (String × Json)) →
    ∀ v ∈ (mergeMembers ms).map (·.2), v.Merged
  | [] => nofun
  | (_, v) :: ms => List.forall_mem_cons.mpr ⟨merged_merge v, merged_mergeMembers ms⟩

end

/-- **A parsed value is merged.** -/
theorem merged_of_parse {text : String} {v : Json} (h : parse? text = some v) : v.Merged := by
  obtain ⟨w, -, rfl⟩ := Option.map_eq_some_iff.mp h
  exact merged_merge w

end AccessPolicy.Json
