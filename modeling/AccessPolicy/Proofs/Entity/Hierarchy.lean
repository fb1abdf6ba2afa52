import AccessPolicy.Entity.Store
import AccessPolicy.Proofs.Ascending
import AccessPolicy.Proofs.Except
import AccessPolicy.Proofs.Reach

/-!
# What stands above an entity

* `Entities.entries es` — records by their uids, as the entries of a map. **A store is built**
  exactly if no two records share a uid, and it holds the map of their entries
  (`Entities.ofList_eq_ok_iff`), whatever the order in which they were given
  (`Entities.ofList_of_perm`).
* `Entities.HasParent es u v` — a record of `u` among `es` names `v` as a parent. An entity without
  a record has no parents, so that the way upwards ends there.
* `Entities.Ancestry es s` — the ancestors in `s` are what can be reached along the parents in `es`,
  and the search for them ends. **A store has the ancestry of its records**
  (`Entities.ofList_ancestry`).
-/

namespace AccessPolicy.Entities

variable {s t : Entities} {e : Entity} {es fs : List Entity} {u v : Uid}

/-! ### Records as the entries of a map -/

/-- Records by their uids. -/
def entries (es : List Entity) : List (Uid × Entity) :=
  es.map fun e => (e.uid, e)

theorem keys_entries (es : List Entity) : Ascending.keys (entries es) = es.map Entity.uid := by
  rw [entries, Ascending.keys, List.map_map]
  rfl

theorem mem_entries {m : Uid × Entity} : m ∈ entries es ↔ m.2 ∈ es ∧ m.1 = m.2.uid := by
  rw [entries, List.mem_map]
  constructor
  · rintro ⟨e, he, rfl⟩
    exact ⟨he, rfl⟩
  · rintro ⟨he, huid⟩
    exact ⟨m.2, he, Prod.ext huid.symm rfl⟩

theorem map_snd_entries (es : List Entity) : (entries es).map (·.2) = es := by
  rw [entries, List.map_map]
  exact List.map_id es

/-- Records are determined by their entries. -/
theorem entries_injective (h : entries es = entries fs) : es = fs := by
  rw [← map_snd_entries es, h, map_snd_entries fs]

/-- Entries under the uids of their records are the entries of these records. -/
theorem entries_map_snd {ms : List (Uid × Entity)} (h : ∀ m ∈ ms, m.1 = m.2.uid) :
    entries (ms.map (·.2)) = ms := by
  have hpair : ∀ m ∈ ms, (m.2.uid, m.2) = id m := fun m hm => Prod.ext (h m hm).symm rfl
  rw [entries, List.map_map]
  exact (List.map_congr_left hpair).trans (List.map_id ms)

/-- To put a record at its place is to bind its uid. -/
theorem entries_insertRecord (e : Entity) (fs : List Entity) :
    entries (insertRecord e fs) = Ascending.put e.uid e (entries fs) := by
  induction fs with
  | nil => rfl
  | cons f fs ih =>
      have hcons : entries (f :: fs) = (f.uid, f) :: entries fs := rfl
      rw [insertRecord, hcons, Ascending.put]
      cases compare e.uid f.uid with
      | lt => rfl
      | eq => rfl
      | gt => exact congrArg ((f.uid, f) :: ·) ih

/-! ### Building a store -/

/-- Looking for a record is looking up its uid in the entries. -/
theorem find?_eq_get? (s : Entities) (u : Uid) :
    s.find? u = Ascending.get? u (entries s.records) := by
  unfold find?
  induction s.records with
  | nil => rfl
  | cons e es ih =>
      have hcons : entries (e :: es) = (e.uid, e) :: entries es := rfl
      rw [List.find?_cons, hcons, Ascending.get?, ih]
      by_cases heq : e.uid = u
      · simp [heq]
      · simp [heq, Ne.symm heq]

/-- A store has an entity if a record has its uid. -/
theorem contains_iff : s.contains u ↔ u ∈ s.records.map Entity.uid := by
  simp only [contains, find?, List.find?_isSome, decide_eq_true_eq, List.mem_map]

/-- A record is added exactly if its uid is new, and then its entry is put. -/
theorem add_eq_ok_iff : s.add e = .ok t ↔ e.uid ∉ s.records.map Entity.uid ∧
    entries t.records = Ascending.put e.uid e (entries s.records) := by
  rw [← contains_iff, ← entries_insertRecord, add]
  by_cases hknown : s.contains e.uid
  · rw [if_pos hknown]
    exact iff_of_false nofun fun h => h.1 hknown
  · rw [if_neg hknown, Except.ok.injEq]
    constructor
    · rintro rfl
      exact ⟨hknown, rfl⟩
    · rintro ⟨-, h⟩
      rw [← entries_injective h]

/-- Adding records begins with the first one. -/
theorem addAll_cons (s : Entities) (e : Entity) (es : List Entity) :
    s.addAll (e :: es) = s.add e >>= fun t => t.addAll es := by
  rw [addAll]
  cases s.add e <;> rfl

/-- The uids after a record was put at its place. -/
theorem mem_uids_of_put (h : entries t.records = Ascending.put e.uid e (entries s.records)) :
    u ∈ t.records.map Entity.uid ↔ u = e.uid ∨ u ∈ s.records.map Entity.uid := by
  rw [← keys_entries, ← keys_entries, h, Ascending.keys_put, Ascending.mem_insert]

/-- Records are added in order exactly if their uids are distinct and new. -/
theorem addAll_eq_ok_iff : s.addAll es = .ok t ↔ (es.map Entity.uid).Nodup ∧
    (∀ e ∈ es, e.uid ∉ s.records.map Entity.uid) ∧
    entries t.records = Ascending.putAll (entries es) (entries s.records) := by
  induction es generalizing s with
  | nil =>
      rw [addAll, Except.ok.injEq, List.map_nil, and_iff_right List.nodup_nil,
        and_iff_right (List.forall_mem_nil _)]
      constructor
      · rintro rfl
        rfl
      · exact fun h => congrArg Entities.mk (entries_injective h.symm)
  | cons e es ih =>
      have hcons : entries (e :: es) = (e.uid, e) :: entries es := rfl
      simp only [addAll_cons, bind_eq_ok, add_eq_ok_iff, ih, List.map_cons, List.nodup_cons,
        List.forall_mem_cons, hcons, Ascending.putAll_cons]
      constructor
      · rintro ⟨s', ⟨hnew, hput⟩, hnodup, hfresh, hall⟩
        refine ⟨⟨fun hmem => ?_, hnodup⟩, ⟨hnew, fun f hf hmem => ?_⟩, hput ▸ hall⟩
        · obtain ⟨f, hf, huid⟩ := List.mem_map.mp hmem
          exact hfresh f hf ((mem_uids_of_put hput).mpr (.inl huid))
        · exact hfresh f hf ((mem_uids_of_put hput).mpr (.inr hmem))
      · rintro ⟨⟨hne, hnodup⟩, ⟨hnew, hfresh⟩, hall⟩
        have hput := entries_insertRecord e s.records
        refine ⟨⟨insertRecord e s.records⟩, ⟨hnew, hput⟩, hnodup, fun f hf hmem => ?_, hput ▸ hall⟩
        rcases (mem_uids_of_put hput).mp hmem with huid | hmem
        · exact hne (huid ▸ List.mem_map_of_mem hf)
        · exact hfresh f hf hmem

/-- **A store is built** exactly if no two records share a uid, and it holds their entries. -/
theorem ofList_eq_ok_iff : ofList es = .ok s ↔
    (es.map Entity.uid).Nodup ∧ entries s.records = Ascending.ofPairs (entries es) := by
  have hempty : ∀ e ∈ es, e.uid ∉ empty.records.map Entity.uid := fun e _ => List.not_mem_nil
  rw [ofList, addAll_eq_ok_iff, and_iff_right hempty]
  exact Iff.rfl

/-- A store is built exactly if no two records share a uid. -/
theorem exists_ofList_iff : (∃ s, ofList es = .ok s) ↔ (es.map Entity.uid).Nodup := by
  constructor
  · rintro ⟨s, hs⟩
    exact (ofList_eq_ok_iff.mp hs).1
  · intro h
    have huids : ∀ m ∈ Ascending.ofPairs (entries es), m.1 = m.2.uid :=
      fun m hm => (mem_entries.mp (Ascending.mem_of_mem_ofPairs hm)).2
    exact ⟨⟨(Ascending.ofPairs (entries es)).map (·.2)⟩,
      ofList_eq_ok_iff.mpr ⟨h, entries_map_snd huids⟩⟩

/-- **The order in which records are given** does not matter. -/
theorem ofList_of_perm (hs : ofList es = .ok s) (hperm : es.Perm fs) : ofList fs = .ok s := by
  obtain ⟨hnodup, hentries⟩ := ofList_eq_ok_iff.mp hs
  have hkeys : (Ascending.keys (entries es)).Nodup := by rwa [keys_entries]
  refine ofList_eq_ok_iff.mpr ⟨(hperm.map Entity.uid).nodup_iff.mp hnodup, ?_⟩
  rw [hentries]
  exact (Ascending.ofPairs_perm (hperm.symm.map _) hkeys).symm

/-- A store holds the records that it was built of. -/
theorem mem_records_of_ofList (hs : ofList es = .ok s) : e ∈ s.records ↔ e ∈ es := by
  obtain ⟨hnodup, hentries⟩ := ofList_eq_ok_iff.mp hs
  have hkeys : (Ascending.keys (entries es)).Nodup := by rwa [keys_entries]
  have hmem : (e.uid, e) ∈ entries s.records ↔ (e.uid, e) ∈ entries es := by
    rw [hentries, Ascending.mem_ofPairs hkeys]
  simpa [mem_entries] using hmem

/-- The records of a store have distinct uids. -/
theorem nodup_uids_of_ofList (hs : ofList es = .ok s) : (s.records.map Entity.uid).Nodup := by
  rw [← keys_entries, (ofList_eq_ok_iff.mp hs).2]
  exact (Ascending.sorted_ofPairs _).nodup

/-! ### Parents

Above an entity without a record there is nothing. The search looks up parents in the same way, so
that it stops there too. -/

/-- A record of an entity is among the given ones and names another entity as a parent. -/
def HasParent (es : List Entity) (u v : Uid) : Prop :=
  ∃ e ∈ es, e.uid = u ∧ v ∈ e.parents

/-- A parent is named by a record. -/
theorem hasParent_of_mem_parents (h : v ∈ s.parents u) : HasParent s.records u v := by
  unfold parents find? at h
  cases hfind : s.records.find? (·.uid = u) with
  | none =>
      rw [hfind] at h
      cases h
  | some e =>
      rw [hfind] at h
      exact ⟨e, List.mem_of_find?_eq_some hfind, by simpa using List.find?_some hfind, h⟩

/-- An entity without a record has no ancestors. -/
theorem ancestors_of_not_contains (h : s.contains u = false) : s.ancestors u = [] := by
  have hparents : s.parents u = [] := by
    unfold contains at h
    unfold parents
    cases hfind : s.find? u with
    | none => rfl
    | some e => rw [hfind] at h; cases h
  unfold ancestors Reach.nodes
  rw [hparents]
  rfl

/-- An entity belongs to itself and to what its parents lead to. -/
theorem eq_or_leads_of_isDescendant (h : s.isDescendant u v) :
    u = v ∨ Reach.Leads s.parents u v := by
  rw [isDescendant, Bool.or_eq_true, beq_iff_eq, List.contains_iff_mem] at h
  exact h.imp_right Reach.leads_of_mem_nodes

/-- The parents in a store, as successors in a graph. -/
theorem parents_eq (s : Entities) :
    s.parents = Reach.successors Entity.parents (entries s.records) := by
  funext u
  unfold parents Reach.successors
  rw [find?_eq_get?]
  cases Ascending.get? u (entries s.records) <;> rfl

/-- The edges of a store are the parents in all its entries. -/
theorem edgeCount_eq (s : Entities) :
    s.edgeCount = ((entries s.records).flatMap fun m => m.2.parents).length := by
  rw [edgeCount, entries, List.flatMap_map]

section

variable (hs : (s.records.map Entity.uid).Nodup)

include hs

/-- The parents that the search looks up are those that a record names. -/
theorem mem_parents_iff : v ∈ s.parents u ↔ HasParent s.records u v := by
  rw [parents_eq, Reach.mem_successors_iff (by rwa [keys_entries])]
  constructor
  · rintro ⟨e, he, hv⟩
    obtain ⟨he, huid⟩ := mem_entries.mp he
    exact ⟨e, he, huid.symm, hv⟩
  · rintro ⟨e, he, rfl, hv⟩
    exact ⟨e, mem_entries.mpr ⟨he, rfl⟩, hv⟩

/-- The ancestors of an entity are what some path upwards leads to. -/
theorem mem_ancestors_iff : v ∈ s.ancestors u ↔ Reach.Leads s.parents u v := by
  rw [ancestors, parents_eq, edgeCount_eq]
  exact Reach.mem_nodes_successors_iff (by rwa [keys_entries])

/-- An entity is a descendant of itself and of what some path upwards leads to. -/
theorem isDescendant_iff :
    s.isDescendant u v ↔ Relation.ReflTransGen (fun x y => y ∈ s.parents x) u v := by
  rw [isDescendant, Bool.or_eq_true, beq_iff_eq, List.contains_iff_mem, mem_ancestors_iff hs]
  exact Reach.eq_or_leads_iff

/-- The search for ancestors ends with them, however often it is led to the same entities. -/
theorem explores_ancestors_iff {found : List Uid} :
    Reach.Explores s.parents (s.parents u) [] found ↔ found = s.ancestors u := by
  rw [ancestors, parents_eq, edgeCount_eq]
  exact Reach.explores_nodes_iff (by rwa [keys_entries])

end

/-! ### Ancestry -/

/-- The ancestors in a store are what can be reached along the parents in the given records. -/
structure Ancestry (es : List Entity) (s : Entities) : Prop where
  /-- The search for ancestors ends, also where parents form cycles or have no records. -/
  ends : ∀ u found, Reach.Explores s.parents (s.parents u) [] found ↔ found = s.ancestors u
  /-- Ancestors are listed in order, and once. -/
  sorted : ∀ u, Ascending.Sorted (s.ancestors u)
  /-- The ancestors are reached by one parent edge or more, each of which leaves a record. -/
  mem_ancestors : ∀ u v, v ∈ s.ancestors u ↔ Relation.TransGen (HasParent es) u v
  /-- An entity without a record has no ancestors, even if it is one itself. -/
  unknown : ∀ u, u ∉ es.map Entity.uid → s.ancestors u = []
  /-- An entity is its own ancestor exactly if it lies on a cycle: one of its parents belongs to
  it. -/
  cycle : ∀ u, u ∈ s.ancestors u ↔ ∃ v, HasParent es u v ∧ s.isDescendant v u
  /-- An entity belongs to what is reached by any number of parent edges. -/
  isDescendant : ∀ u v, s.isDescendant u v ↔ Relation.ReflTransGen (HasParent es) u v
  /-- An entity belongs to itself. -/
  refl : ∀ u, s.isDescendant u u
  /-- An entity belongs to what the entities belong to that it belongs to. -/
  trans : ∀ u v w, s.isDescendant u v → s.isDescendant v w → s.isDescendant u w

/-- A store has the ancestry of the records that it was built of. -/
theorem ancestry_of_ofList (hs : ofList es = .ok s) : Ancestry es s := by
  have hnodup := nodup_uids_of_ofList hs
  have hparent : (fun x y => y ∈ s.parents x) = HasParent es := by
    funext x y
    simp only [mem_parents_iff hnodup, HasParent, mem_records_of_ofList hs]
  have hdescendant : ∀ u v, s.isDescendant u v ↔ Relation.ReflTransGen (HasParent es) u v := by
    intro u v
    rw [isDescendant_iff hnodup, hparent]
  have hancestor : ∀ u v, v ∈ s.ancestors u ↔ Relation.TransGen (HasParent es) u v := by
    intro u v
    rw [mem_ancestors_iff hnodup, Reach.Leads, hparent]
  constructor
  case ends => exact fun u found => explores_ancestors_iff hnodup
  case sorted => exact fun u => Reach.sorted_nodes
  case mem_ancestors => exact hancestor
  case unknown =>
    intro u hu
    refine ancestors_of_not_contains (Bool.eq_false_iff.mpr fun hknown => hu ?_)
    obtain ⟨e, he, rfl⟩ := List.mem_map.mp (contains_iff.mp hknown)
    exact List.mem_map_of_mem ((mem_records_of_ofList hs).mp he)
  case cycle =>
    intro u
    simp only [hancestor, hdescendant]
    exact Relation.TransGen.head'_iff
  case isDescendant => exact hdescendant
  case refl => exact fun u => (hdescendant u u).mpr .refl
  case trans =>
    intro u v w huv hvw
    exact (hdescendant u w).mpr (((hdescendant u v).mp huv).trans ((hdescendant v w).mp hvw))

/-- **A store has exactly the ancestry of its records.** It is built unless two records share a uid;
its ancestors are then what can be reached along the parents that the records name, and the records
make the same store in any order. -/
theorem ofList_ancestry (es : List Entity) :
    ((∃ err, ofList es = .error err) ↔ ¬ (es.map Entity.uid).Nodup) ∧
    ∀ s, ofList es = .ok s → Ancestry es s ∧ ∀ fs, es.Perm fs → ofList fs = .ok s := by
  refine ⟨?_, fun s hs => ⟨ancestry_of_ofList hs, fun fs hperm => ofList_of_perm hs hperm⟩⟩
  rw [exists_error_iff, exists_ofList_iff]

/-- Two groups that contain each other, one of which also names a group without a record: the cycle
is followed once, and the way ends at the unknown group. -/
theorem ofList_ancestry_cycle :
    let staff : Entity := ⟨⟨"Group", "staff"⟩, [], [⟨"Group", "all"⟩]⟩
    let all : Entity := ⟨⟨"Group", "all"⟩, [], [⟨"Group", "ghost"⟩, ⟨"Group", "staff"⟩]⟩
    let s : Entities := ⟨[all, staff]⟩
    ofList [staff, all] = .ok s ∧ Ancestry [staff, all] s ∧
      s.ancestors staff.uid = [all.uid, ⟨"Group", "ghost"⟩, staff.uid] ∧
      [staff, all].Perm [all, staff] ∧ ofList [all, staff] = .ok s := by
  intro staff all s
  have hs : ofList [staff, all] = .ok s := by decide +kernel
  have hperm : [staff, all].Perm [all, staff] := .swap _ _ _
  obtain ⟨hancestry, horder⟩ := (ofList_ancestry [staff, all]).2 s hs
  exact ⟨hs, hancestry, by decide +kernel, hperm, horder _ hperm⟩

end AccessPolicy.Entities
