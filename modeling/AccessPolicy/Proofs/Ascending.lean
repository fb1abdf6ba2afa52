import AccessPolicy.Ascending
import AccessPolicy.Expr.Basic
import Mathlib.Data.List.Forall2
import Mathlib.Data.List.Nodup

/-!
# Laws of ascending lists

* `Sorted xs` — a list ascends strictly; a map is sorted when its keys are.
* **Canonical form** (`Sorted.ext`, `Sorted.ext_entries`): a sorted list is determined by its
  elements and a sorted map by its entries, so that equal sets and maps are equal lists.
* **Insertion** (`mem_insert`, `Sorted.insert`, `mem_put`, `Sorted.put`): `insert` and `put` keep a
  list sorted and add what they are given, whatever the order in which things are added.
* **Appending in order** (`put_append_of_lt`, `put_cons_of_lt`): putting the greatest key puts it at
  the end, and putting the least one puts it in front.
* **Rebuilding** (`Sorted.ofList_eq`, `Sorted.ofPairs_eq`): a sorted list or map comes of its
  elements or entries in any order; entries with distinct keys make the same map in any order
  (`ofPairs_perm`).
* **Agreement** (`Agree.ofPairs`, `Agree.get?`): maps of lists with the same keys and related values
  have related values under each key.

The laws of membership that do not depend on the order (`mem_of_mem_insert`, `mem_of_mem_ofList`)
need no laws of `compare`. The others hold for the orders that are used as keys: those of slots, of
integers and of uids are total, and what compares equal is equal.
-/

namespace AccessPolicy

/-! ### Lawful orders -/

instance : Std.TransOrd Slot where
  eq_swap {s t} := by cases s <;> cases t <;> rfl
  isLE_trans {s t u} := by cases s <;> cases t <;> cases u <;> decide

instance : Std.LawfulEqOrd Slot where
  compare_self {s} := by cases s <;> rfl
  eq_of_compare {s t} := by cases s <;> cases t <;> decide

instance : Std.LawfulEqOrd Long where
  compare_self {a} := Std.compare_self (a := a.toInt)
  eq_of_compare {_ _} h := Long.ext (Std.LawfulEqOrd.eq_of_compare h)

instance : Std.TransOrd Long :=
  inferInstanceAs (Std.TransCmp (compareOn Long.toInt))

instance : Std.LawfulEqOrd Uid where
  compare_self {u} := by
    change (compare u.type u.type).then (compare u.id u.id) = .eq
    rw [Std.compare_self, Std.compare_self]
    rfl
  eq_of_compare {u v} h := by
    change (compare u.type v.type).then (compare u.id v.id) = .eq at h
    obtain ⟨htype, hid⟩ := Ordering.then_eq_eq.mp h
    exact congrArg₂ Uid.mk (Std.LawfulEqOrd.eq_of_compare htype)
      (Std.LawfulEqOrd.eq_of_compare hid)

instance : Std.TransOrd Uid :=
  inferInstanceAs (Std.TransCmp (compareLex (compareOn Uid.type) (compareOn Uid.id)))

namespace Ascending

variable {κ α β : Type}

/-! ### Sets -/

section sets

variable [Ord α]

/-- The list ascends strictly. -/
def Sorted (xs : List α) : Prop :=
  xs.Pairwise fun a b => compare a b = .lt

instance (xs : List α) : Decidable (Sorted xs) :=
  inferInstanceAs (Decidable (xs.Pairwise fun a b => compare a b = .lt))

theorem Sorted.nil : Sorted ([] : List α) :=
  List.Pairwise.nil

/-- A sorted list starts with its least element. -/
theorem sorted_cons {x : α} {xs : List α} :
    Sorted (x :: xs) ↔ (∀ y ∈ xs, compare x y = .lt) ∧ Sorted xs :=
  List.pairwise_cons

/-- What is in a list after an insertion was inserted or was there before. -/
theorem mem_of_mem_insert {x y : α} {xs : List α} (h : y ∈ insert x xs) : y = x ∨ y ∈ xs := by
  induction xs with
  | nil => exact .inl (by simpa [insert] using h)
  | cons z zs ih =>
      unfold insert at h
      cases hc : compare x z <;> rw [hc] at h
      · simpa using h
      · exact .inr h
      · rcases List.mem_cons.mp h with rfl | h
        · exact .inr List.mem_cons_self
        · exact (ih h).imp_right (List.mem_cons_of_mem z)

/-- What is in the ascending list of some elements is one of them. -/
theorem mem_of_mem_ofList {y : α} {xs : List α} (h : y ∈ ofList xs) : y ∈ xs := by
  have key : ∀ (xs s : List α), y ∈ xs.foldl (fun s x => insert x s) s → y ∈ s ∨ y ∈ xs := by
    intro xs
    induction xs with
    | nil => exact fun s h => .inl h
    | cons x xs ih =>
        intro s h
        rcases ih _ h with h | h
        · rcases mem_of_mem_insert h with rfl | h
          · exact .inr List.mem_cons_self
          · exact .inl h
        · exact .inr (List.mem_cons_of_mem x h)
  simpa using key xs [] h

/-- A sorted list repeats nothing. -/
theorem Sorted.nodup [Std.LawfulEqOrd α] {xs : List α} (h : Sorted xs) : xs.Nodup := by
  refine h.imp ?_
  rintro a _ hab rfl
  rw [Std.compare_self] at hab
  cases hab

/-- Inserting adds one element. -/
theorem mem_insert [Std.LawfulEqOrd α] {x y : α} {xs : List α} :
    y ∈ insert x xs ↔ y = x ∨ y ∈ xs := by
  refine ⟨mem_of_mem_insert, ?_⟩
  induction xs with
  | nil => simp [insert]
  | cons z zs ih =>
      intro h
      unfold insert
      cases hc : compare x z with
      | lt => simpa using h
      | eq =>
          rcases h with rfl | h
          · rw [Std.LawfulEqOrd.eq_of_compare hc]
            exact List.mem_cons_self
          · exact h
      | gt =>
          rcases h with rfl | h
          · exact List.mem_cons_of_mem z (ih (.inl rfl))
          · rcases List.mem_cons.mp h with rfl | h
            · exact List.mem_cons_self
            · exact List.mem_cons_of_mem z (ih (.inr h))

/-- The ascending list of some elements has these elements. -/
theorem mem_ofList [Std.LawfulEqOrd α] {y : α} {xs : List α} : y ∈ ofList xs ↔ y ∈ xs := by
  have key : ∀ (xs s : List α), y ∈ xs.foldl (fun s x => insert x s) s ↔ y ∈ s ∨ y ∈ xs := by
    intro xs
    induction xs with
    | nil => simp
    | cons x xs ih =>
        intro s
        rw [List.foldl_cons, ih, mem_insert, List.mem_cons, or_assoc, or_left_comm]
  rw [ofList, key xs [], or_iff_right List.not_mem_nil]

variable [Std.TransOrd α]

/-- Insertion keeps a list sorted. -/
theorem Sorted.insert {x : α} {xs : List α} (h : Sorted xs) : Sorted (insert x xs) := by
  induction xs with
  | nil => exact List.pairwise_singleton _ x
  | cons y ys ih =>
      obtain ⟨hy, hys⟩ := sorted_cons.mp h
      unfold Ascending.insert
      cases hc : compare x y with
      | lt =>
          refine sorted_cons.mpr ⟨fun z hz => ?_, h⟩
          rcases List.mem_cons.mp hz with rfl | hz
          · exact hc
          · exact Std.TransCmp.lt_trans hc (hy z hz)
      | eq => exact h
      | gt =>
          refine sorted_cons.mpr ⟨fun z hz => ?_, ih hys⟩
          rcases mem_of_mem_insert hz with rfl | hz
          · exact Std.OrientedCmp.lt_of_gt hc
          · exact hy z hz

/-- The ascending list of some elements is sorted. -/
theorem sorted_ofList (xs : List α) : Sorted (ofList xs) := by
  have key :
      ∀ (xs s : List α), Sorted s → Sorted (xs.foldl (fun s x => Ascending.insert x s) s) := by
    intro xs
    induction xs with
    | nil => exact fun s hs => hs
    | cons x xs ih => exact fun s hs => ih _ hs.insert
  exact key xs [] .nil

/-- Sorted lists with the same elements are equal. -/
theorem Sorted.ext [Std.LawfulEqOrd α] {xs ys : List α} (hx : Sorted xs) (hy : Sorted ys)
    (h : ∀ a, a ∈ xs ↔ a ∈ ys) : xs = ys := by
  have hp : xs.Perm ys := (List.perm_ext_iff_of_nodup hx.nodup hy.nodup).mpr h
  refine hp.eq_of_pairwise (fun a b _ _ hab hba => ?_) hx hy
  have := Std.TransCmp.lt_trans hab hba
  rw [Std.compare_self] at this
  cases this

/-- The ascending list of the elements of a sorted list is that list. -/
theorem Sorted.ofList_eq [Std.LawfulEqOrd α] {xs ys : List α} (h : Sorted ys)
    (hmem : ∀ a, a ∈ xs ↔ a ∈ ys) : ofList xs = ys :=
  (sorted_ofList xs).ext h fun a => mem_ofList.trans (hmem a)

/-- The order in which elements are given makes no difference. -/
theorem ofList_perm [Std.LawfulEqOrd α] {xs xs' : List α} (h : xs.Perm xs') :
    ofList xs = ofList xs' :=
  (sorted_ofList xs').ofList_eq fun _ => h.mem_iff.trans mem_ofList.symm

end sets

/-! ### Maps -/

section maps

/-- A value that is found under a key is the value of an entry. -/
theorem mem_of_get? [DecidableEq κ] {k : κ} {v : α} {ms : List (κ × α)} (h : get? k ms = some v) :
    (k, v) ∈ ms := by
  induction ms with
  | nil => cases h
  | cons m ms ih =>
      unfold get? at h
      split at h
      · rename_i hk
        cases h
        subst hk
        exact List.mem_cons_self
      · exact List.mem_cons_of_mem m (ih h)

/-- Where no key comes twice, the value of an entry is found under its key. -/
theorem get?_of_mem [DecidableEq κ] {k : κ} {v : α} {ms : List (κ × α)} (hms : (keys ms).Nodup)
    (h : (k, v) ∈ ms) : get? k ms = some v := by
  induction ms with
  | nil => cases h
  | cons m ms ih =>
      obtain ⟨hm, hms⟩ : m.1 ∉ keys ms ∧ (keys ms).Nodup := List.nodup_cons.mp hms
      rw [get?]
      rcases List.mem_cons.mp h with rfl | h
      · exact if_pos rfl
      · have hk : k ∈ keys ms := List.mem_map_of_mem h
        have hne : k ≠ m.1 := fun heq => hm (heq ▸ hk)
        rw [if_neg hne]
        exact ih hms h

/-- An entry binds its key. -/
theorem hasKey_of_mem [DecidableEq κ] {m : κ × α} {ms : List (κ × α)} (h : m ∈ ms) :
    hasKey m.1 ms := by
  unfold hasKey
  induction ms with
  | nil => cases h
  | cons n ns ih =>
      unfold get?
      split
      · rfl
      · rename_i hne
        rcases List.mem_cons.mp h with rfl | h
        · exact absurd rfl hne
        · exact ih h

/-- A key is bound exactly if it is one of the keys. -/
theorem hasKey_iff [DecidableEq κ] {k : κ} {ms : List (κ × α)} : hasKey k ms ↔ k ∈ keys ms := by
  constructor
  · intro h
    obtain ⟨v, hv⟩ := Option.isSome_iff_exists.mp h
    exact List.mem_map.mpr ⟨(k, v), mem_of_get? hv, rfl⟩
  · intro h
    obtain ⟨m, hm, rfl⟩ := List.mem_map.mp h
    exact hasKey_of_mem hm

variable [Ord κ]

/-- An entry of a map after `put` was put there or was there before. -/
theorem mem_of_mem_put {k : κ} {v : α} {m : κ × α} {ms : List (κ × α)} (h : m ∈ put k v ms) :
    m = (k, v) ∨ m ∈ ms := by
  induction ms with
  | nil => exact .inl (by simpa [put] using h)
  | cons n ns ih =>
      unfold put at h
      cases hc : compare k n.1 <;> rw [hc] at h
      · simpa using h
      · exact (List.mem_cons.mp h).imp_right (List.mem_cons_of_mem n)
      · rcases List.mem_cons.mp h with rfl | h
        · exact .inr List.mem_cons_self
        · exact (ih h).imp_right (List.mem_cons_of_mem n)

/-- The keys after `put`. -/
theorem keys_put [Std.LawfulEqOrd κ] (k : κ) (v : α) (ms : List (κ × α)) :
    keys (put k v ms) = insert k (keys ms) := by
  induction ms with
  | nil => rfl
  | cons m ms ih =>
      obtain ⟨l, w⟩ := m
      simp only [put, keys, List.map_cons, insert]
      cases hc : compare k l with
      | lt => rfl
      | eq => simp only [List.map_cons, Std.LawfulEqOrd.eq_of_compare hc]
      | gt => simpa [keys] using ih

/-- A key that sorts behind all others is put at the end. -/
theorem put_append_of_lt [Std.OrientedOrd κ] {k : κ} {v : α} {ms : List (κ × α)}
    (h : ∀ m ∈ ms, compare m.1 k = .lt) : put k v ms = ms ++ [(k, v)] := by
  induction ms with
  | nil => rfl
  | cons m ms ih =>
      have hm : compare k m.1 = .gt := Std.OrientedCmp.gt_of_lt (h m List.mem_cons_self)
      simp only [put, hm, List.cons_append]
      rw [ih fun n hn => h n (List.mem_cons_of_mem m hn)]

/-- A key that sorts before all others is put in front. -/
theorem put_cons_of_lt {k : κ} {v : α} {ms : List (κ × α)}
    (h : ∀ m ∈ ms, compare k m.1 = .lt) : put k v ms = (k, v) :: ms := by
  cases ms with
  | nil => rfl
  | cons m ms => simp only [put, h m List.mem_cons_self]

/-- What is found under a key after `put`. -/
theorem get?_put [Std.LawfulEqOrd κ] [DecidableEq κ] (k l : κ) (v : α) (ms : List (κ × α)) :
    get? k (put l v ms) = if k = l then some v else get? k ms := by
  induction ms with
  | nil => rfl
  | cons m ms ih =>
      obtain ⟨n, w⟩ := m
      unfold put
      cases hc : compare l n with
      | lt => rfl
      | eq =>
          obtain rfl : l = n := Std.LawfulEqOrd.eq_of_compare hc
          by_cases hk : k = l
          · simp [get?, hk]
          · simp [get?, hk]
      | gt =>
          have hne : l ≠ n := by
            rintro rfl
            rw [Std.compare_self] at hc
            cases hc
          by_cases hk : k = n
          · subst hk
            simp [get?, hne.symm]
          · simpa [get?, hk] using ih

/-- Putting a new key adds one entry. -/
theorem mem_put [Std.LawfulEqOrd κ] {k : κ} {v : α} {m : κ × α} {ms : List (κ × α)}
    (hk : k ∉ keys ms) :
    m ∈ put k v ms ↔ m = (k, v) ∨ m ∈ ms := by
  refine ⟨mem_of_mem_put, ?_⟩
  induction ms with
  | nil => simp [put]
  | cons n ns ih =>
      intro h
      have hns : k ∉ keys ns := fun hn => hk (List.mem_cons_of_mem _ hn)
      unfold put
      cases hc : compare k n.1 with
      | lt => simpa using h
      | eq => exact absurd (Std.LawfulEqOrd.eq_of_compare hc ▸ List.mem_cons_self) hk
      | gt =>
          rcases h with rfl | h
          · exact List.mem_cons_of_mem n (ih hns (.inl rfl))
          · rcases List.mem_cons.mp h with rfl | h
            · exact List.mem_cons_self
            · exact List.mem_cons_of_mem n (ih hns (.inr h))

variable [Std.TransOrd κ] [Std.LawfulEqOrd κ]

/-- `put` keeps a map sorted. -/
theorem Sorted.put {k : κ} {v : α} {ms : List (κ × α)} (h : Sorted (keys ms)) :
    Sorted (keys (put k v ms)) := by
  rw [keys_put]
  exact h.insert

/-- Sorted maps with the same entries are equal. -/
theorem Sorted.ext_entries {ms ns : List (κ × α)} (hm : Sorted (keys ms)) (hn : Sorted (keys ns))
    (h : ∀ m, m ∈ ms ↔ m ∈ ns) : ms = ns := by
  have lift : ∀ {l : List (κ × α)}, Sorted (keys l) →
      l.Pairwise fun a b => compare a.1 b.1 = .lt := fun hl => List.pairwise_map.mp hl
  have nodup : ∀ {l : List (κ × α)}, Sorted (keys l) → l.Nodup := by
    intro l hl
    refine (lift hl).imp ?_
    rintro a _ hab rfl
    rw [Std.compare_self] at hab
    cases hab
  have hp : ms.Perm ns := (List.perm_ext_iff_of_nodup (nodup hm) (nodup hn)).mpr h
  refine hp.eq_of_pairwise (fun a b _ _ hab hba => ?_) (lift hm) (lift hn)
  have := Std.TransCmp.lt_trans hab hba
  rw [Std.compare_self] at this
  cases this

end maps

/-! ### Putting many entries -/

section puts

variable [Ord κ]

/-- Bind the keys of a list, of which later ones win. -/
def putAll (ns ms : List (κ × α)) : List (κ × α) :=
  ns.foldl (fun ms n => Ascending.put n.1 n.2 ms) ms

@[simp] theorem putAll_nil (ms : List (κ × α)) : putAll [] ms = ms := rfl

@[simp] theorem putAll_cons (n : κ × α) (ns ms : List (κ × α)) :
    putAll (n :: ns) ms = putAll ns (Ascending.put n.1 n.2 ms) := rfl

theorem putAll_append (ns ns' ms : List (κ × α)) :
    putAll (ns ++ ns') ms = putAll ns' (putAll ns ms) :=
  List.foldl_append

theorem mem_of_mem_putAll {m : κ × α} {ns ms : List (κ × α)} (h : m ∈ putAll ns ms) :
    m ∈ ns ∨ m ∈ ms := by
  induction ns generalizing ms with
  | nil => exact .inr h
  | cons n ns ih =>
      rcases ih h with h | h
      · exact .inl (List.mem_cons_of_mem n h)
      · rcases mem_of_mem_put h with rfl | h
        · exact .inl List.mem_cons_self
        · exact .inr h

theorem mem_keys_putAll [Std.LawfulEqOrd κ] {k : κ} {ns ms : List (κ × α)} :
    k ∈ keys (putAll ns ms) ↔ k ∈ keys ns ∨ k ∈ keys ms := by
  induction ns generalizing ms with
  | nil => exact (or_iff_right List.not_mem_nil).symm
  | cons n ns ih =>
      rw [putAll_cons, ih, keys_put, mem_insert]
      simp only [keys, List.map_cons, List.mem_cons, or_assoc, or_left_comm]

/-- An entry of the map of a list is in the list. -/
theorem mem_of_mem_ofPairs {m : κ × α} {ns : List (κ × α)} (h : m ∈ ofPairs ns) : m ∈ ns :=
  (mem_of_mem_putAll h).resolve_right List.not_mem_nil

/-- The map of a list binds the keys of the list. -/
theorem mem_keys_ofPairs [Std.LawfulEqOrd κ] {k : κ} {ns : List (κ × α)} :
    k ∈ keys (ofPairs ns) ↔ k ∈ keys ns :=
  mem_keys_putAll.trans (or_iff_left List.not_mem_nil)

/-- Where the keys of a list are distinct, its map has the entries of the list. -/
theorem mem_ofPairs [Std.LawfulEqOrd κ] {m : κ × α} {ns : List (κ × α)} (h : (keys ns).Nodup) :
    m ∈ ofPairs ns ↔ m ∈ ns := by
  refine ⟨mem_of_mem_ofPairs, fun hm => ?_⟩
  obtain ⟨n, hn, hnm⟩ := List.mem_map.mp (mem_keys_ofPairs.mpr (List.mem_map_of_mem hm))
  have heq : n = m := List.inj_on_of_nodup_map h (mem_of_mem_ofPairs hn) hm hnm
  exact heq ▸ hn

variable [Std.TransOrd κ] [Std.LawfulEqOrd κ]

theorem Sorted.putAll {ns ms : List (κ × α)} (h : Sorted (keys ms)) :
    Sorted (keys (putAll ns ms)) := by
  induction ns generalizing ms with
  | nil => exact h
  | cons n ns ih => exact ih h.put

/-- The map of a list is sorted. -/
theorem sorted_ofPairs (ns : List (κ × α)) : Sorted (keys (ofPairs ns)) := by
  have hnil : Sorted (keys ([] : List (κ × α))) := .nil
  exact hnil.putAll

/-- **A sorted map is the map of its entries**, in whatever order they are put. -/
theorem Sorted.ofPairs_eq {ns ms : List (κ × α)} (h : Sorted (keys ms))
    (hmem : ∀ m, m ∈ ns ↔ m ∈ ms) : ofPairs ns = ms := by
  have hsub : ∀ m ∈ ofPairs ns, m ∈ ms := fun m hm => (hmem m).mp (mem_of_mem_ofPairs hm)
  refine (sorted_ofPairs ns).ext_entries h fun m => ⟨hsub m, fun hm => ?_⟩
  -- The key of an entry is bound, and sorted keys are bound once.
  have hkey : m.1 ∈ keys (ofPairs ns) :=
    mem_keys_ofPairs.mpr (List.mem_map_of_mem ((hmem m).mpr hm))
  obtain ⟨n, hn, hnm⟩ := List.mem_map.mp hkey
  have heq : n = m := List.inj_on_of_nodup_map h.nodup (hsub n hn) hm hnm
  exact heq ▸ hn

/-- **The order in which distinct keys are bound** does not matter. -/
theorem ofPairs_perm {ns ns' : List (κ × α)} (h : ns.Perm ns') (hkeys : (keys ns').Nodup) :
    ofPairs ns = ofPairs ns' :=
  (sorted_ofPairs ns').ofPairs_eq fun _ => h.mem_iff.trans (mem_ofPairs hkeys).symm

end puts

/-! ### Maps with related values -/

section agreement

variable {R : α → β → Prop}

/-- Two lists have the same keys in the same order, with related values. -/
def Agree (R : α → β → Prop) (ms : List (κ × α)) (ns : List (κ × β)) : Prop :=
  List.Forall₂ (fun m n => m.1 = n.1 ∧ R m.2 n.2) ms ns

theorem Agree.keys_eq {ms : List (κ × α)} {ns : List (κ × β)} (h : Agree R ms ns) :
    keys ms = keys ns := by
  induction h with
  | nil => rfl
  | cons hmn _ ih => exact congrArg₂ List.cons hmn.1 ih

/-- Putting related values under one key keeps maps in agreement. -/
theorem Agree.put [Ord κ] {ms : List (κ × α)} {ns : List (κ × β)} (h : Agree R ms ns) (k : κ)
    {a : α} {b : β} (hab : R a b) : Agree R (put k a ms) (put k b ns) := by
  induction h with
  | nil => exact .cons ⟨rfl, hab⟩ .nil
  | @cons m n ms ns hmn h ih =>
      obtain ⟨l, x⟩ := m
      obtain ⟨l', y⟩ := n
      obtain ⟨rfl, hxy⟩ := hmn
      unfold Ascending.put
      cases compare k l with
      | lt => exact .cons ⟨rfl, hab⟩ (.cons ⟨rfl, hxy⟩ h)
      | eq => exact .cons ⟨rfl, hab⟩ h
      | gt => exact .cons ⟨rfl, hxy⟩ ih

/-- The maps of lists in agreement are in agreement. -/
theorem Agree.ofPairs [Ord κ] {ms : List (κ × α)} {ns : List (κ × β)} (h : Agree R ms ns) :
    Agree R (ofPairs ms) (ofPairs ns) := by
  have key : ∀ {s : List (κ × α)} {t : List (κ × β)}, Agree R s t →
      Agree R (ms.foldl (fun s m => Ascending.put m.1 m.2 s) s)
        (ns.foldl (fun s m => Ascending.put m.1 m.2 s) t) := by
    induction h with
    | nil => exact id
    | @cons m n ms ns hmn h ih =>
        intro s t hst
        obtain ⟨hk, hab⟩ := hmn
        simp only [List.foldl_cons, hk]
        exact ih (hst.put n.1 hab)
  exact key .nil

/-- Under each key, maps in agreement have related values, or both none. -/
theorem Agree.get? [DecidableEq κ] {ms : List (κ × α)} {ns : List (κ × β)} (h : Agree R ms ns)
    (k : κ) : Option.Rel R (get? k ms) (get? k ns) := by
  induction h with
  | nil => exact .none
  | @cons m n ms ns hmn h ih =>
      obtain ⟨l, x⟩ := m
      obtain ⟨l', y⟩ := n
      obtain ⟨rfl, hxy⟩ := hmn
      unfold Ascending.get?
      split
      · exact .some hxy
      · exact ih

end agreement

end Ascending

end AccessPolicy
