import AccessPolicy.Proofs.Expr.Limit
import AccessPolicy.Proofs.Value.Order

/-!
# Values as expressions

* `Value.literal v` — the expression that writes the value down; `Value.levels v` — how many sets
  and records stand around its innermost part, which bounds the depth of that expression
  (`Value.depth_literal_le`).
* `Value.parts v` — the value with everything inside it; `Value.Canonical v` — all sets and records
  in it are ascending, as building them makes them.
* **A canonical value is what its literal means** (`Value.means_literal`).
-/

namespace AccessPolicy.Value

/-! ### Literals -/

mutual

/-- The expression that writes a value down. -/
def literal : Value → Expr
  | bool b => .lit (.bool b)
  | long n => .lit (.long n)
  | string s => .lit (.string s)
  | entity u => .lit (.entity u)
  | set items => .set (literalItems items)
  | record fields => .record (literalFields fields)

/-- The expressions that write the values of a list down. -/
def literalItems : List Value → List Expr
  | [] => []
  | v :: vs => literal v :: literalItems vs

/-- The fields whose expressions write the values of fields down. -/
def literalFields : List (String × Value) → List (String × Expr)
  | [] => []
  | (k, v) :: fs => (k, literal v) :: literalFields fs

end

theorem literalItems_eq_map (vs : List Value) : literalItems vs = vs.map literal := by
  induction vs with
  | nil => rfl
  | cons v vs ih => rw [literalItems, ih, List.map_cons]

/-- The literal of a record keeps the keys and their order. -/
theorem literalFields_eq_map (fs : List (String × Value)) :
    literalFields fs = fs.map fun f => (f.1, f.2.literal) := by
  induction fs with
  | nil => rfl
  | cons f fs ih => rw [literalFields, ih, List.map_cons]

/-! ### Levels -/

mutual

/-- How many sets and records are one inside the other. -/
def levels : Value → Nat
  | set items => levelsItems items + 1
  | record fields => levelsFields fields + 1
  | _ => 0

/-- The levels of the values of a list. -/
def levelsItems : List Value → Nat
  | [] => 0
  | v :: vs => max (levels v) (levelsItems vs)

/-- The levels of the values of fields. -/
def levelsFields : List (String × Value) → Nat
  | [] => 0
  | (_, v) :: fs => max (levels v) (levelsFields fs)

end

mutual

/-- The depth of a literal is at most the levels of the value. -/
theorem depth_literal_le : (v : Value) → v.literal.depth ≤ v.levels
  | bool _ | long _ | string _ | entity _ => Nat.zero_le _
  | set items => by
      rw [literal, levels, Expr.depth]
      exact depthItems_literalItems_le items
  | record fields => by
      rw [literal, levels, Expr.depth]
      exact depthFields_literalFields_le fields

/-- The literal of a value has no more levels than the value, and one for the value itself. -/
theorem depthItems_literalItems_le :
    (vs : List Value) → Expr.depthItems (literalItems vs) ≤ levelsItems vs + 1
  | [] => Nat.zero_le _
  | v :: vs => by
      have hv := depth_literal_le v
      have hvs := depthItems_literalItems_le vs
      rw [literalItems, levelsItems, Expr.depthItems]
      omega

theorem depthFields_literalFields_le :
    (fs : List (String × Value)) → Expr.depthFields (literalFields fs) ≤ levelsFields fs + 1
  | [] => Nat.zero_le _
  | (k, v) :: fs => by
      have hv := depth_literal_le v
      have hfs := depthFields_literalFields_le fs
      rw [literalFields, levelsFields, Expr.depthFields]
      omega

end

/-! ### Parts -/

mutual

/-- A value and all values inside it. -/
def parts : Value → List Value
  | set items => set items :: partsItems items
  | record fields => record fields :: partsFields fields
  | v => [v]

/-- The values of a list and inside it. -/
def partsItems : List Value → List Value
  | [] => []
  | v :: vs => parts v ++ partsItems vs

/-- The values of fields and inside them. -/
def partsFields : List (String × Value) → List Value
  | [] => []
  | (_, v) :: fs => parts v ++ partsFields fs

end

/-- The values right below a value. -/
def members : Value → List Value
  | set items => items
  | record fields => fields.map (·.2)
  | _ => []

section parts

variable {v w : Value}

theorem partsItems_eq_flatMap (vs : List Value) : partsItems vs = vs.flatMap parts := by
  induction vs with
  | nil => rfl
  | cons v vs ih => rw [partsItems, ih, List.flatMap_cons]

theorem partsFields_eq_flatMap (fs : List (String × Value)) :
    partsFields fs = (fs.map (·.2)).flatMap parts := by
  induction fs with
  | nil => rfl
  | cons f fs ih => rw [partsFields, ih, List.map_cons, List.flatMap_cons]

/-- The parts of a value are the value and the parts of what is right below it. -/
theorem parts_eq_cons (v : Value) : v.parts = v :: v.members.flatMap parts := by
  cases v <;> simp [parts, members, partsItems_eq_flatMap, partsFields_eq_flatMap]

/-- A value is one of its own parts. -/
theorem self_mem_parts (v : Value) : v ∈ v.parts := by
  rw [parts_eq_cons]
  exact List.mem_cons_self

/-- What stands inside of a member stands inside of the value. -/
theorem parts_subset_of_mem_members (h : w ∈ v.members) : w.parts ⊆ v.parts := by
  intro p hp
  rw [parts_eq_cons v]
  exact List.mem_cons_of_mem v (List.mem_flatMap.mpr ⟨w, h, hp⟩)

/-- The keys of fields take no levels. -/
theorem levelsFields_eq_levelsItems (fs : List (String × Value)) :
    levelsFields fs = levelsItems (fs.map (·.2)) := by
  induction fs with
  | nil => rfl
  | cons f fs ih => rw [levelsFields, ih, List.map_cons, levelsItems]

/-- No item has more levels than the items have together. -/
theorem levels_le_of_mem {vs : List Value} (h : w ∈ vs) : w.levels ≤ levelsItems vs := by
  induction vs with
  | nil => cases h
  | cons v vs ih =>
      rw [levelsItems]
      rcases List.mem_cons.mp h with rfl | h
      · exact Nat.le_max_left _ _
      · exact Nat.le_trans (ih h) (Nat.le_max_right _ _)

/-- A value has more levels than its members, so that an induction on levels is one on members. -/
theorem levels_lt_of_mem_members (h : w ∈ v.members) : w.levels < v.levels := by
  cases v with
  | set items =>
      rw [levels]
      exact Nat.lt_succ_of_le (levels_le_of_mem h)
  | record fields =>
      rw [levels, levelsFields_eq_levelsItems]
      exact Nat.lt_succ_of_le (levels_le_of_mem h)
  | bool b | long n | string s | entity u => cases h

end parts

/-! ### Canonical values -/

/-- Whether a set or a record is ascending, apart from what is inside it. -/
def isCanonicalHere : Value → Bool
  | set items => decide (Ascending.Sorted items)
  | record fields => decide (Ascending.Sorted (Ascending.keys fields))
  | _ => true

/-- All sets and records in a value are ascending. -/
def Canonical (v : Value) : Prop :=
  ∀ p ∈ v.parts, p.isCanonicalHere

instance (v : Value) : Decidable v.Canonical :=
  inferInstanceAs (Decidable (∀ p ∈ v.parts, p.isCanonicalHere))

namespace Canonical

variable {v w : Value} {items : List Value} {fields : List (String × Value)}

/-- A member of a canonical value is canonical. -/
theorem member (h : v.Canonical) (hw : w ∈ v.members) : w.Canonical :=
  fun p hp => h p (parts_subset_of_mem_members hw hp)

/-- The items of a canonical set ascend. -/
theorem sorted_set (h : (set items).Canonical) : Ascending.Sorted items :=
  of_decide_eq_true (h _ (self_mem_parts _))

/-- The keys of a canonical record ascend. -/
theorem sorted_record (h : (record fields).Canonical) :
    Ascending.Sorted (Ascending.keys fields) :=
  of_decide_eq_true (h _ (self_mem_parts _))

end Canonical

/-- **A canonical value is what its literal means.** -/
theorem means_literal {v : Value} (h : v.Canonical) : v.literal.Means v := by
  induction v using Value.induct with
  | bool b | long n | string s | entity u => exact Expr.means_lit _
  | set items ih =>
      have hitems : List.Forall₂ Expr.Means (items.map literal) items := by
        rw [List.forall₂_map_left_iff, List.forall₂_same]
        exact fun v hv => ih v hv (h.member hv)
      have hset : ofItems items = set items :=
        congrArg set (h.sorted_set.ofList_eq fun _ => Iff.rfl)
      rw [literal, literalItems_eq_map]
      exact hset ▸ Expr.means_set hitems
  | record fields ih =>
      have hfields :
          Ascending.Agree Expr.Means (fields.map fun f => (f.1, f.2.literal)) fields := by
        rw [Ascending.Agree, List.forall₂_map_left_iff, List.forall₂_same]
        exact fun f hf => ⟨rfl, ih f hf (h.member (List.mem_map_of_mem hf))⟩
      have hrecord : ofFields fields = record fields :=
        congrArg record (h.sorted_record.ofPairs_eq fun _ => Iff.rfl)
      rw [literal, literalFields_eq_map]
      exact hrecord ▸ Expr.means_record hfields

end AccessPolicy.Value
