import AccessPolicy.Proofs.Json.Merge
import AccessPolicy.Proofs.Policy.WellFormed
import AccessPolicy.Tree.Encode

/-!
# Trees without repeated keys

**The tree of a sound set repeats no key** (`PolicySet.merged_toTree`): the fields of records,
the annotations of policies, the slots of links and the ids of policies are distinct, so that the
tree holds everything that it was made of.
-/

namespace AccessPolicy

open Json

/-- A uid has two members of different names. -/
theorem Uid.merged_toJson (u : Uid) : u.toJson.Merged :=
  merged_obj_iff.mpr ⟨by simp, by simp⟩

namespace Expr

/-- An entity is the only literal that is an object. -/
theorem merged_literal (l : Literal) : l.toTree.Merged := by
  cases l with
  | bool b => rfl
  | long n => rfl
  | string s => rfl
  | entity u => exact merged_obj_iff.mpr ⟨by simp, by simpa using u.merged_toJson⟩

/-- A piece of a pattern is a text or an object of one member. -/
theorem merged_glob (g : Glob) : g.toTree.Merged := by
  cases g with
  | wildcard => rfl
  | char c => exact merged_obj_iff.mpr ⟨by simp, by simp⟩

/-- A node has its operator as its only key, so that it repeats none. -/
theorem merged_node {body : Json} (h : body.Merged) (key : String) : (node key body).Merged :=
  merged_obj_iff.mpr ⟨by simp, by simpa using h⟩

/-- Two operands are told apart by their keys. -/
theorem merged_pair {a b : Json} (ha : a.Merged) (hb : b.Merged) : (pair a b).Merged :=
  merged_obj_iff.mpr ⟨by simp, by simp [ha, hb]⟩

/-- The keys of a record are kept in order, which makes distinct keys distinct members. -/
theorem keys_toTreeFields (fs : List (String × Expr)) :
    (toTreeFields fs).map (·.1) = Ascending.keys fs := by
  induction fs with
  | nil => rfl
  | cons f fs ih => simp [toTreeFields, ih, Ascending.keys]

mutual

/-- **The tree of a valid expression** repeats no key. -/
theorem merged_toTree : (e : Expr) → e.Valid → e.toTree.Merged
  | .lit l, _ => by
      rw [toTree]
      exact merged_node (merged_literal l) _
  | .var v, _ => by
      rw [toTree]
      exact merged_node (merged_str _) _
  | .slot s, _ => by
      rw [toTree]
      exact merged_node (merged_str _) _
  | .unary op e, h => by
      have he := merged_toTree e (h.operand (by simp [operands]))
      rw [toTree]
      exact merged_node (merged_obj_iff.mpr ⟨by simp, by simpa using he⟩) _
  | .binary op a b, h => by
      have ha := merged_toTree a (h.operand (by simp [operands]))
      have hb := merged_toTree b (h.operand (by simp [operands]))
      rw [toTree]
      exact merged_node (merged_pair ha hb) _
  | .and a b, h => by
      have ha := merged_toTree a (h.operand (by simp [operands]))
      have hb := merged_toTree b (h.operand (by simp [operands]))
      rw [toTree]
      exact merged_node (merged_pair ha hb) _
  | .or a b, h => by
      have ha := merged_toTree a (h.operand (by simp [operands]))
      have hb := merged_toTree b (h.operand (by simp [operands]))
      rw [toTree]
      exact merged_node (merged_pair ha hb) _
  | .ite c t e, h => by
      have hc := merged_toTree c (h.operand (by simp [operands]))
      have ht := merged_toTree t (h.operand (by simp [operands]))
      have he := merged_toTree e (h.operand (by simp [operands]))
      rw [toTree]
      exact merged_node (merged_obj_iff.mpr ⟨by simp, by simp [hc, ht, he]⟩) _
  | .getAttr e n, h => by
      have he := merged_toTree e (h.operand (by simp [operands]))
      rw [toTree]
      exact merged_node (merged_obj_iff.mpr ⟨by simp, by simp [he]⟩) _
  | .hasAttr e n, h => by
      have he := merged_toTree e (h.operand (by simp [operands]))
      rw [toTree]
      exact merged_node (merged_obj_iff.mpr ⟨by simp, by simp [he]⟩) _
  | .like e p, h => by
      have he := merged_toTree e (h.operand (by simp [operands]))
      have hp : (arr (p.map Glob.toTree)).Merged :=
        merged_arr_iff.mpr (List.forall_mem_map.mpr fun g _ => merged_glob g)
      rw [toTree]
      refine merged_node (merged_obj_iff.mpr ⟨by simp, ?_⟩) _
      simp only [List.forall_mem_cons]
      exact ⟨he, hp, nofun⟩
  | .is e t, h => by
      have he := merged_toTree e (h.operand (by simp [operands]))
      rw [toTree]
      exact merged_node (merged_obj_iff.mpr ⟨by simp, by simp [he]⟩) _
  | .isMem e t g, h => by
      have he := merged_toTree e (h.operand (by simp [operands]))
      have hg := merged_toTree g (h.operand (by simp [operands]))
      rw [toTree]
      exact merged_node (merged_obj_iff.mpr ⟨by simp, by simp [he, hg]⟩) _
  | .set items, h => by
      have hitems := merged_toTreeItems items fun e he => h.operand he
      rw [toTree]
      exact merged_node (merged_arr_iff.mpr hitems) _
  -- The fields become members, so that their keys have to be distinct.
  | .record fields, h => by
      have hfields := merged_toTreeFields fields fun f hf => h.operand (List.mem_map_of_mem hf)
      have hkeys : (Ascending.keys fields).Nodup := by simpa [isValidHere] using h.here
      rw [toTree]
      exact merged_node (merged_obj_iff.mpr ⟨keys_toTreeFields fields ▸ hkeys, hfields⟩) _

theorem merged_toTreeItems : (es : List Expr) → (∀ e ∈ es, e.Valid) →
    ∀ v ∈ toTreeItems es, v.Merged
  | [], _ => nofun
  | e :: es, h =>
      List.forall_mem_cons.mpr ⟨merged_toTree e (h e List.mem_cons_self),
        merged_toTreeItems es fun x hx => h x (List.mem_cons_of_mem e hx)⟩

theorem merged_toTreeFields : (fs : List (String × Expr)) → (∀ f ∈ fs, f.2.Valid) →
    ∀ m ∈ toTreeFields fs, m.2.Merged
  | [], _ => nofun
  | (k, e) :: fs, h =>
      List.forall_mem_cons.mpr ⟨merged_toTree e (h (k, e) List.mem_cons_self),
        merged_toTreeFields fs fun x hx => h x (List.mem_cons_of_mem _ hx)⟩

end

end Expr

/-! ### Policies and sets -/

/-- An entity or the name of a slot. -/
theorem Reference.merged_toTree (r : Reference) : r.toTree.2.Merged := by
  cases r with
  | uid u => exact u.merged_toJson
  | slot s => rfl

/-- The members of a scope have fixed names; which of them there are depends on its kind. -/
theorem Scope.merged_toTree (s : Scope) : s.toTree.Merged := by
  cases s with
  | any => exact merged_obj_iff.mpr ⟨by simp, by simp⟩
  | eq r | mem r =>
      refine merged_obj_iff.mpr ⟨by cases r <;> simp [Reference.toTree], ?_⟩
      simp [r.merged_toTree]
  | memAny us =>
      have hus : (arr (us.map Uid.toJson)).Merged :=
        merged_arr_iff.mpr (List.forall_mem_map.mpr fun u _ => u.merged_toJson)
      refine merged_obj_iff.mpr ⟨by simp, ?_⟩
      simp only [List.forall_mem_cons]
      exact ⟨rfl, hus, nofun⟩
  | is type => exact merged_obj_iff.mpr ⟨by simp, by simp⟩
  | isMem type r =>
      have hr : (obj [r.toTree]).Merged :=
        merged_obj_iff.mpr ⟨by simp, by simpa using r.merged_toTree⟩
      exact merged_obj_iff.mpr ⟨by simp, by simp [hr]⟩

/-- A clause has a kind and a body. -/
theorem Clause.merged_toTree {c : Clause} (h : c.body.Valid) : c.toTree.Merged :=
  merged_obj_iff.mpr ⟨by simp, by simp [Expr.merged_toTree c.body h]⟩

/-- The annotations of a policy are an object of their own, whose keys are distinct since they
ascend. -/
theorem Policy.merged_toTree {p : Policy} (h : p.WellFormed) : p.toTree.Merged := by
  have hconditions : (arr (p.conditions.map Clause.toTree)).Merged :=
    merged_arr_iff.mpr (List.forall_mem_map.mpr fun c hc =>
      Clause.merged_toTree (h.conditions c hc).1)
  have hnotes : (obj (p.annotations.map fun a => (a.1, .str a.2))).Merged := by
    refine merged_obj_iff.mpr ⟨?_, List.forall_mem_map.mpr fun a _ => merged_str a.2⟩
    rw [List.map_map]
    exact h.sorted.nodup
  unfold toTree
  split
  · refine merged_obj_iff.mpr ⟨by simp, ?_⟩
    simp only [List.append_nil, List.forall_mem_cons]
    exact ⟨rfl, p.principal.merged_toTree, p.action.merged_toTree, p.resource.merged_toTree,
      hconditions, nofun⟩
  · refine merged_obj_iff.mpr ⟨by simp, ?_⟩
    simp only [List.cons_append, List.nil_append, List.forall_mem_cons]
    exact ⟨rfl, p.principal.merged_toTree, p.action.merged_toTree, p.resource.merged_toTree,
      hconditions, hnotes, nofun⟩

/-- Slots have different names. So the values of a link, which are under the names of slots, have
different keys. -/
theorem Slot.name_injective {s t : Slot} (h : s.name = t.name) : s = t := by
  revert h
  cases s <;> cases t <;> decide

/-- The values of a link ascend by slot. -/
theorem Link.merged_toTree {l : Link} (h : Ascending.Sorted (Ascending.keys l.values)) :
    l.toTree.Merged := by
  have hvalues : (obj (l.values.map fun v => (v.1.name, v.2.toJson))).Merged := by
    refine merged_obj_iff.mpr ⟨?_, List.forall_mem_map.mpr fun v _ => v.2.merged_toJson⟩
    have hkeys : (l.values.map (·.1)).Nodup := h.nodup
    rw [List.map_map]
    exact List.pairwise_map.mpr
      ((List.pairwise_map.mp hkeys).imp fun hne heq => hne (Slot.name_injective heq))
  refine merged_obj_iff.mpr ⟨by simp, ?_⟩
  simp only [List.forall_mem_cons]
  exact ⟨rfl, rfl, hvalues, nofun⟩

/-- **The tree of a sound set repeats no key.** -/
theorem PolicySet.merged_toTree {s : PolicySet} (h : s.Sound) : s.toTree.Merged := by
  have section_ {ps : List Policy} (hids : (ps.map (·.id)).Nodup) (hps : ∀ p ∈ ps, p.WellFormed) :
      (obj (ps.map fun p => (p.id, p.toTree))).Merged := by
    refine merged_obj_iff.mpr ⟨?_, List.forall_mem_map.mpr fun p hp => Policy.merged_toTree (hps p hp)⟩
    rwa [List.map_map]
  have hids := List.nodup_append.mp (List.nodup_append.mp h.ids).1
  have hlinks : (arr (s.links.map Link.toTree)).Merged :=
    merged_arr_iff.mpr (List.forall_mem_map.mpr fun l hl => Link.merged_toTree (h.links l hl).sorted)
  refine merged_obj_iff.mpr ⟨by simp, ?_⟩
  simp only [List.forall_mem_cons]
  exact ⟨section_ hids.2.1 fun p hp => (h.templates p hp).1,
    section_ hids.1 fun p hp => (h.policies p hp).1, hlinks, nofun⟩

end AccessPolicy
