import AccessPolicy.Proofs.Ascending
import AccessPolicy.Value.Basic

/-!
# The order of values

* `Value.induct` — induction on values, with a hypothesis for each item of a set and for each field
  of a record.
* `Composes a b c` — the comparisons `a`, `b` and `c` of three things, each with a later one, as an
  order has them. Comparisons that compose still do so one after the other (`Composes.andThen`), so
  that lexicographic orders need no argument of their own.
* **The order of values is total, and what compares equal is equal** (the instances at the end). So
  an ascending list is the only one of its items, and equal sets are equal lists.
-/

namespace AccessPolicy

/-- Induction on values. -/
@[elab_as_elim]
theorem Value.induct {motive : Value → Prop} (bool : ∀ b, motive (.bool b))
    (long : ∀ n, motive (.long n)) (string : ∀ s, motive (.string s))
    (entity : ∀ u, motive (.entity u))
    (set : ∀ items, (∀ v ∈ items, motive v) → motive (.set items))
    (record : ∀ fields, (∀ f ∈ fields, motive f.2) → motive (.record fields)) (v : Value) : motive v :=
  @Value.rec motive (fun items => ∀ v ∈ items, motive v) (fun fields => ∀ f ∈ fields, motive f.2)
    (fun f => motive f.2) bool long string entity set record (List.forall_mem_nil _)
    (fun _ _ hv hvs => List.forall_mem_cons.mpr ⟨hv, hvs⟩) (List.forall_mem_nil _)
    (fun _ _ hf hfs => List.forall_mem_cons.mpr ⟨hf, hfs⟩) (fun _ _ hv => hv) v

/-! ### Comparisons one after the other -/

/-- How the comparisons of a first thing with a second, of that with a third and of the first with
the third belong together. -/
def Composes (a b c : Ordering) : Prop :=
  a.isLE → b.isLE → c.isLE ∧ (c = .eq → a = .eq ∧ b = .eq)

/-- The comparisons of an order compose. -/
theorem composes_compare {α : Type} [Ord α] [Std.TransOrd α] (x y z : α) :
    Composes (compare x y) (compare y z) (compare x z) := by
  intro hxy hyz
  refine ⟨Std.TransCmp.isLE_trans hxy hyz, fun hxz => ?_⟩
  have hzx : (compare z x).isLE := by
    rw [Std.OrientedCmp.eq_comm.mp hxz]
    rfl
  exact ⟨Std.OrientedCmp.isLE_antisymm hxy (Std.TransCmp.isLE_trans hyz hzx),
    Std.OrientedCmp.isLE_antisymm hyz (Std.TransCmp.isLE_trans hzx hxy)⟩

/-- A second comparison matters where the first finds no difference. -/
theorem Composes.andThen {a b c a' b' c' : Ordering} (h : Composes a b c)
    (h' : a = .eq → b = .eq → Composes a' b' c') :
    Composes (a.then a') (b.then b') (c.then c') := by
  have hfirst : ∀ {o p : Ordering}, (o.then p).isLE → o.isLE := by
    intro o p ho
    cases o with
    | lt | eq => rfl
    | gt => cases ho
  intro ha hb
  obtain ⟨hc, heq⟩ := h (hfirst ha) (hfirst hb)
  cases c with
  | lt => exact ⟨rfl, nofun⟩
  | eq =>
      obtain ⟨rfl, rfl⟩ := heq rfl
      exact h' rfl rfl ha hb
  | gt => cases hc

namespace Value

variable {a b c : Value} {xs : List Value} {fs : List (String × Value)}

/-! ### The other way round -/

/-- If the comparisons of the items of a list turn round, so do the comparisons of the list. -/
theorem orderItems_swap (h : ∀ x ∈ xs, ∀ y, order y x = (order x y).swap) (ys : List Value) :
    orderItems ys xs = (orderItems xs ys).swap := by
  induction xs generalizing ys with
  | nil => cases ys <;> rfl
  | cons x xs ih =>
      obtain ⟨hx, hxs⟩ := List.forall_mem_cons.mp h
      cases ys with
      | nil => rfl
      | cons y ys => rw [orderItems, orderItems, Ordering.swap_then, hx y, ih hxs ys]

/-- If the comparisons of the values of fields turn round, so do the comparisons of the fields. -/
theorem orderFields_swap (h : ∀ f ∈ fs, ∀ y, order y f.2 = (order f.2 y).swap)
    (gs : List (String × Value)) : orderFields gs fs = (orderFields fs gs).swap := by
  induction fs generalizing gs with
  | nil => cases gs <;> rfl
  | cons f fs ih =>
      obtain ⟨hf, hfs⟩ := List.forall_mem_cons.mp h
      cases gs with
      | nil => rfl
      | cons g gs =>
          rw [orderFields, orderFields, Ordering.swap_then, Ordering.swap_then, hf g.2, ih hfs gs,
            Std.OrientedOrd.eq_swap (a := g.1)]

/-- To compare the other way round gives the opposite. -/
theorem order_swap (a b : Value) : order b a = (order a b).swap := by
  induction a using Value.induct generalizing b with
  | bool x => cases b with
    | bool y => exact Std.OrientedOrd.eq_swap
    | _ => rfl
  | long x => cases b with
    | long y => exact Std.OrientedOrd.eq_swap
    | _ => rfl
  | string x => cases b with
    | string y => exact Std.OrientedOrd.eq_swap
    | _ => rfl
  | entity x => cases b with
    | entity y => exact Std.OrientedOrd.eq_swap
    | _ => rfl
  | set xs ih => cases b with
    | set ys => exact orderItems_swap ih ys
    | _ => rfl
  | record fs ih => cases b with
    | record gs => exact orderFields_swap ih gs
    | _ => rfl

/-! ### Equality -/

/-- Lists whose items compare equal only if they are equal do so as well. -/
theorem orderItems_eq_iff (h : ∀ x ∈ xs, ∀ y, order x y = .eq ↔ x = y) (ys : List Value) :
    orderItems xs ys = .eq ↔ xs = ys := by
  induction xs generalizing ys with
  | nil => cases ys <;> simp [orderItems]
  | cons x xs ih =>
      obtain ⟨hx, hxs⟩ := List.forall_mem_cons.mp h
      cases ys with
      | nil => simp [orderItems]
      | cons y ys => rw [orderItems, Ordering.then_eq_eq, hx y, ih hxs ys, List.cons.injEq]

/-- Fields whose values compare equal only if they are equal do so as well. -/
theorem orderFields_eq_iff (h : ∀ f ∈ fs, ∀ y, order f.2 y = .eq ↔ f.2 = y)
    (gs : List (String × Value)) : orderFields fs gs = .eq ↔ fs = gs := by
  induction fs generalizing gs with
  | nil => cases gs <;> simp [orderFields]
  | cons f fs ih =>
      obtain ⟨hf, hfs⟩ := List.forall_mem_cons.mp h
      cases gs with
      | nil => simp [orderFields]
      | cons g gs =>
          rw [orderFields, Ordering.then_eq_eq, Ordering.then_eq_eq, hf g.2, ih hfs gs,
            Std.compare_eq_iff_eq, ← Prod.ext_iff, List.cons.injEq]

/-- What compares equal is equal. -/
theorem order_eq_iff (a b : Value) : order a b = .eq ↔ a = b := by
  induction a using Value.induct generalizing b with
  | bool x => cases b with
    | bool y => rw [bool.injEq]; exact Std.compare_eq_iff_eq
    | _ => exact iff_of_false nofun nofun
  | long x => cases b with
    | long y => rw [long.injEq]; exact Std.compare_eq_iff_eq
    | _ => exact iff_of_false nofun nofun
  | string x => cases b with
    | string y => rw [string.injEq]; exact Std.compare_eq_iff_eq
    | _ => exact iff_of_false nofun nofun
  | entity x => cases b with
    | entity y => rw [entity.injEq]; exact Std.compare_eq_iff_eq
    | _ => exact iff_of_false nofun nofun
  | set xs ih => cases b with
    | set ys => rw [set.injEq]; exact orderItems_eq_iff ih ys
    | _ => exact iff_of_false nofun nofun
  | record fs ih => cases b with
    | record gs => rw [record.injEq]; exact orderFields_eq_iff ih gs
    | _ => exact iff_of_false nofun nofun

/-! ### Transitivity -/

/-- The comparisons of lists compose if those of their items do. -/
theorem composes_orderItems
    (h : ∀ x ∈ xs, ∀ y z, Composes (order x y) (order y z) (order x z)) (ys zs : List Value) :
    Composes (orderItems xs ys) (orderItems ys zs) (orderItems xs zs) := by
  induction xs generalizing ys zs with
  | nil => cases ys with
    | nil => cases zs with
      | nil => exact fun _ _ => ⟨rfl, fun _ => ⟨rfl, rfl⟩⟩
      | cons z zs => exact fun _ _ => ⟨rfl, nofun⟩
    | cons y ys => cases zs with
      | nil => exact fun _ => nofun
      | cons z zs => exact fun _ _ => ⟨rfl, nofun⟩
  | cons x xs ih =>
      obtain ⟨hx, hxs⟩ := List.forall_mem_cons.mp h
      cases ys with
      | nil => exact nofun
      | cons y ys => cases zs with
        | nil => exact fun _ => nofun
        | cons z zs => exact (hx y z).andThen fun _ _ => ih hxs ys zs

/-- The comparisons of fields compose if those of their values do. -/
theorem composes_orderFields
    (h : ∀ f ∈ fs, ∀ y z, Composes (order f.2 y) (order y z) (order f.2 z))
    (gs hs : List (String × Value)) :
    Composes (orderFields fs gs) (orderFields gs hs) (orderFields fs hs) := by
  induction fs generalizing gs hs with
  | nil => cases gs with
    | nil => cases hs with
      | nil => exact fun _ _ => ⟨rfl, fun _ => ⟨rfl, rfl⟩⟩
      | cons k hs => exact fun _ _ => ⟨rfl, nofun⟩
    | cons g gs => cases hs with
      | nil => exact fun _ => nofun
      | cons k hs => exact fun _ _ => ⟨rfl, nofun⟩
  | cons f fs ih =>
      obtain ⟨hf, hfs⟩ := List.forall_mem_cons.mp h
      cases gs with
      | nil => exact nofun
      | cons g gs => cases hs with
        | nil => exact fun _ => nofun
        | cons k hs =>
            have hfield := (composes_compare f.1 g.1 k.1).andThen fun _ _ => hf g.2 k.2
            exact hfield.andThen fun _ _ => ih hfs gs hs

/-- Values of different kinds are in the order of their kinds. -/
theorem order_eq_then (a b : Value) : order a b = (compare a.rank b.rank).then (order a b) := by
  by_cases h : a.rank = b.rank
  · rw [h, Std.compare_self]
    rfl
  · have hkinds : order a b = compare a.rank b.rank := by
      fun_cases order a b with
      | case1 | case2 | case3 | case4 | case5 | case6 => exact absurd rfl h
      | case7 => rfl
    rw [hkinds]
    cases compare a.rank b.rank <;> rfl

/-- So it is enough to compare three values of one kind. -/
theorem composes_of_kind
    (h : a.rank = b.rank → b.rank = c.rank → Composes (order a b) (order b c) (order a c)) :
    Composes (order a b) (order b c) (order a c) := by
  rw [order_eq_then a b, order_eq_then b c, order_eq_then a c]
  exact (composes_compare a.rank b.rank c.rank).andThen fun hab hbc =>
    h (Std.compare_eq_iff_eq.mp hab) (Std.compare_eq_iff_eq.mp hbc)

/-- The comparisons of values compose. The kinds of values come first, so that of three values of
different kinds only the ranks of the kinds are compared. -/
theorem composes_order (a b c : Value) : Composes (order a b) (order b c) (order a c) := by
  induction a using Value.induct generalizing b c with
  -- The other two values are of the same kind, for otherwise the kinds decide.
  | bool x =>
      refine composes_of_kind fun hb hc => ?_
      cases b with
      | bool y => cases c with
        | bool z => exact composes_compare x y z
        | _ => nomatch hc
      | _ => nomatch hb
  | long x =>
      refine composes_of_kind fun hb hc => ?_
      cases b with
      | long y => cases c with
        | long z => exact composes_compare x y z
        | _ => nomatch hc
      | _ => nomatch hb
  | string x =>
      refine composes_of_kind fun hb hc => ?_
      cases b with
      | string y => cases c with
        | string z => exact composes_compare x y z
        | _ => nomatch hc
      | _ => nomatch hb
  | entity x =>
      refine composes_of_kind fun hb hc => ?_
      cases b with
      | entity y => cases c with
        | entity z => exact composes_compare x y z
        | _ => nomatch hc
      | _ => nomatch hb
  | set xs ih =>
      refine composes_of_kind fun hb hc => ?_
      cases b with
      | set ys => cases c with
        | set zs => exact composes_orderItems ih ys zs
        | _ => nomatch hc
      | _ => nomatch hb
  | record fs ih =>
      refine composes_of_kind fun hb hc => ?_
      cases b with
      | record gs => cases c with
        | record hs => exact composes_orderFields ih gs hs
        | _ => nomatch hc
      | _ => nomatch hb

/-! ### The order -/

instance : Std.LawfulEqOrd Value where
  compare_self {a} := (order_eq_iff a a).mpr rfl
  eq_of_compare {a b} h := (order_eq_iff a b).mp h

instance : Std.TransOrd Value where
  eq_swap {a b} := order_swap b a
  isLE_trans {a b c} hab hbc := (composes_order a b c hab hbc).1

end Value

end AccessPolicy
