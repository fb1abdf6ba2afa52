import AccessPolicy.Expr.Basic

/-!
# Parts of expressions

* `Expr.parts` — an expression with everything inside it; `Expr.operands` — what stands right below
  it. A property of all parts of an expression is one of all parts of its operands
  (`parts_subset_of_mem_operands`), which are less deep (`depth_lt_of_mem_operands`), so that what
  passes from operands to expressions holds of all of them (`induction_operands`).
* `Expr.Valid` — the names in an expression are valid, and the keys of its records are distinct.
-/

namespace AccessPolicy.Expr

mutual

/-- An expression and all expressions inside it. -/
def parts : Expr → List Expr
  | lit l => [lit l]
  | var v => [var v]
  | slot s => [slot s]
  | unary op e => unary op e :: parts e
  | binary op a b => binary op a b :: (parts a ++ parts b)
  | and a b => and a b :: (parts a ++ parts b)
  | or a b => or a b :: (parts a ++ parts b)
  | ite c t e => ite c t e :: (parts c ++ (parts t ++ parts e))
  | getAttr e n => getAttr e n :: parts e
  | hasAttr e n => hasAttr e n :: parts e
  | like e p => like e p :: parts e
  | is e t => is e t :: parts e
  | isMem e t g => isMem e t g :: (parts e ++ parts g)
  | set items => set items :: partsItems items
  | record fields => record fields :: partsFields fields

/-- The expressions of a list and inside it. -/
def partsItems : List Expr → List Expr
  | [] => []
  | e :: es => parts e ++ partsItems es

/-- The expressions of fields and inside them. -/
def partsFields : List (String × Expr) → List Expr
  | [] => []
  | (_, e) :: fs => parts e ++ partsFields fs

end

/-- The expressions right below an expression. -/
def operands : Expr → List Expr
  | lit _ | var _ | slot _ => []
  | unary _ e | getAttr e _ | hasAttr e _ | like e _ | is e _ => [e]
  | binary _ a b | and a b | or a b | isMem a _ b => [a, b]
  | ite c t e => [c, t, e]
  | set items => items
  | record fields => fields.map (·.2)

/-- The parts of items are those of each. -/
theorem partsItems_eq_flatMap (es : List Expr) : partsItems es = es.flatMap parts := by
  induction es with
  | nil => rfl
  | cons e es ih => rw [partsItems, ih, List.flatMap_cons]

/-- The parts of fields are those of their values. -/
theorem partsFields_eq_flatMap (fs : List (String × Expr)) :
    partsFields fs = (fs.map (·.2)).flatMap parts := by
  induction fs with
  | nil => rfl
  | cons f fs ih => rw [partsFields, ih, List.map_cons, List.flatMap_cons]

/-- The parts of an expression are the expression and the parts of its operands. -/
theorem parts_eq_cons (e : Expr) : e.parts = e :: e.operands.flatMap parts := by
  cases e <;> simp [parts, operands, partsItems_eq_flatMap, partsFields_eq_flatMap]

/-- An expression is one of its own parts. -/
theorem self_mem_parts (e : Expr) : e ∈ e.parts := by
  rw [parts_eq_cons]
  exact List.mem_cons_self

/-- The parts of an operand are parts. -/
theorem parts_subset_of_mem_operands {e p : Expr} (h : p ∈ e.operands) : p.parts ⊆ e.parts := by
  intro q hq
  rw [parts_eq_cons e]
  exact List.mem_cons_of_mem e (List.mem_flatMap.mpr ⟨p, h, hq⟩)

/-- What holds of an expression and of the parts of its operands holds of all its parts. -/
theorem forall_parts {e : Expr} {P : Expr → Prop} (he : P e)
    (hoperands : ∀ o ∈ e.operands, ∀ p ∈ o.parts, P p) : ∀ p ∈ e.parts, P p := by
  intro p hp
  rw [parts_eq_cons] at hp
  rcases List.mem_cons.mp hp with rfl | hp
  · exact he
  · obtain ⟨o, ho, hp⟩ := List.mem_flatMap.mp hp
    exact hoperands o ho p hp

/-- The depth of items is more than that of any of them. -/
theorem depth_lt_of_mem_items {e : Expr} {es : List Expr} (h : e ∈ es) :
    e.depth < depthItems es := by
  induction es with
  | nil => cases h
  | cons x xs ih =>
      rw [depthItems]
      rcases List.mem_cons.mp h with rfl | h
      · omega
      · have := ih h
        omega

/-- And so it is for fields. -/
theorem depth_lt_of_mem_fields {f : String × Expr} {fs : List (String × Expr)} (h : f ∈ fs) :
    f.2.depth < depthFields fs := by
  induction fs with
  | nil => cases h
  | cons x xs ih =>
      rw [depthFields]
      rcases List.mem_cons.mp h with rfl | h
      · omega
      · have := ih h
        omega

/-- An operand is less deep. -/
theorem depth_lt_of_mem_operands {e p : Expr} (h : p ∈ e.operands) : p.depth < e.depth := by
  cases e with
  | set items => exact depth_lt_of_mem_items h
  | record fields =>
      obtain ⟨f, hf, rfl⟩ := List.mem_map.mp h
      exact depth_lt_of_mem_fields hf
  | ite c a b =>
      simp only [operands, List.mem_cons, List.not_mem_nil, or_false] at h
      rw [depth]
      rcases h with rfl | rfl | rfl <;> omega
  | binary _ a b | and a b | or a b | isMem a _ b =>
      simp only [operands, List.mem_cons, List.not_mem_nil, or_false] at h
      rw [depth]
      rcases h with rfl | rfl <;> omega
  | lit _ | var _ | slot _ => cases h
  | unary _ e | getAttr e _ | hasAttr e _ | like e _ | is e _ =>
      obtain rfl := List.mem_singleton.mp h
      rw [depth]
      omega

/-- What holds of an expression as soon as it holds of its operands holds of every expression. -/
theorem induction_operands {motive : Expr → Prop}
    (step : ∀ e, (∀ o ∈ e.operands, motive o) → motive e) (e : Expr) : motive e :=
  step e fun o _ => induction_operands step o
termination_by e.depth
decreasing_by exact depth_lt_of_mem_operands ‹_›

/-! ### Valid names -/

/-- Whether the names in an expression are valid, apart from its operands. -/
def isValidHere : Expr → Bool
  | lit (.entity u) => u.isValid
  | is _ t | isMem _ t _ => Name.isTypeName t
  | record fields => decide (Ascending.keys fields).Nodup
  | _ => true

/-- The names in an expression are valid, and no record repeats a key. -/
def Valid (e : Expr) : Prop :=
  ∀ p ∈ e.parts, p.isValidHere

instance (e : Expr) : Decidable e.Valid :=
  inferInstanceAs (Decidable (∀ p ∈ e.parts, p.isValidHere))

/-- A valid expression is valid apart from its operands. -/
theorem Valid.here {e : Expr} (h : e.Valid) : e.isValidHere :=
  h e e.self_mem_parts

/-- It is valid if it is so apart from its operands and they are valid. -/
theorem Valid.of_operands {e : Expr} (h : e.isValidHere) (hoperands : ∀ o ∈ e.operands, o.Valid) :
    e.Valid :=
  forall_parts h hoperands

/-- The operands of a valid expression are valid. -/
theorem Valid.operand {e p : Expr} (h : e.Valid) (hp : p ∈ e.operands) : p.Valid :=
  fun q hq => h q (parts_subset_of_mem_operands hp hq)

end AccessPolicy.Expr
