import AccessPolicy.Proofs.Print.Expr

/-!
# Places and levels of nesting

* `Expr.placed` — the operands of an expression in the places of its text, each with the binding
  that its place asks for.
* `Expr.nesting` — the levels of nesting that reading the text of an expression takes: one for each
  prefix and each `if`, two for each pair of parentheses. It is at most three times the depth
  (`nesting_le`).
* `Expr.need e least` — the levels that reading takes where a binding of at least `least` is asked
  for.
* `Expr.Compact` — no parentheses in the text of an expression that a source could have done
  without: it has no members of negative numbers, and no minus sign in front of a digit.
-/

namespace AccessPolicy

/-- A place in the text of an expression, with the operand that stands there. -/
structure Place where
  /-- How tightly an operand has to bind there; any other one gets parentheses. -/
  least : Nat
  /-- The levels of nesting that the text around the place takes. -/
  extra : Nat
  /-- What stands there. -/
  operand : Expr

namespace Expr

/-- Nothing binds more tightly than what stands alone. -/
theorem binding_le (e : Expr) : e.binding ≤ 8 := by
  unfold binding
  split <;> first | decide | split <;> decide

/-- The operands of an expression in their places. -/
def placed : Expr → List Place
  | lit _ | var _ | slot _ => []
  | unary .not e => [⟨6, 1, e⟩]
  -- nothing binds like 9, so that what begins with a digit always gets parentheses
  | unary .neg e => [⟨if startsWithDigit e then 9 else 6, 1, e⟩]
  | unary .isEmpty e | getAttr e _ => [⟨7, 0, e⟩]
  | binary op a b =>
    if op.isMethod then [⟨7, 0, a⟩, ⟨0, 2, b⟩]
    else [⟨(operandBinding op).1, 0, a⟩, ⟨(operandBinding op).2, 0, b⟩]
  | and a b => [⟨2, 0, a⟩, ⟨3, 0, b⟩]
  | or a b => [⟨1, 0, a⟩, ⟨2, 0, b⟩]
  | ite c t e => [⟨0, 1, c⟩, ⟨0, 1, t⟩, ⟨0, 1, e⟩]
  | hasAttr e _ | like e _ | is e _ => [⟨4, 0, e⟩]
  | isMem e _ g => [⟨4, 0, e⟩, ⟨4, 0, g⟩]
  | set items => items.map (⟨0, 2, ·⟩)
  | record fields => fields.map (⟨0, 2, ·.2⟩)

/-- Each operand has its place. -/
theorem map_placed (e : Expr) : e.placed.map Place.operand = e.operands := by
  cases e with
  | unary op e => cases op <;> rfl
  | binary op a b =>
      rw [placed]
      split <;> rfl
  | set items => simp [placed, operands, Function.comp_def]
  | record fields => simp [placed, operands]
  | _ => rfl

/-- What stands in a place is an operand. -/
theorem mem_operands_of_mem_placed {e : Expr} {p : Place} (hp : p ∈ e.placed) :
    p.operand ∈ e.operands :=
  map_placed e ▸ List.mem_map_of_mem hp

/-- So it is less deep than the expression. -/
theorem depth_lt_of_mem_placed {e o : Expr} {least extra : Nat} (hp : ⟨least, extra, o⟩ ∈ e.placed) :
    o.depth < e.depth :=
  depth_lt_of_mem_operands (mem_operands_of_mem_placed hp)

/-! ### Levels of nesting

Parentheses count twice, for the reader counts a level for a full expression and another one for the
prefix that it may begin with. They are the reason why a text may nest more deeply than its
expression. -/

/-- Levels of nesting in a place, where parentheses take two. -/
def raised (binding least inner : Nat) : Nat :=
  if binding < least then inner + 2 else inner

mutual

/-- The levels of nesting inside the text of an expression. -/
def nesting : Expr → Nat
  | lit _ | var _ | slot _ => 0
  | unary .not e => raised e.binding 6 (nesting e) + 1
  | unary .neg e => raised e.binding (if startsWithDigit e then 9 else 6) (nesting e) + 1
  | unary .isEmpty e | getAttr e _ => raised e.binding 7 (nesting e)
  | binary op a b =>
    if op.isMethod then max (raised a.binding 7 (nesting a)) (nesting b + 2)
    else
      max (raised a.binding (operandBinding op).1 (nesting a))
        (raised b.binding (operandBinding op).2 (nesting b))
  | and a b => max (raised a.binding 2 (nesting a)) (raised b.binding 3 (nesting b))
  | or a b => max (raised a.binding 1 (nesting a)) (raised b.binding 2 (nesting b))
  | ite c t e => max (nesting c) (max (nesting t) (nesting e)) + 1
  | hasAttr e _ | like e _ | is e _ => raised e.binding 4 (nesting e)
  | isMem e _ g => max (raised e.binding 4 (nesting e)) (raised g.binding 4 (nesting g))
  | set items => nestingItems items
  | record fields => nestingFields fields

/-- The levels of nesting that the expressions of a list take. -/
def nestingItems : List Expr → Nat
  | [] => 0
  | e :: es => max (nesting e + 2) (nestingItems es)

/-- The levels of nesting that fields take. -/
def nestingFields : List (String × Expr) → Nat
  | [] => 0
  | (_, e) :: fs => max (nesting e + 2) (nestingFields fs)

end

end Expr

/-- The levels of nesting that a place takes, with what stands there. -/
def Place.nesting (p : Place) : Nat :=
  Expr.raised p.operand.binding p.least p.operand.nesting + p.extra

namespace Expr

/-- The expressions of a list stand each in a condition of its own, which takes two levels. -/
theorem nestingItems_le_iff {es : List Expr} {n : Nat} :
    nestingItems es ≤ n ↔ ∀ e ∈ es, e.nesting + 2 ≤ n := by
  induction es with
  | nil => simp [nestingItems]
  | cons e es ih => rw [nestingItems, Nat.max_le, ih, List.forall_mem_cons]

/-- And so do those of fields. -/
theorem nestingFields_le_iff {fs : List (String × Expr)} {n : Nat} :
    nestingFields fs ≤ n ↔ ∀ f ∈ fs, f.2.nesting + 2 ≤ n := by
  induction fs with
  | nil => simp [nestingFields]
  | cons f fs ih => rw [nestingFields, Nat.max_le, ih, List.forall_mem_cons]

/-- The levels of an expression are those of its places. -/
theorem nesting_le_iff {e : Expr} {n : Nat} : e.nesting ≤ n ↔ ∀ p ∈ e.placed, p.nesting ≤ n := by
  cases e with
  | unary op e => cases op <;> simp [nesting, placed, Place.nesting]
  | binary op a b =>
      rw [nesting, placed]
      split <;> rw [Nat.max_le] <;> simp [Place.nesting, raised]
  | ite c t e =>
      simp only [nesting, placed, Place.nesting, raised, Nat.not_lt_zero, if_false,
        List.forall_mem_cons, List.not_mem_nil, false_implies, implies_true, and_true]
      omega
  | set items =>
      rw [nesting, nestingItems_le_iff, placed, List.forall_mem_map]
      simp [Place.nesting, raised]
  | record fields =>
      rw [nesting, nestingFields_le_iff, placed, List.forall_mem_map]
      simp [Place.nesting, raised]
  | and a b | or a b | isMem a t b =>
      rw [nesting, Nat.max_le, placed]
      simp [Place.nesting]
  | lit l | var v | slot s => simp [nesting, placed]
  | getAttr e name | hasAttr e name | like e p | is e t => simp [nesting, placed, Place.nesting]

/-- No place takes more levels than the expression. -/
theorem nesting_le_of_mem_placed {e : Expr} {p : Place} (hp : p ∈ e.placed) :
    p.nesting ≤ e.nesting :=
  nesting_le_iff.mp (Nat.le_refl _) p hp

/-- A place takes three levels at most. -/
theorem nesting_le_operand {e : Expr} {p : Place} (hp : p ∈ e.placed) :
    p.nesting ≤ p.operand.nesting + 3 := by
  have hextra : p.extra ≤ 1 ∨ p.least = 0 ∧ p.extra ≤ 2 := by
    cases e with
    | unary op e => cases op <;> simp_all [placed]
    | binary op a b =>
        rw [placed] at hp
        split at hp <;> simp at hp <;> rcases hp with rfl | rfl <;> simp
    | set items =>
        obtain ⟨x, -, rfl⟩ := List.mem_map.mp hp
        exact .inr ⟨rfl, Nat.le_refl 2⟩
    | record fields =>
        obtain ⟨f, -, rfl⟩ := List.mem_map.mp hp
        exact .inr ⟨rfl, Nat.le_refl 2⟩
    | _ => simp [placed] at hp <;> rcases hp with rfl | rfl | rfl <;> simp
  unfold Place.nesting raised
  split <;> omega

/-- Reading takes at most three levels for each edge on the way to a leaf. -/
theorem nesting_le (e : Expr) : e.nesting ≤ 3 * e.depth := by
  induction e using induction_operands with
  | step e ih =>
      refine nesting_le_iff.mpr fun p hp => ?_
      have hmem := mem_operands_of_mem_placed hp
      have hdepth := depth_lt_of_mem_operands hmem
      have hlevels := nesting_le_operand hp
      have := ih _ hmem
      omega

/-! ### What reading takes -/

/-- The levels of nesting that reading an expression takes where a binding is asked for. -/
def need (e : Expr) (least : Nat) : Nat :=
  raised e.binding least e.nesting + 1

/-- To read anything takes a level. -/
theorem need_pos (e : Expr) (least : Nat) : 0 < need e least :=
  Nat.succ_pos _

/-- A place that asks for one more makes a difference only to expressions that bind exactly as the
place asks. -/
theorem need_succ {e : Expr} {least : Nat} (h : e.binding ≠ least) :
    need e (least + 1) = need e least := by
  have hlt : e.binding < least + 1 ↔ e.binding < least := by omega
  simp only [need, raised, hlt]

/-- A place that asks for more takes no fewer levels. -/
theorem need_mono {e : Expr} {least least' : Nat} (h : least ≤ least') :
    need e least ≤ need e least' := by
  unfold need raised
  split <;> split <;> omega

/-- Without parentheses it is a level more than what is inside. -/
theorem need_of_le {e : Expr} {least : Nat} (h : least ≤ e.binding) :
    need e least = e.nesting + 1 := by
  rw [need, raised, if_neg (Nat.not_lt_of_le h)]

/-- The text of an expression nests too deeply for a condition, or its tree does. -/
def TooDeep (e : Expr) : Prop :=
  Grammar.nestingLimit < e.nesting + 2 ∨ Grammar.nestingLimit < e.depth

/-- The text of an expression of depth 64 or less has room even if all its parentheses are needed:
there are three levels of nesting for each level of depth. -/
theorem TooDeep.lt_depth {e : Expr} (h : e.TooDeep) : 64 < e.depth := by
  have hlevels := e.nesting_le
  have hlimit : Grammar.nestingLimit = 256 := rfl
  unfold TooDeep at h
  omega

/-! ### Compact expressions -/

/-- Whether an expression is a negative number. -/
def isNegative : Expr → Bool
  | lit (.long n) => n.toInt < 0
  | _ => false

/-- Whether the text of an expression, apart from its operands, puts nothing into parentheses that
could stand there without. -/
def isCompactHere : Expr → Bool
  | unary .neg e => !startsWithDigit e
  | unary .isEmpty e | getAttr e _ => !isNegative e
  | binary op e _ => !(op.isMethod && isNegative e)
  | _ => true

/-- The text of an expression has only parentheses that its source had, too. -/
def Compact (e : Expr) : Prop :=
  ∀ p ∈ e.parts, p.isCompactHere

instance (e : Expr) : Decidable e.Compact :=
  inferInstanceAs (Decidable (∀ p ∈ e.parts, p.isCompactHere))

/-- A compact expression is compact apart from its operands. -/
theorem Compact.here {e : Expr} (h : e.Compact) : e.isCompactHere :=
  h e e.self_mem_parts

/-- The operands of a compact expression are compact. -/
theorem Compact.operand {e p : Expr} (h : e.Compact) (hp : p ∈ e.operands) : p.Compact :=
  fun q hq => h q (parts_subset_of_mem_operands hp hq)

end Expr

end AccessPolicy
