import AccessPolicy.Proofs.Print.Places

/-!
# Legible expressions

The word `if` makes a condition only where a full expression begins, so that an entity whose type
begins with it can be read in other places. Legible expressions are those that have no such entity
where it would be taken for a condition; they are what readers make.

* `Expr.Opens` — what tokens can begin an expression that binds in a certain way; those of an
  expression do (`opens_lexemes`).
* `Expr.Full` — an expression can be read where a full expression begins.
* `Expr.Legible` — every operand can be read in its place. Printable expressions are legible
  (`Printable.legible`).
-/

namespace AccessPolicy.Expr

open Grammar

/-! ### What an expression begins with -/

/-- How tightly what begins with a token can bind; nothing for a token that begins no
expression. -/
def opens : Lexeme → Option Nat
  | .ident _ | .int _ | .str _ => some 8
  | .sym s =>
    match s with
    | .bang | .minus => some 6
    | .question | .openParen | .openBracket | .openBrace => some 8
    | _ => none

/-- An expression begins with a token of its own or with its left operand. -/
inductive Begins (e : Expr) : Prop
  | own (l : Lexeme) (b : Nat) (hhead : e.lexemes.head? = some l) (hl : opens l = some b)
      (hb : e.binding ≤ b) (hif : l = .ident "if" → e.binding = 0 ∨ ¬ e.isPrintableHere)
  | operand (least : Nat) {a : Expr} {ls : List Lexeme} (hp : ⟨least, 0, a⟩ ∈ e.placed)
      (hls : e.lexemes = wrapped a.binding least a.lexemes ++ ls) (hleast : 0 < least ∧ least ≤ 7)
      (hb : e.binding ≤ least)

/-- A literal begins with a token of its own: a negative integer with the minus, which binds less,
and an entity with the first word of its type, which may be `if` only where the entity is not
printable. -/
theorem begins_literal (l : Literal) : Begins (lit l) := by
  cases l with
  | bool b =>
      exact .own (.ident (if b then "true" else "false")) 8 rfl rfl (Nat.le_refl 8)
        (by cases b <;> decide)
  | string s => exact .own (quoted s) 8 rfl rfl (Nat.le_refl 8) (by simp [quoted])
  | long n =>
      by_cases hn : n.toInt < 0
      · exact .own (.sym .minus) 6 (by simp [lexemes, literalLexemes, hn]) rfl
          (by simp [binding, hn]) (by simp)
      · exact .own (.int n.toInt.natAbs) 8 (by simp [lexemes, literalLexemes, hn]) rfl
          (by simp [binding, hn]) (by simp)
  | entity u =>
      obtain ⟨s, ss, hs, hl⟩ := Name.lexemes_eq_cons u.type
      refine .own (.ident s) 8 ?_ rfl (Nat.le_refl 8) fun hif => .inr ?_
      · simp [lexemes, literalLexemes, Uid.lexemes, hl]
      · obtain rfl : s = "if" := by simpa using hif
        simp [isPrintableHere, hs]

/-- What an expression begins with. -/
theorem begins : (e : Expr) → Begins e
  | .lit l => begins_literal l
  | .var v => .own (.ident v.name) 8 rfl rfl (Nat.le_refl 8) (by cases v <;> decide)
  | .slot s => .own (.sym .question) 8 rfl rfl (Nat.le_refl 8) nofun
  | .unary .not e => .own (.sym .bang) 6 (by rw [lexemes]; rfl) rfl (Nat.le_refl 6) nofun
  | .unary .neg e => .own (.sym .minus) 6 (by rw [lexemes]; rfl) rfl (Nat.le_refl 6) nofun
  | .unary .isEmpty e =>
      .operand 7 List.mem_cons_self (by rw [lexemes]) (by decide) (Nat.le_refl 7)
  | .binary op a b => by
      by_cases hop : op.isMethod
      · have hb : binding (.binary op a b) ≤ 7 := by cases op <;> exact Nat.le_of_ble_eq_true rfl
        exact .operand 7 (a := a) (by simp [placed, hop])
          (by rw [lexemes, if_pos hop, List.append_assoc]) (by decide) hb
      · have hb : binding (.binary op a b) ≤ (operandBinding op).1 := by
          cases op <;> first | exact Nat.le_of_ble_eq_true rfl | exact absurd rfl hop
        exact .operand (operandBinding op).1 (a := a) (by simp [placed, hop])
          (by rw [lexemes, if_neg hop]) (by cases op <;> decide) hb
  | .and a b => .operand 2 List.mem_cons_self (by rw [lexemes]) (by decide) (Nat.le_refl 2)
  | .or a b => .operand 1 List.mem_cons_self (by rw [lexemes]) (by decide) (Nat.le_refl 1)
  | .ite c t e => .own (.ident "if") 8 (by rw [lexemes]; rfl) rfl (Nat.zero_le 8) fun _ => .inl rfl
  | .getAttr e n =>
      .operand 7 List.mem_cons_self (by rw [lexemes]) (by decide) (Nat.le_refl 7)
  | .hasAttr e n => .operand 4 List.mem_cons_self (by rw [lexemes]) (by decide) (Nat.le_succ 3)
  | .like e p => .operand 4 List.mem_cons_self (by rw [lexemes]) (by decide) (Nat.le_succ 3)
  | .is e t => .operand 4 List.mem_cons_self (by rw [lexemes]) (by decide) (Nat.le_succ 3)
  | .isMem e t g =>
      .operand 4 List.mem_cons_self (by rw [lexemes, List.append_assoc]) (by decide)
        (Nat.le_succ 3)
  | .set items => .own (.sym .openBracket) 8 (by rw [lexemes]; rfl) rfl (Nat.le_refl 8) nofun
  | .record fields => .own (.sym .openBrace) 8 (by rw [lexemes]; rfl) rfl (Nat.le_refl 8) nofun

/-- The tokens begin like an expression that binds at least like `least`. -/
def Opens (least : Nat) (ls : List Lexeme) : Prop :=
  ∃ l ls' b, ls = l :: ls' ∧ opens l = some b ∧ least ≤ b

/-- What opens a place for tightly bound operands opens every other place. -/
theorem Opens.of_le {least least' : Nat} {ls : List Lexeme} (h : Opens least ls)
    (hle : least' ≤ least) : Opens least' ls := by
  obtain ⟨l, ls', b, hls, hl, hb⟩ := h
  exact ⟨l, ls', b, hls, hl, Nat.le_trans hle hb⟩

/-- Only the first token decides. -/
theorem Opens.append {least : Nat} {ls ms : List Lexeme} (h : Opens least ls) :
    Opens least (ls ++ ms) := by
  obtain ⟨l, ls', b, rfl, hl, hb⟩ := h
  exact ⟨l, ls' ++ ms, b, rfl, hl, hb⟩

/-- With the parentheses that it needs, an expression opens every place. -/
theorem opens_wrapped {binding least : Nat} {ls : List Lexeme} (h : Opens binding ls)
    (hle : least ≤ 8) : Opens least (wrapped binding least ls) := by
  unfold wrapped
  split
  · exact ⟨.sym .openParen, ls ++ [.sym .closeParen], 8, rfl, rfl, hle⟩
  · rename_i hb
    exact h.of_le (Nat.le_of_not_lt hb)

/-- **What an expression begins with** fits its binding. -/
theorem opens_lexemes (e : Expr) : Opens e.binding e.lexemes := by
  induction e using induction_operands with
  | step e ih =>
      cases begins e with
      | own l b hhead hl hb _ =>
          obtain ⟨ls, hls⟩ := List.head?_eq_some_iff.mp hhead
          exact ⟨l, ls, b, hls, hl, hb⟩
      | operand least hp hls hleast hb =>
          have hoperand := ih _ (mem_operands_of_mem_placed hp)
          rw [hls]
          exact (opens_wrapped hoperand (by omega)).append.of_le hb

/-! ### Full expressions -/

/-- An expression can be read where a full expression begins: it is a condition, or does not begin
like one. -/
def Full (e : Expr) : Prop :=
  e.binding = 0 ∨ e.lexemes.head? ≠ some (.ident "if")

/-- An expression is no less full than its left operand. -/
theorem Full.of_left {e a : Expr} (ha : a.Full) (least : Nat) {ls : List Lexeme}
    (hls : e.lexemes = wrapped a.binding least a.lexemes ++ ls) (hleast : 0 < least) : e.Full := by
  refine .inr ?_
  rw [hls]
  unfold wrapped
  split
  · nofun
  · rename_i hb
    obtain ⟨l, ls', -, hl, -, -⟩ := a.opens_lexemes
    rcases ha with ha | ha
    · exact absurd ha (by omega)
    · rwa [hl] at ha ⊢

/-- What begins with a digit does not begin with `if`: its leftmost operand is an integer, which no
parentheses stand around. -/
theorem full_of_startsWithDigit : (e : Expr) → e.startsWithDigit → e.Full
  | .lit (.long n), h => by
      simp only [startsWithDigit, decide_eq_true_eq] at h
      refine .inr ?_
      rw [lexemes, literalLexemes, if_neg (by omega)]
      simp
  | .getAttr e n, h =>
      (full_of_startsWithDigit e h).of_left 7 (by rw [lexemes]) (by decide)
  | .unary .isEmpty e, h =>
      (full_of_startsWithDigit e h).of_left 7 (by rw [lexemes]) (by decide)
  | .binary op a b, h => by
      obtain ⟨hop, ha⟩ := Bool.and_eq_true_iff.mp h
      exact (full_of_startsWithDigit a ha).of_left 7
        (by rw [lexemes, if_pos hop, List.append_assoc]) (by decide)

/-- An expression can be read in a place: it can be read in parentheses, and without them where a
full expression begins. -/
def Stands (e : Expr) (least : Nat) : Prop :=
  least = 0 ∨ e.binding < least → e.Full

/-- A full expression can be read in every place. -/
theorem Full.stands {e : Expr} (h : e.Full) (least : Nat) : e.Stands least :=
  fun _ => h

/-- Where a full expression begins, only those can be read. -/
theorem Stands.full {e : Expr} (h : e.Stands 0) : e.Full :=
  h (.inl rfl)

/-- A place that asks for one more makes a difference only to expressions that bind exactly as the
place asks. -/
theorem Stands.succ {e : Expr} {least : Nat} (h : e.Stands least) (hb : e.binding ≠ least) :
    e.Stands (least + 1) := by
  intro hlt
  exact h (by omega)

/-- What can be read in a narrower place can be read in a wider one, except where a full expression
begins. -/
theorem Stands.of_succ {e : Expr} {least : Nat} (h : e.Stands (least + 1)) (hleast : 0 < least) :
    e.Stands least := by
  intro hlt
  exact h (by omega)

/-! ### Legible expressions -/

/-- Whether the names in an expression can be read, apart from its operands. -/
def isLegibleHere : Expr → Bool
  | lit (.entity u) =>
    u.isValid && !List.contains ["true", "false"] ((Name.segments u.type).headD "")
  | e => e.isValidHere

/-- Every part of an expression can be read in its place. -/
def Legible (e : Expr) : Prop :=
  ∀ q ∈ e.parts, q.isLegibleHere ∧ ∀ p ∈ q.placed, p.operand.Stands p.least

section legible

variable {e : Expr}

/-- The names of a legible expression can be read. -/
theorem Legible.here (h : e.Legible) : e.isLegibleHere :=
  (h e e.self_mem_parts).1

/-- The operands of a legible expression can be read in their places. -/
theorem Legible.stands (h : e.Legible) {p : Place} (hp : p ∈ e.placed) :
    p.operand.Stands p.least :=
  (h e e.self_mem_parts).2 p hp

/-- The operands of a legible expression are legible. -/
theorem Legible.operand (h : e.Legible) {o : Expr} (ho : o ∈ e.operands) : o.Legible :=
  fun q hq => h q (parts_subset_of_mem_operands ho hq)

/-- An expression is legible if its own names are, and its operands are legible and can be read in
their places. -/
theorem Legible.of_placed (h : e.isLegibleHere)
    (hplaced : ∀ p ∈ e.placed, p.operand.Legible ∧ p.operand.Stands p.least) : e.Legible := by
  refine forall_parts ⟨h, fun p hp => (hplaced p hp).2⟩ fun o ho => ?_
  rw [← map_placed] at ho
  obtain ⟨p, hp, rfl⟩ := List.mem_map.mp ho
  exact (hplaced p hp).1

/-- Names that can be read are valid, and not the words that are read as truth values. -/
theorem isValidHere_of_isLegibleHere (h : e.isLegibleHere) : e.isValidHere := by
  unfold isLegibleHere at h
  split at h
  · exact (Bool.and_eq_true_iff.mp h).1
  · exact h

/-- A legible expression is valid. -/
theorem Legible.valid (h : e.Legible) : e.Valid :=
  fun q hq => isValidHere_of_isLegibleHere (h q hq).1

end legible

/-! ### Printable expressions -/

/-- A printable expression does not begin like a condition, unless it is one. -/
theorem Printable.full {e : Expr} (h : e.Printable) : e.Full := by
  induction e using induction_operands with
  | step e ih =>
      cases begins e with
      | own l b hhead _ _ hif =>
          by_cases hl : l = .ident "if"
          · exact .inl ((hif hl).resolve_right (absurd h.here))
          · exact .inr (by simpa [hhead] using hl)
      | operand least hp hls hleast _ =>
          have hmem := mem_operands_of_mem_placed hp
          exact (ih _ hmem (h.operand hmem)).of_left least hls hleast.1

/-- Printable names are also not `if`, which legible ones may be where a place in parentheses lets
them. -/
theorem isLegibleHere_of_isPrintableHere {e : Expr} (h : e.isPrintableHere) : e.isLegibleHere := by
  unfold isPrintableHere at h
  split at h
  · simp_all [isLegibleHere]
  all_goals simp_all [isLegibleHere, isValidHere]

/-- A printable expression is legible. -/
theorem Printable.legible {e : Expr} (h : e.Printable) : e.Legible := by
  induction e using induction_operands with
  | step e ih =>
      refine .of_placed (isLegibleHere_of_isPrintableHere h.here) fun p hp => ?_
      have hoperand := h.operand (mem_operands_of_mem_placed hp)
      exact ⟨ih _ (mem_operands_of_mem_placed hp) hoperand, hoperand.full.stands _⟩

end AccessPolicy.Expr
