import AccessPolicy.Proofs.Parse.Levels

/-!
# Operators read back

One lemma for each kind of operator says how the tokens of a printed operation are read, given that
its operands are read everywhere.

* `chains_join` — the operators that make chains.
* `reads_relation` — what stands behind the left operand of a relation decides how it is read.
* `reads_ite`, `reads_not`, `reads_neg` — conditions and prefixes.
* **A minus sign is never taken for part of a number** (`negated_ne_int`): where an operand begins
  with a digit, it stands in parentheses.
-/

namespace AccessPolicy.Grammar

open AccessPolicy.Expr

variable {fails : Prop} {ms ns : List Lexeme}

/-! ### Names and patterns -/

/-- A quoted text is read as the text. -/
theorem yields_quoted (s : String) : Yields fails Parser.string (quoted s :: ms) s ms := by
  have h : Yields fails Parser.string (quoted s :: ms) (String.ofList s.toList) ms := yields_string
  rwa [String.ofList_toList] at h

/-- A quoted name is read as the name, whatever it is. -/
theorem yields_name_quoted (name : String) :
    Yields fails Parser.name (quoted name :: ms) name ms := by
  unfold Parser.name
  exact yields_peek.bind (yields_quoted name)

/-- An identifier is read as itself. -/
theorem yields_name_ident (name : String) :
    Yields fails Parser.name (.ident name :: ms) name ms := by
  unfold Parser.name
  exact yields_peek.bind yields_ident

/-- So the name of an attribute is read back in either form. -/
theorem yields_attrLexeme (name : String) :
    Yields fails Parser.name (attrLexeme name :: ms) name ms := by
  unfold attrLexeme
  split
  · exact yields_name_ident name
  · exact yields_name_quoted name

/-- And so is the key of a record. -/
theorem yields_keyLexeme (name : String) :
    Yields fails Parser.name (keyLexeme name :: ms) name ms := by
  unfold keyLexeme
  split
  · exact yields_name_ident name
  · exact yields_name_quoted name

/-- A quoted pattern is read as the pattern. -/
theorem yields_pattern (p : List Glob) :
    Yields fails pattern (.str (String.ofList (Quoted.encodePattern p)) :: ms) p ms := by
  unfold pattern
  refine yields_peek.bind ?_
  simp only [List.head?_cons, String.toList_ofList, Quoted.decodePattern_encodePattern]
  exact yields_advance.bind yields_pure

/-! ### Chains -/

/-- Two operands with the operator of a level between them. -/
theorem chains_join {least : Nat} {l : Lexeme} {join : Expr → Expr → Expr}
    (hj : Joins least l join) {a b : Expr} (h : Inside (join a b)) : Chains (join a b) least := by
  have hbinding := hj.binding a b
  have ha : ⟨least, 0, a⟩ ∈ (join a b).placed := by simp [hj.placed]
  have hb : ⟨least + 1, 0, b⟩ ∈ (join a b).placed := by simp [hj.placed]
  have hda := depth_lt_of_mem_placed ha
  have htight := hj.tight
  have hleast : least + 1 ≤ 6 := by rcases hj.level with rfl | rfl | rfl | rfl <;> decide
  intro fails room ms ns whole hdeep hms hrest
  have hwrap : wrapped (join a b).binding least (join a b).lexemes ++ ms =
      wrapped a.binding least a.lexemes ++
        l :: (wrapped b.binding (least + 1) b.lexemes ++ ms) := by
    rw [wrapped, if_neg (by omega), hj.lexemes]
    simp
  rw [hwrap]
  obtain ⟨hgood, hstands⟩ := h.operand ha
  refine hgood.chains least hj.level hstands (fun hd => hdeep (hd.of_placed ha least))
    (Nat.le_of_eq htight) fun links hlinks => ?_
  -- With no link left the reader complains, which it may if the expression is too deep.
  cases links with
  | zero =>
      rw [chain]
      refine yields_peek.bind ?_
      rw [List.head?_cons, hj.operator]
      exact yields_advance.bind (yields_fail (hdeep (.inr (by omega))))
  | succ links =>
      rw [chain]
      refine yields_peek.bind ?_
      rw [List.head?_cons, hj.operator]
      refine yields_advance.bind ((h.reads (least + 1) hb hleast hdeep ?_).bind (hrest links ?_))
      · omega
      · omega

/-- **A chain is read** wherever it can stand, if its operands are. -/
theorem good_join {least : Nat} {l : Lexeme} {join : Expr → Expr → Expr} (hj : Joins least l join)
    {a b : Expr} (h : Inside (join a b)) : Good (join a b) :=
  .of_chains least (hj.binding a b) hj.level (chains_join hj h)

/-! ### Relations -/

section relations

variable {e : Expr}

/-- A relation is read if what follows its left operand is. -/
theorem reads_relation (l : Lexeme) (ls : List Lexeme) {a : Expr} (hbinding : e.binding = 3)
    (hp : ⟨4, 0, a⟩ ∈ e.placed) (hlexemes : e.lexemes = wrapped a.binding 4 a.lexemes ++ l :: ls)
    (htight : tightness (some l) = 3) (h : Inside e)
    (hrest : ∀ ⦃fails : Prop⦄ ⦃room : Nat⦄ ⦃ms : List Lexeme⦄,
      (Deep room e 3 → fails) → tightness ms.head? < 3 →
      Yields fails (relationRest (sums room) a) (l :: (ls ++ ms)) e ms) : Reads e 3 := by
  intro fails room ms hdeep hms
  rw [wrapped, if_neg (by omega), hlexemes, List.append_assoc]
  refine (h.reads 4 hp (by decide) hdeep ?_).bind (hrest hdeep hms)
  rw [List.cons_append, List.head?_cons, htight]
  decide

/-- A comparison or a membership is read by the symbol behind its left operand. -/
theorem reads_binary {op : BinaryOp} {a b : Expr} (hop : relationOp? (some op.lexeme) = some op)
    (h : Inside (.binary op a b)) : Reads (.binary op a b) 3 := by
  have hfacts : binding (.binary op a b) = 3 ∧ op.isMethod = false ∧ operandBinding op = (4, 4) ∧
      tightness (some op.lexeme) = 3 := by
    cases op <;> first | exact ⟨rfl, rfl, rfl, by decide⟩ | exact absurd hop (by decide)
  obtain ⟨hbinding, hmethod, hoperand, htight⟩ := hfacts
  have hb : ⟨4, 0, b⟩ ∈ (Expr.binary op a b).placed := by simp [placed, hmethod, hoperand]
  refine reads_relation op.lexeme (wrapped b.binding 4 b.lexemes) (a := a) hbinding
    (by simp [placed, hmethod, hoperand]) (by simp [lexemes, hmethod, hoperand]) htight h ?_
  intro fails room ms hdeep hms
  unfold relationRest
  refine yields_peek.bind ?_
  rw [List.head?_cons, hop]
  refine yields_advance.bind ((h.reads 4 hb (by decide) hdeep ?_).bind yields_pure)
  exact Nat.lt_trans hms (by decide)

/-- A test of an attribute is read by its word. -/
theorem reads_hasAttr {a : Expr} (name : String) (h : Inside (.hasAttr a name)) :
    Reads (.hasAttr a name) 3 := by
  refine reads_relation (.ident "has") [attrLexeme name] (a := a) rfl
    List.mem_cons_self (by simp [lexemes]) (by decide) h ?_
  intro fails room ms hdeep hms
  unfold relationRest
  exact yields_peek.bind (yields_advance.bind ((yields_attrLexeme name).bind yields_pure))

/-- A test of a pattern is read by its word. -/
theorem reads_like {a : Expr} (p : List Glob) (h : Inside (.like a p)) :
    Reads (.like a p) 3 := by
  refine reads_relation (.ident "like") [.str (String.ofList (Quoted.encodePattern p))] (a := a) rfl
    List.mem_cons_self (by simp [lexemes]) (by decide) h ?_
  intro fails room ms hdeep hms
  unfold relationRest
  exact yields_peek.bind (yields_advance.bind ((yields_pattern p).bind yields_pure))

/-- A test of a type is read by its word, and nothing is read on behind the type unless `in`
follows. -/
theorem reads_is {a : Expr} (type : String) (h : Inside (.is a type)) : Reads (.is a type) 3 := by
  refine reads_relation (.ident "is") (Name.lexemes type) (a := a) rfl
    List.mem_cons_self (by simp [lexemes]) (by decide) h ?_
  intro fails room ms hdeep hms
  obtain ⟨-, -, -, -, hin⟩ := relation_stop hms
  unfold relationRest
  refine yields_peek.bind (yields_advance.bind ?_)
  refine (yields_typeName (ne_of_tightness_lt hms (by decide))).bind ?_
  exact (yields_eat_of_ne hin).bind yields_pure

/-- A test of a type and of a membership is read by both words. -/
theorem reads_isMem {a g : Expr} (type : String) (h : Inside (.isMem a type g)) :
    Reads (.isMem a type g) 3 := by
  have hg : ⟨4, 0, g⟩ ∈ (Expr.isMem a type g).placed := by simp [placed]
  refine reads_relation (.ident "is")
    (Name.lexemes type ++ .ident "in" :: wrapped g.binding 4 g.lexemes) (a := a) rfl
    List.mem_cons_self (by simp [lexemes]) (by decide) h ?_
  intro fails room ms hdeep hms
  unfold relationRest
  refine yields_peek.bind (yields_advance.bind ?_)
  rw [List.append_assoc]
  refine (yields_typeName (by simp)).bind (yields_eat.bind ?_)
  refine (h.reads 4 hg (by decide) hdeep ?_).bind yields_pure
  exact Nat.lt_trans hms (by decide)

end relations

/-! ### Conditions and prefixes -/

section prefixes

variable {e : Expr}

/-- A condition is read by its first word, and it is the only expression that begins with `if`. -/
theorem reads_ite {c a b : Expr} (h : Inside (.ite c a b)) : Reads (.ite c a b) 0 := by
  intro fails room ms hdeep hms
  have hls : wrapped (Expr.ite c a b).binding 0 (Expr.ite c a b).lexemes ++ ms =
      .ident "if" :: (c.lexemes ++ .ident "then" :: (a.lexemes ++ .ident "else" ::
        (b.lexemes ++ ms))) := by
    simp [wrapped, lexemes]
  rw [hls, reader, Grammar.expr]
  refine yields_eat.bind ?_
  refine (h.full 0 (by simp [placed]) hdeep rfl).bind (yields_expect.bind ?_)
  refine (h.full 0 (by simp [placed]) hdeep rfl).bind (yields_expect.bind ?_)
  refine (h.full 0 (by simp [placed]) hdeep ?_).bind yields_pure
  omega

/-- What begins with a prefix is read if it is with a level of nesting left. -/
theorem reads_prefixed (hbinding : e.binding = 6)
    (h : ∀ ⦃fails : Prop⦄ ⦃room : Nat⦄ ⦃ms : List Lexeme⦄,
      (Deep (room + 1) e 6 → fails) → tightness ms.head? < 6 →
      Yields fails (Grammar.unary (room + 1)) (e.lexemes ++ ms) e ms) : Reads e 6 := by
  intro fails room ms hdeep hms
  change Yields fails (Grammar.unary room) _ _ _
  rw [wrapped, if_neg (by omega)]
  cases room with
  | zero =>
      rw [Grammar.unary]
      exact yields_fail (hdeep (deep_zero e 6))
  | succ room => exact h hdeep hms

/-- A negation is read by its sign. -/
theorem reads_not {a : Expr} (h : Inside (.unary .not a)) : Reads (.unary .not a) 6 := by
  refine reads_prefixed rfl fun fails room ms hdeep hms => ?_
  rw [lexemes, List.cons_append, Grammar.unary]
  refine yields_peek.bind (yields_advance.bind ?_)
  exact (h.reads 6 List.mem_cons_self (Nat.le_refl 6) hdeep hms).bind yields_pure

/-- Only an expression that begins with a digit has a number for its first token. -/
theorem startsWithDigit_of_head : (e : Expr) → 6 ≤ e.binding → {n : Nat} → {ls : List Lexeme} →
    e.lexemes = .int n :: ls → e.startsWithDigit
  | .lit (.long n), _, _, _, h => by
      simp only [lexemes, literalLexemes] at h
      split at h
      · cases h
      · rename_i hn
        simpa [startsWithDigit] using hn
  | .lit (.entity u), _, _, _, h => by
      obtain ⟨s, ls, hls⟩ := u.lexemes_eq_cons
      simp only [lexemes, literalLexemes, hls] at h
      cases h
  | .lit (.bool b), _, _, _, h => by cases b <;> cases h
  | .lit (.string s), _, _, _, h => by cases h
  | .var v, _, _, _, h => by cases h
  | .slot s, _, _, _, h => by cases h
  | .unary .not e, _, _, _, h => by
      rw [lexemes] at h
      cases h
  | .unary .neg e, _, _, _, h => by
      rw [lexemes] at h
      cases h
  -- A method call begins as its receiver does.
  | .unary .isEmpty e, _, n, ls, h => by
      rw [lexemes] at h
      obtain ⟨hb, ls', hls⟩ := of_wrapped_append h (by simp)
      exact startsWithDigit_of_head e (by omega) hls
  | .binary op a b, hle, n, ls, h => by
      rw [lexemes] at h
      split at h
      · rename_i hop
        rw [List.append_assoc] at h
        obtain ⟨hb, ls', hls⟩ := of_wrapped_append h (by simp)
        simp only [startsWithDigit, hop, Bool.true_and]
        exact startsWithDigit_of_head a (by omega) hls
      · rename_i hop
        cases op <;> first | exact absurd rfl hop | exact absurd hle (by simp [binding])
  -- What binds less tightly than a prefix operator is excluded.
  | .and a b, hle, _, _, _ => absurd hle (by simp [binding])
  | .or a b, hle, _, _, _ => absurd hle (by simp [binding])
  | .ite c t e, hle, _, _, _ => absurd hle (by simp [binding])
  | .getAttr e name, _, n, ls, h => by
      rw [lexemes] at h
      obtain ⟨hb, ls', hls⟩ := of_wrapped_append h (by unfold accessLexemes; split <;> simp)
      exact startsWithDigit_of_head e (by omega) hls
  | .hasAttr e n, hle, _, _, _ => absurd hle (by simp [binding])
  | .like e p, hle, _, _, _ => absurd hle (by simp [binding])
  | .is e t, hle, _, _, _ => absurd hle (by simp [binding])
  | .isMem e t g, hle, _, _, _ => absurd hle (by simp [binding])
  | .set items, _, _, _, h => by
      rw [lexemes] at h
      cases h
  | .record fields, _, _, _, h => by
      rw [lexemes] at h
      cases h
where
  /-- A number in front of wrapped tokens is in front of the tokens themselves. -/
  of_wrapped_append {binding n : Nat} {ls ms ns : List Lexeme}
      (h : wrapped binding 7 ls ++ ms = .int n :: ns) (hms : ms.head? ≠ some (.int n)) :
      7 ≤ binding ∧ ∃ ls', ls = .int n :: ls' := by
    unfold wrapped at h
    split at h
    · cases h
    · rename_i hb
      refine ⟨Nat.le_of_not_lt hb, ?_⟩
      cases ls with
      | nil =>
          rw [List.nil_append] at h
          rw [h] at hms
          exact absurd rfl hms
      | cons l ls =>
          injection h with hl hls
          exact ⟨ls, by rw [hl]⟩

/-- The tokens of an expression behind a minus sign. -/
def negated (a : Expr) : List Lexeme :=
  if startsWithDigit a then inParens a.lexemes else wrapped a.binding 6 a.lexemes

/-- Behind a minus sign an integer is part of a literal. The operand of a minus never begins with
one, as parentheses keep them apart. -/
theorem negated_ne_int (a : Expr) {n : Nat} {ls : List Lexeme} :
    negated a ++ ms ≠ .int n :: ls := by
  intro h
  unfold negated wrapped at h
  split at h
  · cases h
  · rename_i hdigit
    split at h
    · cases h
    · rename_i hb
      obtain ⟨l, ls', b, hls, -, -⟩ := opens_lexemes a
      rw [hls] at h
      injection h with hl
      exact hdigit (startsWithDigit_of_head a (Nat.le_of_not_lt hb) (hl ▸ hls))

/-- An operand that always gets parentheses, as it stands behind a prefix. -/
theorem Inside.reads_inParens {a : Expr} (h : Inside e) (least : Nat) {extra room : Nat}
    (hp : ⟨least, extra, a⟩ ∈ e.placed) (hleast : 8 < least) {k : Nat}
    (hdeep : Deep (room + extra) e k → fails) (hms : tightness ms.head? < 6) :
    Yields fails (unary room) (inParens a.lexemes ++ ms) a ms := by
  obtain ⟨hgood, hstands⟩ := h.operand hp
  have hb : a.binding < least := Nat.lt_of_le_of_lt a.binding_le hleast
  have hdeep' : Deep room a least → fails := fun hd => hdeep (hd.of_placed hp k)
  cases room with
  | zero =>
      rw [Grammar.unary]
      exact yields_fail (hdeep' (deep_zero a least))
  | succ room =>
      rw [Grammar.unary]
      refine yields_peek.bind ?_
      have hreads := hgood.reads 0 (Nat.zero_le 6) ((hstands (.inr hb)).stands 0)
      refine (hreads.parens fun hd => hdeep' (hd.imp_left fun hlt => ?_)).bind ?_
      · rw [need_of_lt hb]
        omega
      · exact yields_members_stop (Nat.lt_trans hms (by decide))

/-- What stands behind a minus sign is no number, so the sign is not part of it. -/
theorem reads_neg {a : Expr} (h : Inside (.unary .neg a)) : Reads (.unary .neg a) 6 := by
  refine reads_prefixed rfl fun fails room ms hdeep hms => ?_
  have hls : (Expr.unary .neg a).lexemes ++ ms = .sym .minus :: (negated a ++ ms) := by
    simp [lexemes, negated]
  have hsecond : ∀ n, (negated a ++ ms).head? ≠ some (.int n) := by
    intro n hhead
    obtain ⟨ls, hls⟩ := List.head?_eq_some_iff.mp hhead
    exact negated_ne_int a hls
  rw [hls, Grammar.unary]
  refine yields_peek.bind ?_
  simp only [List.head?_cons]
  refine yields_peekSecond.bind ?_
  rw [List.tail_cons]
  split
  · rename_i n hn
    exact absurd hn (hsecond n)
  · refine yields_advance.bind (Yields.bind ?_ yields_pure)
    unfold negated
    split
    · rename_i hdigit
      exact h.reads_inParens 9 (by simp [placed, hdigit]) (by decide) hdeep hms
    · rename_i hdigit
      exact h.reads 6 (by simp [placed, hdigit]) (Nat.le_refl 6) hdeep hms

/-- An integer that fits is read as a literal. -/
theorem yields_longLiteral {text : String} {n : Long} {l : Lexeme} :
    Yields fails (longLiteral text (some n)) (l :: ms) (.lit (.long n)) ms :=
  yields_advance.bind yields_pure

/-- A negative number is one literal, though it has two tokens. -/
theorem reads_negative {n : Long} (hn : n.toInt < 0) : Reads (.lit (.long n)) 6 := by
  refine reads_prefixed (by simp [binding, hn]) fun fails room ms _ hms => ?_
  have hls : (Expr.lit (.long n)).lexemes ++ ms = .sym .minus :: .int n.toInt.natAbs :: ms := by
    simp [lexemes, literalLexemes, hn]
  have hlit : Long.ofInt? (-(n.toInt.natAbs : Int)) = some n :=
    Long.ofInt?_eq_some_iff.mpr (by omega)
  rw [hls, Grammar.unary]
  refine yields_peek.bind (yields_peekSecond.bind (yields_advance.bind ?_))
  unfold negLiteral
  rw [hlit]
  exact yields_longLiteral.bind (yields_members_stop (Nat.lt_trans hms (by decide)))

end prefixes

end AccessPolicy.Grammar
