import AccessPolicy.Proofs.Parse.Operators

/-!
# Printed expressions read back

* `members_link` — a link of a chain of members; `members_of_primary` — what stands alone.
* `ItemYields` and `FieldYields` — the tokens of an item of a set and of a field of a record,
  whatever they are, make a set and a record (`yields_set`, `yields_record`).
* **An expression reads back** (`good`, `yields_bounded`): the tokens of a legible expression give
  the expression, unless they nest too deeply or the expression is too deep.
-/

namespace AccessPolicy.Grammar

open AccessPolicy.Expr

variable {fails : Prop} {ms ns : List Lexeme}

/-! ### Members -/

section members

variable {e a : Expr}

/-- An item of a list inside an expression. -/
theorem Inside.item (h : Inside e) (hp : ⟨0, 2, a⟩ ∈ e.placed) {room k : Nat} (close : Symbol)
    (hdeep : Deep (room + 1) e k → fails) (hopens : opens (.sym close) = none)
    (htight : tightness (some (.sym close)) = 0) :
    ItemYields fails close (expr room) a a.lexemes := by
  constructor
  · obtain ⟨l, ls, b, hls, hl, -⟩ := opens_lexemes a
    refine ⟨l, ls, hls, ?_⟩
    rintro rfl
    rw [hopens] at hl
    cases hl
  · intro ms hms
    refine h.full 1 hp hdeep ?_
    rcases hms with hms | hms
    · rw [hms]
      rfl
    · rw [hms, htight]

/-- One more member behind an expression. -/
theorem members_link (l : Lexeme) (ls : List Lexeme) (hbinding : e.binding = 7)
    (hp : ⟨7, 0, a⟩ ∈ e.placed) (hlexemes : e.lexemes = wrapped a.binding 7 a.lexemes ++ l :: ls)
    (hl : l = .sym .dot ∨ l = .sym .openBracket) (h : Inside e)
    (hlink : ∀ ⦃fails : Prop⦄ ⦃room links : Nat⦄ ⦃ms ns : List Lexeme⦄ ⦃whole : Expr⦄,
      (Deep (room + 1) e 7 → fails) → tightness ms.head? < 8 →
      Yields fails (members (expr room) links e) ms whole ns →
      Yields fails (members (expr room) (links + 1) a) (l :: (ls ++ ms)) whole ns) :
    Members e := by
  have hda := depth_lt_of_mem_placed hp
  obtain ⟨hgood, hstands⟩ := h.operand hp
  intro fails room ms ns whole hdeep hms hrest
  have htight : tightness (some l) < 8 := by rcases hl with rfl | rfl <;> decide
  rw [wrapped, if_neg (by omega), hlexemes, List.append_assoc]
  refine hgood.members hstands (fun hd => hdeep (hd.of_placed hp 7)) htight fun links hlinks => ?_
  cases links with
  | zero =>
      rw [List.cons_append, members]
      refine yields_peek.bind ?_
      rw [if_pos (by simpa using hl)]
      exact yields_fail (hdeep (.inr (by omega)))
  | succ links => exact hlink hdeep hms (hrest links (by omega))

/-- An access to an attribute is a link of a chain of members: a dot and a name, or a name in
brackets. -/
theorem members_getAttr (name : String) (h : Inside (.getAttr a name)) :
    Members (.getAttr a name) := by
  by_cases hbare : isBareAttr name
  · refine members_link (.sym .dot) [.ident name] (a := a) rfl List.mem_cons_self
      (by simp [lexemes, accessLexemes, hbare]) (.inl rfl) h ?_
    intro fails room links ms ns whole _ hms hrest
    rw [members]
    refine yields_peek.bind (yields_advance.bind (yields_ident.bind ?_))
    exact (yields_eat_of_ne (ne_of_tightness_lt hms (by decide))).bind hrest
  · refine members_link (.sym .openBracket) [quoted name, .sym .closeBracket] (a := a)
      rfl List.mem_cons_self (by simp [lexemes, accessLexemes, hbare]) (.inr rfl) h ?_
    intro fails room links ms ns whole _ _ hrest
    rw [members]
    refine yields_peek.bind (yields_peekSecond.bind (yields_advance.bind ?_))
    exact (yields_quoted name).bind (yields_expect.bind hrest)

/-- So is the method without an argument. -/
theorem members_isEmpty (h : Inside (.unary .isEmpty a)) : Members (.unary .isEmpty a) := by
  refine members_link (.sym .dot)
    [.ident "isEmpty", .sym .openParen, .sym .closeParen] (a := a) rfl List.mem_cons_self
    (by simp [lexemes]) (.inl rfl) h ?_
  intro fails room links ms ns whole _ _ hrest
  rw [members]
  refine yields_peek.bind (yields_advance.bind (yields_ident.bind (yields_eat.bind ?_)))
  have hargs : Yields fails (Parser.listUntil .closeParen (expr room)) (.sym .closeParen :: ms) []
      ms := yields_listUntil (by decide) .nil
  refine hargs.bind ?_
  simp only [call, if_pos]
  exact yields_pure.bind hrest

/-- A method of a known name with one argument is a binary operation. -/
theorem call_method {op : BinaryOp} (hop : op.isMethod) (a b : Expr) :
    call a op.symbol [b] = pure (.binary op a b) := by
  have hne : op.symbol ≠ "isEmpty" := by cases op <;> decide
  have hof : BinaryOp.ofSymbol? op.symbol = some op := by cases op <;> rfl
  simp only [call, if_neg hne, hof, Option.filter_some, if_pos hop]

/-- And so is a method with an argument, which stands in parentheses of its own. -/
theorem members_method {op : BinaryOp} {b : Expr} (hop : op.isMethod)
    (h : Inside (.binary op a b)) : Members (.binary op a b) := by
  have hbinding : binding (.binary op a b) = 7 := by cases op <;> first | rfl | cases hop
  refine members_link (.sym .dot)
    (.ident op.symbol :: .sym .openParen :: (b.lexemes ++ [.sym .closeParen])) (a := a) hbinding
    (by simp [placed, hop]) (by simp [lexemes, hop]) (.inl rfl) h ?_
  intro fails room links ms ns whole hdeep _ hrest
  have hb : ⟨0, 2, b⟩ ∈ (Expr.binary op a b).placed := by simp [placed, hop]
  have hitem := h.item hb .closeParen hdeep rfl rfl
  have hargs : Yields fails (Parser.listUntil .closeParen (expr room))
      (separated (.sym .comma) [b.lexemes] ++ .sym .closeParen :: ms) [b] ms :=
    yields_listUntil (by decide) (.cons hitem .nil)
  simp only [separated, List.flatMap_nil, List.append_nil] at hargs
  have hls : .sym .dot :: (.ident op.symbol :: .sym .openParen ::
      (b.lexemes ++ [.sym .closeParen]) ++ ms) = .sym .dot :: .ident op.symbol ::
        .sym .openParen :: (b.lexemes ++ .sym .closeParen :: ms) := by simp
  rw [hls, members]
  refine yields_peek.bind (yields_advance.bind (yields_ident.bind (yields_eat.bind ?_)))
  refine hargs.bind ?_
  rw [call_method hop]
  exact yields_pure.bind hrest

end members

/-! ### What stands alone -/

section alone

variable {e : Expr}

/-- What stands alone begins a chain of members. -/
theorem members_of_primary (hbinding : e.binding = 8)
    (h : ∀ ⦃fails : Prop⦄ ⦃room : Nat⦄ ⦃ms : List Lexeme⦄,
      (Deep (room + 1) e 7 → fails) → tightness ms.head? < 8 →
      Yields fails (primary (expr room)) (e.lexemes ++ ms) e ms) : Members e := by
  intro fails room ms ns whole hdeep hms hrest
  rw [wrapped, if_neg (by omega)]
  exact (h hdeep hms).bind (hrest nestingLimit (Nat.le_add_right _ _))

/-- The two truth values are words that nothing else may be read from. -/
theorem members_bool (b : Bool) : Members (.lit (.bool b)) := by
  refine members_of_primary rfl fun fails room ms _ _ => ?_
  unfold primary
  refine yields_peek.bind ?_
  cases b with
  | true =>
      change Yields fails (named "true") _ _ _
      exact yields_advance.bind yields_pure
  | false =>
      change Yields fails (named "false") _ _ _
      exact yields_advance.bind yields_pure

/-- A text stands alone. -/
theorem members_string (s : String) : Members (.lit (.string s)) := by
  refine members_of_primary rfl fun fails room ms _ _ => ?_
  unfold primary
  exact yields_peek.bind ((yields_quoted s).bind yields_pure)

/-- An integer without a sign stands alone. One with a sign is read as a prefix. -/
theorem members_natural {n : Long} (hn : ¬ n.toInt < 0) : Members (.lit (.long n)) := by
  refine members_of_primary (by simp [binding, hn]) fun fails room ms _ _ => ?_
  have hlit : Long.ofInt? (n.toInt.natAbs : Int) = some n :=
    Long.ofInt?_eq_some_iff.mpr (by omega)
  have hls : (Expr.lit (.long n)).lexemes = [.int n.toInt.natAbs] := by
    simp [lexemes, literalLexemes, hn]
  rw [hls]
  unfold primary
  refine yields_peek.bind ?_
  simp only [List.cons_append, List.nil_append, List.head?_cons, natLiteral, hlit]
  exact yields_longLiteral

/-- An entity is a path that goes on with a quoted text, if it does not begin with a word that is
read as a truth value. -/
theorem members_entity {u : Uid} (h : (Expr.lit (.entity u)).isLegibleHere) :
    Members (.lit (.entity u)) := by
  refine members_of_primary rfl fun fails room ms _ _ => ?_
  obtain ⟨s, ss, hs, hl⟩ := Name.lexemes_eq_cons u.type
  simp only [isLegibleHere, hs, List.headD_cons, Bool.and_eq_true, Bool.not_eq_true',
    List.contains_eq_mem, decide_eq_false_iff_not, List.mem_cons, not_or] at h
  have hu : Yields fails Parser.path (u.lexemes ++ ms) (.uid u) ms := yields_path_uid u
  obtain ⟨ls, hls⟩ : ∃ ls, u.lexemes = .ident s :: .sym .pathSep :: ls := by
    rw [Uid.lexemes, hl]
    cases ss <;> exact ⟨_, rfl⟩
  rw [hls] at hu
  have hlexemes : (Expr.lit (.entity u)).lexemes = .ident s :: .sym .pathSep :: ls := hls
  rw [hlexemes]
  unfold primary
  refine yields_peek.bind ?_
  change Yields fails (named s) _ _ _
  unfold named
  rw [if_neg h.2.1, if_neg h.2.2.1]
  exact yields_peekSecond.bind (hu.bind yields_pure)

/-- The names of the variables are words, behind which no path goes on. -/
theorem members_var (v : Var) : Members (.var v) := by
  refine members_of_primary rfl fun fails room ms _ hms => ?_
  have hname : v.name ≠ "true" ∧ v.name ≠ "false" ∧ Var.ofName? v.name = some v := by
    cases v <;> decide
  have hsecond : ms.head? ≠ some (.sym .pathSep) := ne_of_tightness_lt hms (by decide)
  unfold primary
  refine yields_peek.bind ?_
  change Yields fails (named v.name) (.ident v.name :: ms) _ _
  unfold named
  rw [if_neg hname.1, if_neg hname.2.1]
  refine yields_peekSecond.bind ?_
  rw [List.tail_cons, if_neg hsecond, hname.2.2]
  exact yields_advance.bind yields_pure

/-- A slot is read by its question mark. -/
theorem members_slot (s : Slot) : Members (.slot s) := by
  refine members_of_primary rfl fun fails room ms _ _ => ?_
  have hname : Slot.ofName? ("?" ++ s.word) = some s := by cases s <;> decide
  unfold primary
  refine yields_peek.bind (yields_advance.bind ?_)
  unfold slotName
  refine yields_ident.bind ?_
  rw [hname]
  exact yields_pure

/-- What relates the items of a set to their tokens, one by one. -/
theorem forall₂_items {R : Expr → List Lexeme → Prop} :
    (es : List Expr) → (∀ e ∈ es, R e e.lexemes) → List.Forall₂ R es (itemLexemes es)
  | [], _ => .nil
  | e :: es, h =>
      .cons (h e List.mem_cons_self) (forall₂_items es fun x hx => h x (List.mem_cons_of_mem e hx))

/-- Items in brackets are a set. -/
theorem yields_set {value : Parser Expr} {es : List Expr} {lss : List (List Lexeme)}
    (h : List.Forall₂ (ItemYields fails .closeBracket value) es lss) :
    Yields fails (primary value) (.sym .openBracket ::
      (separated (.sym .comma) lss ++ .sym .closeBracket :: ms)) (.set es) ms := by
  unfold primary
  refine yields_peek.bind (yields_advance.bind ?_)
  exact (yields_listUntil (by decide) h).bind yields_pure

/-- Items in brackets stand alone. -/
theorem members_set {items : List Expr} (h : Inside (.set items)) : Members (.set items) := by
  refine members_of_primary rfl fun fails room ms hdeep _ => ?_
  have hitems := forall₂_items (R := ItemYields fails .closeBracket (expr room)) items fun x hx =>
    h.item (List.mem_map_of_mem hx) _ hdeep rfl rfl
  have hls : (Expr.set items).lexemes ++ ms = .sym .openBracket ::
      (separated (.sym .comma) (itemLexemes items) ++ .sym .closeBracket :: ms) := by
    simp [lexemes]
  rw [hls]
  exact yields_set hitems

end alone

/-! ### Records -/

section records

/-- A field of a record: its key is read from one token, and its value from what stands behind the
colon, in front of a comma and of the closing brace. -/
inductive FieldYields (fails : Prop) (value : Parser Expr) : String × Expr → List Lexeme → Prop
  | intro {k : String} {e : Expr} {l : Lexeme} {ls : List Lexeme} (hl : l ≠ .sym .closeBrace)
      (key : ∀ ms, Yields fails Parser.name (l :: ms) k ms)
      (behind : ∀ ms, ms.head? = some (.sym .comma) ∨ ms.head? = some (.sym .closeBrace) →
        Yields fails value (ls ++ ms) e ms) :
      FieldYields fails value (k, e) (l :: .sym .colon :: ls)

variable {value : Parser Expr} {fs : List (String × Expr)} {lss : List (List Lexeme)}

/-- A field begins with its key. -/
theorem FieldYields.exists_cons {f : String × Expr} {ls : List Lexeme}
    (h : FieldYields fails value f ls) : ∃ l ls', ls = l :: ls' ∧ l ≠ .sym .closeBrace := by
  cases h with
  | intro hl _ _ => exact ⟨_, _, rfl, hl⟩

/-- The fields of a record, none of whose keys comes again. -/
theorem yields_fields (h : List.Forall₂ (FieldYields fails value) fs lss) : fs ≠ [] →
    (Ascending.keys fs).Nodup → ∀ count ≥ lss.length, ∀ seen : List String,
      (∀ k ∈ seen, k ∉ Ascending.keys fs) → Yields fails (fields value count seen)
        (separated (.sym .comma) lss ++ .sym .closeBrace :: ms) fs ms := by
  induction h with
  | nil => exact fun hne => absurd rfl hne
  | @cons f ls fs lss hf hfs ih =>
      intro _ hkeys count hcount seen hseen
      cases hf with
      | @intro k e l ls _ key behind =>
          obtain ⟨hk, hkeys⟩ := List.nodup_cons.mp hkeys
          have hfresh : seen.contains k = false := by
            rw [List.contains_eq_mem, decide_eq_false_iff_not]
            exact fun hin => hseen k hin List.mem_cons_self
          rw [List.length_cons] at hcount
          obtain ⟨count, rfl⟩ := Nat.exists_eq_add_one_of_ne_zero (n := count) (by omega)
          rw [separated, fields]
          simp only [List.cons_append]
          refine (key _).bind ?_
          rw [hfresh, if_neg Bool.false_ne_true]
          refine yields_expect.bind ?_
          -- Behind the value stands the closing brace, or a comma and another field.
          cases hfs with
          | nil =>
              rw [List.flatMap_nil, List.append_nil]
              exact (behind _ (.inr rfl)).bind (yields_eat.bind yields_pure)
          | @cons f' ls' fs lss hf' hfs =>
              have hls : ls ++ (ls' :: lss).flatMap (.sym .comma :: ·) ++ .sym .closeBrace :: ms =
                  ls ++ .sym .comma ::
                    (separated (.sym .comma) (ls' :: lss) ++ .sym .closeBrace :: ms) := by
                simp [separated]
              rw [hls]
              refine (behind _ (.inl rfl)).bind ?_
              refine (yields_eat_of_ne (by simp)).bind (yields_expect.bind ?_)
              refine (ih (List.cons_ne_nil _ _) hkeys count (by omega) (k :: seen) ?_).bind yields_pure
              intro k' hk'
              rcases List.mem_cons.mp hk' with rfl | hk'
              · exact hk
              · exact fun hin => hseen k' hk' (List.mem_cons_of_mem _ hin)

/-- Fields in braces are a record. -/
theorem yields_record (h : List.Forall₂ (FieldYields fails value) fs lss)
    (hkeys : (Ascending.keys fs).Nodup) : Yields fails (primary value) (.sym .openBrace ::
      (separated (.sym .comma) lss ++ .sym .closeBrace :: ms)) (.record fs) ms := by
  unfold primary
  refine yields_peek.bind (yields_advance.bind ?_)
  cases h with
  | nil => exact yields_eat.bind yields_pure
  | @cons f ls fs lss hf hfs =>
      have hne : ∀ f ls, FieldYields fails value f ls → ∃ l ls', ls = l :: ls' := by
        intro f ls h
        obtain ⟨l, ls', hls, -⟩ := h.exists_cons
        exact ⟨l, ls', hls⟩
      have hlen := length_separated (l := .sym .comma) (.cons hf hfs) hne
      obtain ⟨l, ls', rfl, hl⟩ := hf.exists_cons
      have hhead : (separated (.sym .comma) ((l :: ls') :: lss) ++
          .sym .closeBrace :: ms).head? ≠ some (.sym .closeBrace) := by
        simpa [separated] using hl
      refine (yields_eat_of_ne hhead).bind (yields_remaining.bind ?_)
      -- No key was seen so far.
      have hseen : ∀ k ∈ ([] : List String), k ∉ Ascending.keys (f :: fs) :=
        List.forall_mem_nil _
      refine (yields_fields (.cons hf hfs) (List.cons_ne_nil _ _) hkeys _ ?_ [] hseen).bind yields_pure
      rw [List.length_append]
      omega

/-- The fields of a record inside an expression. -/
theorem Inside.fields {e : Expr} (h : Inside e) {room k : Nat}
    (hdeep : Deep (room + 1) e k → fails) : (fs : List (String × Expr)) →
    (∀ f ∈ fs, ⟨0, 2, f.2⟩ ∈ e.placed) →
    List.Forall₂ (FieldYields fails (expr room)) fs (fieldLexemes fs)
  | [], _ => .nil
  | (k, x) :: fs, hplaced => by
      have hx := h.item (hplaced (k, x) List.mem_cons_self) .closeBrace hdeep rfl rfl
      exact .cons (.intro (keyLexeme_ne_sym k _) (fun _ => yields_keyLexeme k) hx.yields)
        (h.fields hdeep fs fun f hf => hplaced f (List.mem_cons_of_mem _ hf))

/-- Fields in braces stand alone. Their keys have to be distinct, as the reader refuses a key that
it has seen. -/
theorem members_record (h : Inside (.record fs)) (hkeys : (Ascending.keys fs).Nodup) :
    Members (.record fs) := by
  refine members_of_primary rfl fun fails room ms hdeep _ => ?_
  have hls : (Expr.record fs).lexemes ++ ms = .sym .openBrace ::
      (separated (.sym .comma) (fieldLexemes fs) ++ .sym .closeBrace :: ms) := by
    simp [lexemes]
  rw [hls]
  exact yields_record (h.fields hdeep fs fun f hf => List.mem_map.mpr ⟨f, hf, rfl⟩) hkeys

end records

/-! ### Whole expressions -/

/-- A literal is read wherever it can stand; a negative integer only where prefixes are. -/
theorem good_literal {l : Literal} (h : (Expr.lit l).isLegibleHere) : Good (.lit l) := by
  cases l with
  | bool b => exact .of_members (Nat.le_succ 7) (members_bool b)
  | string s => exact .of_members (Nat.le_succ 7) (members_string s)
  | entity u => exact .of_members (Nat.le_succ 7) (members_entity h)
  | long n =>
      by_cases hn : n.toInt < 0
      · exact .of_reads 6 (by simp [binding, hn]) (by simp [isChainLevel]) (Nat.le_refl 6)
          (reads_negative hn)
      · exact .of_members (by simp [binding, hn]) (members_natural hn)

/-- A binary operation is a link of a chain, a relation or a method. -/
theorem good_binary {op : BinaryOp} {a b : Expr} (h : Inside (.binary op a b)) :
    Good (.binary op a b) := by
  have relation (hop : relationOp? (some op.lexeme) = some op)
      (hbinding : binding (.binary op a b) = 3) : Good (.binary op a b) :=
    .of_reads 3 hbinding (by simp [isChainLevel]) (by decide) (reads_binary hop h)
  have method (hop : op.isMethod) (hbinding : binding (.binary op a b) = 7) :
      Good (.binary op a b) :=
    .of_members (Nat.le_of_eq hbinding.symm) (members_method hop h)
  cases op with
  | eq | notEq | less | lessEq | greater | greaterEq | mem => exact relation rfl rfl
  | contains | containsAll | containsAny => exact method rfl rfl
  | add => exact good_join joins_add h
  | sub => exact good_join joins_sub h
  | mul => exact good_join joins_mul h

/-- **An expression reads back** wherever it can stand. -/
theorem good {e : Expr} (h : e.Legible) : Good e := by
  induction e using induction_operands with
  | step e ih =>
      have inside : Inside e := fun p hp =>
        have hmem := mem_operands_of_mem_placed hp
        ⟨ih _ hmem (h.operand hmem), h.stands hp⟩
      cases e with
      | lit l => exact good_literal h.here
      | var v => exact .of_members (Nat.le_succ 7) (members_var v)
      | slot s => exact .of_members (Nat.le_succ 7) (members_slot s)
      | unary op a =>
          cases op with
          | not => exact .of_reads 6 rfl (by simp [isChainLevel]) (Nat.le_refl 6) (reads_not inside)
          | neg => exact .of_reads 6 rfl (by simp [isChainLevel]) (Nat.le_refl 6) (reads_neg inside)
          | isEmpty => exact .of_members (Nat.le_refl 7) (members_isEmpty inside)
      | binary op a b => exact good_binary inside
      | and a b => exact good_join joins_and inside
      | or a b => exact good_join joins_or inside
      | ite c a b => exact .of_reads 0 rfl (by simp [isChainLevel]) (by decide) (reads_ite inside)
      | getAttr a name => exact .of_members (Nat.le_refl 7) (members_getAttr name inside)
      | hasAttr a name =>
          exact .of_reads 3 rfl (by simp [isChainLevel]) (by decide) (reads_hasAttr name inside)
      | like a p =>
          exact .of_reads 3 rfl (by simp [isChainLevel]) (by decide) (reads_like p inside)
      | is a type =>
          exact .of_reads 3 rfl (by simp [isChainLevel]) (by decide) (reads_is type inside)
      | isMem a type g =>
          exact .of_reads 3 rfl (by simp [isChainLevel]) (by decide) (reads_isMem type inside)
      | set items => exact .of_members (Nat.le_succ 7) (members_set inside)
      | record fs =>
          exact .of_members (Nat.le_succ 7)
            (members_record inside (by simpa [isLegibleHere, isValidHere] using h.here))

/-- A legible expression is read where a full expression stands, unless it is too deep. -/
theorem yields_bounded {e : Expr} (h : e.Legible) (hfull : e.Full) (hdeep : e.TooDeep → fails)
    (hms : tightness ms.head? = 0) : Yields fails bounded (e.lexemes ++ ms) e ms := by
  have hreads := (good h).reads 0 (by decide) (hfull.stands 0)
  unfold bounded
  refine (hreads.full (fun hd => hdeep ?_) hms).bind ?_
  · rwa [need_of_le (Nat.zero_le _)] at hd
  · split
    · rename_i hdepth
      exact yields_fail (hdeep (.inr hdepth))
    · exact yields_pure

end AccessPolicy.Grammar
