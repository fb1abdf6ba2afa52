import AccessPolicy.Authorization.Options
import AccessPolicy.Proofs.Parse.Expr
import AccessPolicy.Proofs.Parse.Gives
import AccessPolicy.Proofs.Value.Literal

/-!
# Texts of values

* `Value.Printable v` — the entities in the value have valid types, and none of them begins with a
  word that would be read as a truth value or as a condition.
* `Value.lexemes v` — the tokens of the text of a value, which differ from those of its literal in
  that the keys of records are always in quotes. **The text spells them** (`Value.spells_chars`).
* **The tokens are read as the literal** (`Value.yields_lexemes`), with two levels of nesting for
  each set and each record around another value.
* So the text of a value is an expression for the value (`Value.eval_parse_text`).
-/

namespace AccessPolicy

open Grammar

/-! ### Sets and records as full expressions

A set or a record stands alone, and is read through all levels of binding as it is. This takes two
levels of nesting. -/

namespace Grammar

variable {fails : Prop} {room : Nat} {l : Lexeme} {ls ms : List Lexeme} {e : Expr}

/-- What stands alone is a full expression, if it begins with no prefix and with no condition, and
no operator or member follows. -/
theorem yields_expr_of_primary (hl : l ≠ .sym .bang ∧ l ≠ .sym .minus ∧ l ≠ .ident "if")
    (h : Yields fails (primary (expr room)) (l :: ls) e ms) (hms : tightness ms.head? = 0) :
    Yields fails (expr (room + 2)) (l :: ls) e ms := by
  obtain ⟨hbang, hminus, hif⟩ := hl
  have stop (least : Nat) (hleast : 0 < least) (operand : Parser Expr) :
      Yields fails (chain (operatorAt least) operand nestingLimit e) ms e ms :=
    yields_chain_stop (hms ▸ hleast)
  have hunary : Yields fails (unary (room + 1)) (l :: ls) e ms := by
    rw [unary]
    refine yields_peek.bind ?_
    split
    · rename_i heq
      exact absurd (Option.some.inj heq) hbang
    · rename_i heq
      exact absurd (Option.some.inj heq) hminus
    · exact h.bind (yields_members_stop (by omega))
  have hstop : Yields fails (relationRest (sums (room + 1)) e) ms e ms :=
    yields_relationRest_stop (by omega)
  have hproducts := hunary.bind (stop 5 (by decide) (unary (room + 1)))
  have hsums := hproducts.bind (stop 4 (by decide) (products (room + 1)))
  have hrelation := hsums.bind hstop
  have hconjunctions := hrelation.bind (stop 2 (by decide) (relation (sums (room + 1))))
  have hdisjunction := hconjunctions.bind (stop 1 (by decide) (conjunctions (room + 1)))
  rw [expr]
  exact (yields_eat_of_ne (by simpa using hif)).bind hdisjunction

/-- A literal is a full expression, if no operator or member follows. -/
theorem yields_literal {l : Literal} (h : (Expr.lit l).isPrintableHere) (hroom : 2 ≤ room)
    (hms : tightness ms.head? = 0) :
    Yields fails (expr room) (Expr.literalLexemes l ++ ms) (.lit l) ms := by
  have hfull : (Expr.lit l).Full :=
    Expr.Printable.full (by simpa [Expr.Printable, Expr.parts] using h)
  have hgood := good_literal (Expr.isLegibleHere_of_isPrintableHere h)
  refine (hgood.reads 0 (by decide) (hfull.stands 0)).full (fun hdeep => ?_) hms
  have hneed : Expr.need (.lit l) 0 = 1 := rfl
  have hdepth : (Expr.lit l).depth = 0 := rfl
  omega

end Grammar

namespace Value

/-! ### Tokens -/

mutual

/-- The tokens of the text of a value. -/
def lexemes : Value → List Lexeme
  | bool b => Expr.literalLexemes (.bool b)
  | long n => Expr.literalLexemes (.long n)
  | string s => Expr.literalLexemes (.string s)
  | entity u => Expr.literalLexemes (.entity u)
  | set items =>
    .sym .openBracket :: separated (.sym .comma) (itemLexemes items) ++ [.sym .closeBracket]
  | record fields =>
    .sym .openBrace :: separated (.sym .comma) (fieldLexemes fields) ++ [.sym .closeBrace]

/-- The tokens of each value of a list. -/
def itemLexemes : List Value → List (List Lexeme)
  | [] => []
  | v :: vs => lexemes v :: itemLexemes vs

/-- The tokens of each field of a list. -/
def fieldLexemes : List (String × Value) → List (List Lexeme)
  | [] => []
  | (k, v) :: fs => (Expr.quoted k :: .sym .colon :: lexemes v) :: fieldLexemes fs

end

theorem itemLexemes_eq_map (vs : List Value) : itemLexemes vs = vs.map lexemes := by
  induction vs with
  | nil => rfl
  | cons v vs ih => rw [itemLexemes, ih, List.map_cons]

theorem fieldLexemes_eq_map (fs : List (String × Value)) :
    fieldLexemes fs = fs.map fun f => Expr.quoted f.1 :: .sym .colon :: f.2.lexemes := by
  induction fs with
  | nil => rfl
  | cons f fs ih => rw [fieldLexemes, ih, List.map_cons]

/-- The tokens of a value begin an expression. -/
theorem opens_lexemes (v : Value) : Expr.Opens 0 v.lexemes := by
  have literal (l : Literal) : Expr.Opens 0 (Expr.literalLexemes l) :=
    (Expr.opens_lexemes (.lit l)).of_le (Nat.zero_le _)
  cases v with
  | bool b => exact literal (.bool b)
  | long n => exact literal (.long n)
  | string s => exact literal (.string s)
  | entity u => exact literal (.entity u)
  | set items | record fields =>
      rw [lexemes]
      exact ⟨_, _, 8, rfl, rfl, Nat.zero_le _⟩

/-! ### Printable values -/

/-- Whether a value is no entity, or one whose text stands for it. -/
def isPrintableHere : Value → Bool
  | entity u =>
    u.isValid && !List.contains ["true", "false", "if"] ((Name.segments u.type).headD "")
  | _ => true

/-- The text of a value stands for it. -/
def Printable (v : Value) : Prop :=
  ∀ p ∈ v.parts, p.isPrintableHere

instance (v : Value) : Decidable v.Printable :=
  inferInstanceAs (Decidable (∀ p ∈ v.parts, p.isPrintableHere))

/-- A printable value is printable apart from what is in it. -/
theorem Printable.here {v : Value} (h : v.Printable) : v.isPrintableHere :=
  h v v.self_mem_parts

/-- What is in a printable value is printable. -/
theorem Printable.member {v w : Value} (h : v.Printable) (hw : w ∈ v.members) : w.Printable :=
  fun p hp => h p (parts_subset_of_mem_members hw hp)

/-! ### Spelling -/

section spelling

variable {v : Value} {vs : List Value} {fs : List (String × Value)}

/-- What follows an item or a field is a comma or the closing symbol. -/
theorem apart_restItems (cs : List Char) (vs : List Value) : Apart cs (restItems vs) := by
  cases vs <;> rw [restItems] <;> exact apart_cons rfl

/-- Text keeps apart from the rest of a record, which begins with a comma or a brace. -/
theorem apart_restFields (cs : List Char) (fs : List (String × Value)) :
    Apart cs (restFields fs) := by
  cases fs <;> rw [restFields] <;> exact apart_cons rfl

/-- What begins an expression may stand behind an opening symbol. -/
theorem apart_of_opens {w cs : List Char} {ls : List Lexeme} (hw : Fresh w) (h : Spells cs ls)
    (hls : Expr.Opens 0 ls) : Apart w cs := by
  obtain ⟨l, ls, b, rfl, hl, -⟩ := hls
  have hne : l ≠ .sym .eqEq := by
    rintro rfl
    cases hl
  obtain ⟨c, cs, rfl, hc⟩ := h.exists_cons hne
  refine hw.apart fun d hd => ?_
  cases hd
  exact hc

/-- A key in quotes and the colon behind it. -/
theorem spells_key (k : String) {cs : List Char} {ls : List Lexeme} (h : Spells cs ls) :
    Spells ('"' :: Quoted.encode k.toList ++ '"' :: ':' :: ' ' :: cs)
      (Expr.quoted k :: .sym .colon :: ls) := by
  have hcolon := spells_symbol (s := .colon) (.blank (c := ' ') rfl h) (apart_cons rfl)
  have hkey := (spells_quoted k).append hcolon fun a ha c hc => ?_
  · simpa [Symbol.chars] using hkey
  · rw [Option.mem_def, List.getLast?_concat] at ha
    cases ha
    cases hc
    rfl

/-- The rest of a set spells its tokens if the items do. -/
theorem spells_restItems (h : ∀ v ∈ vs, Spells v.chars v.lexemes) :
    Spells (restItems vs) ((itemLexemes vs).flatMap (.sym .comma :: ·) ++ [.sym .closeBracket]) := by
  induction vs with
  | nil =>
      rw [restItems]
      exact (Lexeme.Writes.sym .closeBracket).spells
  | cons v vs ih =>
      obtain ⟨hv, hvs⟩ := List.forall_mem_cons.mp h
      have hitems := hv.append (ih hvs) (apart_restItems _ vs)
      have hcomma := spells_symbol (s := .comma) (.blank (c := ' ') rfl hitems) (apart_cons rfl)
      rw [restItems]
      simpa [itemLexemes, Symbol.chars] using hcomma

/-- The rest of a record spells its tokens if the values do. -/
theorem spells_restFields (h : ∀ f ∈ fs, Spells f.2.chars f.2.lexemes) :
    Spells (restFields fs) ((fieldLexemes fs).flatMap (.sym .comma :: ·) ++ [.sym .closeBrace]) := by
  induction fs with
  | nil =>
      rw [restFields]
      exact (Lexeme.Writes.sym .closeBrace).spells
  | cons f fs ih =>
      obtain ⟨hv, hfs⟩ := List.forall_mem_cons.mp h
      obtain ⟨k, v⟩ := f
      have hfields := spells_key k (hv.append (ih hfs) (apart_restFields _ fs))
      have hcomma := spells_symbol (s := .comma) (.blank (c := ' ') rfl hfields) (apart_cons rfl)
      rw [restFields]
      simpa [fieldLexemes, Symbol.chars] using hcomma

/-- A set spells its tokens if the items do. -/
theorem spells_set (h : ∀ v ∈ vs, Spells v.chars v.lexemes) :
    Spells (set vs).chars (set vs).lexemes := by
  cases vs with
  | nil =>
      exact spells_symbol (s := .openBracket) (Lexeme.Writes.sym .closeBracket).spells (by decide)
  | cons v vs =>
      obtain ⟨hv, hvs⟩ := List.forall_mem_cons.mp h
      have hitems := hv.append (spells_restItems hvs) (apart_restItems _ vs)
      have hset := spells_symbol (s := .openBracket) hitems
        (apart_of_opens (by decide) hitems (opens_lexemes v).append)
      rw [chars, lexemes]
      simpa [itemLexemes, separated, Symbol.chars] using hset

/-- A record spells its tokens if the values do. -/
theorem spells_record (h : ∀ f ∈ fs, Spells f.2.chars f.2.lexemes) :
    Spells (record fs).chars (record fs).lexemes := by
  cases fs with
  | nil => exact spells_symbol (s := .openBrace) (Lexeme.Writes.sym .closeBrace).spells (by decide)
  | cons f fs =>
      obtain ⟨hv, hfs⟩ := List.forall_mem_cons.mp h
      obtain ⟨k, v⟩ := f
      have hfields := spells_key k (hv.append (spells_restFields hfs) (apart_restFields _ fs))
      have hrecord := spells_symbol (s := .openBrace) hfields
        (apart_of_opens (by decide) hfields ⟨_, _, 8, rfl, rfl, Nat.zero_le _⟩)
      rw [chars, lexemes]
      simpa [fieldLexemes, separated, Symbol.chars] using hrecord

/-- **The text of a printable value spells its tokens.** -/
theorem spells_chars (h : v.Printable) : Spells v.chars v.lexemes := by
  have literal {l : Literal} (hl : (Expr.lit l).isPrintableHere) :
      Spells l.value.chars (Expr.literalLexemes l) := by
    have hvalid : (Expr.lit l).isValidHere :=
      Expr.isValidHere_of_isLegibleHere (Expr.isLegibleHere_of_isPrintableHere hl)
    simpa [Expr.literalText, text] using spells_literal hvalid
  induction v using Value.induct with
  | bool b => exact literal (l := .bool b) rfl
  | long n => exact literal (l := .long n) rfl
  | string s => exact literal (l := .string s) rfl
  | entity u => exact literal (l := .entity u) h.here
  | set items ih => exact spells_set fun v hv => ih v hv (h.member hv)
  | record fields ih => exact spells_record fun f hf => ih f hf (h.member (List.mem_map_of_mem hf))

end spelling

/-! ### Reading -/

section reading

variable {fails : Prop} {ms : List Lexeme}

/-- A value inside brackets or braces. -/
theorem item_of_yields {v : Value} {value : Parser Expr} (close : Symbol)
    (hopens : Expr.opens (.sym close) = none) (htight : tightness (some (.sym close)) = 0)
    (h : ∀ {ms}, tightness ms.head? = 0 → Yields fails value (v.lexemes ++ ms) v.literal ms) :
    ItemYields fails close value v.literal v.lexemes := by
  constructor
  · obtain ⟨l, ls, b, hls, hl, -⟩ := opens_lexemes v
    refine ⟨l, ls, hls, ?_⟩
    rintro rfl
    cases hopens.symm.trans hl
  · intro ms hms
    refine h ?_
    rcases hms with hms | hms
    · rw [hms]
      rfl
    · rw [hms, htight]

/-- **The tokens of a value are read as its literal**, if there are two levels of nesting for each
of its levels and two for what stands innermost. -/
theorem yields_lexemes {v : Value} (hcanonical : v.Canonical) (hprintable : v.Printable) {room : Nat}
    (hroom : 2 * v.levels + 2 ≤ room) (hms : tightness ms.head? = 0) :
    Yields fails (expr room) (v.lexemes ++ ms) v.literal ms := by
  induction v using Value.induct generalizing room ms with
  | bool b => exact yields_literal (l := .bool b) rfl hroom hms
  | long n => exact yields_literal (l := .long n) rfl hroom hms
  | string s => exact yields_literal (l := .string s) rfl hroom hms
  | entity u => exact yields_literal (l := .entity u) hprintable.here hroom hms
  | set items ih =>
      obtain ⟨room, rfl⟩ := Nat.exists_eq_add_of_le' (Nat.le_of_add_left_le hroom)
      have hitems : List.Forall₂ (ItemYields fails .closeBracket (expr room)) (items.map literal)
          (items.map lexemes) := by
        rw [List.forall₂_map_left_iff, List.forall₂_map_right_iff, List.forall₂_same]
        intro w hw
        -- An item has a level less than the set, which leaves it two levels of nesting.
        have hlevels : w.levels < (set items).levels := levels_lt_of_mem_members hw
        exact item_of_yields .closeBracket rfl rfl fun hms =>
          ih w hw (hcanonical.member hw) (hprintable.member hw) (by omega) hms
      have hset := yields_expr_of_primary (by simp) (yields_set hitems) hms
      rw [literal, lexemes, literalItems_eq_map, itemLexemes_eq_map]
      simpa using hset
  | record fields ih =>
      obtain ⟨room, rfl⟩ := Nat.exists_eq_add_of_le' (Nat.le_of_add_left_le hroom)
      have hfields : List.Forall₂ (FieldYields fails (expr room))
          (fields.map fun f => (f.1, f.2.literal))
          (fields.map fun f => Expr.quoted f.1 :: .sym .colon :: f.2.lexemes) := by
        rw [List.forall₂_map_left_iff, List.forall₂_map_right_iff, List.forall₂_same]
        intro f hf
        have hmem : f.2 ∈ (record fields).members := List.mem_map_of_mem hf
        have hlevels : f.2.levels < (record fields).levels := levels_lt_of_mem_members hmem
        have hvalue : ItemYields fails .closeBrace (expr room) f.2.literal f.2.lexemes :=
          item_of_yields .closeBrace rfl rfl fun hms =>
            ih f hf (hcanonical.member hmem) (hprintable.member hmem) (by omega) hms
        exact .intro (by simp [Expr.quoted]) (fun _ => yields_name_quoted f.1) hvalue.yields
      have hkeys : (Ascending.keys (fields.map fun f => (f.1, f.2.literal))).Nodup := by
        rw [Ascending.keys, List.map_map]
        exact hcanonical.sorted_record.nodup
      have hrecord := yields_expr_of_primary (by simp) (yields_record hfields hkeys) hms
      rw [literal, lexemes, literalFields_eq_map, fieldLexemes_eq_map]
      simpa using hrecord

end reading

/-! ### Texts -/

/-- **The text of a value is read as its literal**, with up to 127 sets and records one inside the
other. -/
theorem parse_text {v : Value} (hcanonical : v.Canonical) (hprintable : v.Printable)
    (hlevels : v.levels ≤ 127) : Expr.parse v.text = .ok v.literal := by
  have hlimit : nestingLimit = 256 := rfl
  have hspells : Spells v.text.toList v.lexemes := by
    rw [text, String.toList_ofList]
    exact spells_chars hprintable
  have hexpr : Yields False (expr nestingLimit) (v.lexemes ++ []) v.literal [] :=
    yields_lexemes hcanonical hprintable (by omega) rfl
  have hbounded : Yields False bounded v.lexemes v.literal [] := by
    rw [List.append_nil] at hexpr
    unfold bounded
    refine hexpr.bind ?_
    have hdepth := depth_literal_le v
    rw [if_neg (by omega)]
    exact yields_pure
  exact (readAll_of_gives _ hspells hbounded.gives).resolve_right fun hfails => hfails.1

/-- **The text of a value is an expression for the value**: it is read, and what is read comes to
the value in every environment, under the standard limit. -/
theorem eval_parse_text {v : Value} (hcanonical : v.Canonical) (hprintable : v.Printable)
    (hlevels : v.levels ≤ 127) : ∃ e, Expr.parse v.text = .ok e ∧
      ∀ env, e.eval env AuthorizerOptions.standard.depth = .ok v := by
  refine ⟨v.literal, parse_text hcanonical hprintable hlevels, fun env => ?_⟩
  have hlimit : AuthorizerOptions.standard.depth = 256 := rfl
  have hdepth := depth_literal_le v
  exact (means_literal hcanonical).eval env (by omega)

/-- A record with a key that is a word of the language, around a set with the least integer and an
entity whose id has a quote in it. -/
theorem eval_parse_text_settings :
    let least : Long := ⟨-9223372036854775808, by decide, by decide⟩
    let owners : Value := .set [.long least, .entity ⟨"App::User", "a\"\\*"⟩]
    let v : Value := .record [("", .record []), ("if", owners), ("log in", .set [])]
    v.Canonical ∧ v.Printable ∧ v.levels = 2 ∧ ∃ e, Expr.parse v.text = .ok e ∧
      ∀ env, e.eval env AuthorizerOptions.standard.depth = .ok v := by
  intro least owners v
  have hcanonical : v.Canonical := by decide +kernel
  have hprintable : v.Printable := by decide +kernel
  have hlevels : v.levels = 2 := rfl
  exact ⟨hcanonical, hprintable, hlevels, eval_parse_text hcanonical hprintable (by omega)⟩

end Value

end AccessPolicy
