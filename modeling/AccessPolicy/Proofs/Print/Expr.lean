import AccessPolicy.Policy.Print
import AccessPolicy.Proofs.Expr.Parts
import AccessPolicy.Proofs.Layout.Adds
import AccessPolicy.Proofs.Text.Name

/-!
# The tokens of printed expressions

* `Expr.Printable` — the parts of an expression have a text that stands for them: type names are
  paths of identifiers, the keys of a record are distinct, and no entity begins with a word that
  would be read as a truth value or as a condition.
* `Expr.lexemes e` — the tokens of an expression, with the parentheses that its parts need.
* **The document of an expression spells its tokens in every layout** (`Expr.adds_docIn`), whether
  it stands alone or begins a chain. `Expr.DocAdds` says this of one expression, and there is a
  lemma for each constructor that takes it there from the operands.
-/

namespace AccessPolicy

open Grammar

/-! ### Tokens

The tokens are defined along the expression and without a document, so that the reading of them is
proved without a mention of layouts. What binds less tightly than its place asks for is wrapped in
parentheses. -/

/-- The token of a binary operation; a method has its name. -/
def BinaryOp.lexeme : BinaryOp → Lexeme
  | eq => .sym .eqEq
  | notEq => .sym .notEq
  | less => .sym .less
  | lessEq => .sym .lessEq
  | greater => .sym .greater
  | greaterEq => .sym .greaterEq
  | add => .sym .plus
  | sub => .sym .minus
  | mul => .sym .star
  | op => .ident op.symbol

/-- The word of a slot behind its question mark. -/
def Slot.word : Slot → String
  | principal => "principal"
  | resource => "resource"

/-- The tokens of a slot. -/
def Slot.lexemes (s : Slot) : List Lexeme :=
  [.sym .question, .ident s.word]

namespace Expr

/-- The token of a text in quotes. -/
def quoted (s : String) : Lexeme :=
  .str (String.ofList (Quoted.encode s.toList))

/-- The tokens of a literal. -/
def literalLexemes : Literal → List Lexeme
  | .bool b => [.ident (if b then "true" else "false")]
  | .long n =>
    if n.toInt < 0 then [.sym .minus, .int n.toInt.natAbs] else [.int n.toInt.natAbs]
  | .string s => [quoted s]
  | .entity u => u.lexemes

/-- Tokens in parentheses. -/
def inParens (ls : List Lexeme) : List Lexeme :=
  .sym .openParen :: ls ++ [.sym .closeParen]

/-- Tokens in parentheses, if their binding is below what their place asks for. -/
def wrapped (binding least : Nat) (ls : List Lexeme) : List Lexeme :=
  if binding < least then inParens ls else ls

/-- The tokens of the access to an attribute. -/
def accessLexemes (name : String) : List Lexeme :=
  if isBareAttr name then [.sym .dot, .ident name]
  else [.sym .openBracket, quoted name, .sym .closeBracket]

/-- The token of the name of an attribute. -/
def attrLexeme (name : String) : Lexeme :=
  if isBareAttr name then .ident name else quoted name

/-- The token of the key of a field. -/
def keyLexeme (name : String) : Lexeme :=
  if Name.isIdent name then .ident name else quoted name

mutual

/-- The tokens of an expression. -/
def lexemes : Expr → List Lexeme
  | lit l => literalLexemes l
  | var v => [.ident v.name]
  | slot s => s.lexemes
  | unary .not e => .sym .bang :: wrapped e.binding 6 (lexemes e)
  | unary .neg e =>
    .sym .minus ::
      if startsWithDigit e then inParens (lexemes e) else wrapped e.binding 6 (lexemes e)
  | unary .isEmpty e =>
    wrapped e.binding 7 (lexemes e) ++
      [.sym .dot, .ident "isEmpty", .sym .openParen, .sym .closeParen]
  | binary op a b =>
    if op.isMethod then
      wrapped a.binding 7 (lexemes a) ++
        .sym .dot :: .ident op.symbol :: .sym .openParen :: lexemes b ++ [.sym .closeParen]
    else
      wrapped a.binding (operandBinding op).1 (lexemes a) ++
        op.lexeme :: wrapped b.binding (operandBinding op).2 (lexemes b)
  | and a b =>
    wrapped a.binding 2 (lexemes a) ++ .sym .andAnd :: wrapped b.binding 3 (lexemes b)
  | or a b => wrapped a.binding 1 (lexemes a) ++ .sym .orOr :: wrapped b.binding 2 (lexemes b)
  | ite c t e =>
    .ident "if" :: lexemes c ++ .ident "then" :: lexemes t ++ .ident "else" :: lexemes e
  | getAttr e n => wrapped e.binding 7 (lexemes e) ++ accessLexemes n
  | hasAttr e n => wrapped e.binding 4 (lexemes e) ++ [.ident "has", attrLexeme n]
  | like e p =>
    wrapped e.binding 4 (lexemes e) ++
      [.ident "like", .str (String.ofList (Quoted.encodePattern p))]
  | is e t => wrapped e.binding 4 (lexemes e) ++ .ident "is" :: Name.lexemes t
  | isMem e t g =>
    wrapped e.binding 4 (lexemes e) ++ .ident "is" :: Name.lexemes t ++
      .ident "in" :: wrapped g.binding 4 (lexemes g)
  | set items =>
    .sym .openBracket :: separated (.sym .comma) (itemLexemes items) ++ [.sym .closeBracket]
  | record fields =>
    .sym .openBrace :: separated (.sym .comma) (fieldLexemes fields) ++ [.sym .closeBrace]

/-- The tokens of each expression of a list. -/
def itemLexemes : List Expr → List (List Lexeme)
  | [] => []
  | e :: es => lexemes e :: itemLexemes es

/-- The tokens of each field of a list. -/
def fieldLexemes : List (String × Expr) → List (List Lexeme)
  | [] => []
  | (k, e) :: fs => (keyLexeme k :: .sym .colon :: lexemes e) :: fieldLexemes fs

end

/-- The token of an operator stands between the tokens of its operands, each in the parentheses that
it needs. -/
theorem lexemes_operator {op : BinaryOp} (hop : op.isMethod = false) (a b : Expr) :
    (binary op a b).lexemes = wrapped a.binding (operandBinding op).1 a.lexemes ++
      op.lexeme :: wrapped b.binding (operandBinding op).2 b.lexemes := by
  rw [lexemes, if_neg (by simp [hop])]

/-! ### Printable expressions -/

/-- What an expression needs for its text to stand for it, apart from its operands. -/
def isPrintableHere : Expr → Bool
  | lit (.entity u) =>
    u.isValid && !List.contains ["true", "false", "if"] ((Name.segments u.type).headD "")
  | is _ t | isMem _ t _ => Name.isTypeName t
  | record fields => decide (Ascending.keys fields).Nodup
  | _ => true

/-- The text of an expression stands for it. -/
def Printable (e : Expr) : Prop :=
  ∀ p ∈ e.parts, p.isPrintableHere

instance (e : Expr) : Decidable e.Printable :=
  inferInstanceAs (Decidable (∀ p ∈ e.parts, p.isPrintableHere))

/-- A printable expression is printable apart from its operands. -/
theorem Printable.here {e : Expr} (h : e.Printable) : e.isPrintableHere :=
  h e e.self_mem_parts

/-- The operands of a printable expression are printable. -/
theorem Printable.operand {e p : Expr} (h : e.Printable) (hp : p ∈ e.operands) : p.Printable :=
  fun q hq => h q (parts_subset_of_mem_operands hp hq)

end Expr

/-! ### Texts -/

section texts

open Lexeme

/-- A symbol in front of a text adds its token, if it does not run into what follows. -/
theorem spells_symbol {s : Symbol} {cs : List Char} {ls : List Lexeme} (h : Spells cs ls)
    (seam : Apart s.chars cs) : Spells (s.chars ++ cs) (.sym s :: ls) :=
  .lexeme (.sym s) seam h

/-- A word in front of a text adds its token, if it does not run into what follows. -/
theorem spells_word {w : String} {cs : List Char} {ls : List Lexeme} (h : Spells cs ls)
    (hw : Name.isIdent w) (seam : Apart w.toList cs) :
    Spells (w.toList ++ cs) (.ident w :: ls) :=
  .lexeme (.ident hw) seam h

/-- A text in quotes is one token. -/
theorem spells_quoted (s : String) :
    Spells ('"' :: Quoted.encode s.toList ++ ['"']) [Expr.quoted s] :=
  (Writes.str (Quoted.inert_encode s.toList)).spells

/-- A uid is the tokens of its type and of its id. -/
theorem Uid.spells {u : Uid} (h : u.isValid) : Spells u.chars u.lexemes := by
  have colons := spells_symbol (s := .pathSep) (spells_quoted u.id) (apart_cons rfl)
  have := (Name.spells_lexemes h).append colons fun a ha c hc => apart_of_isRest ?_
  · simpa [chars, lexemes, Symbol.chars, Expr.quoted] using this
  · cases hc
    rw [Name.isRest_getLast h a ha]
    decide

/-- A word between blanks. -/
theorem spells_keyword {w : String} {cs : List Char} {ls : List Lexeme} (h : Spells cs ls)
    (hw : Name.isIdent w) : Spells (' ' :: (w.toList ++ ' ' :: cs)) (.ident w :: ls) :=
  .blank rfl (spells_word (.blank rfl h) hw (apart_cons rfl))

/-- An attribute behind `has` is spelt in the form that it needs. -/
theorem spells_attrText (name : String) :
    Spells (Expr.attrText name).toList [Expr.attrLexeme name] := by
  unfold Expr.attrText Expr.attrLexeme
  split
  · rename_i h
    simp only [isBareAttr, Bool.and_eq_true] at h
    exact (Writes.ident h.1).spells
  · simpa [Quoted.quote] using spells_quoted name

/-- The key of a field is no symbol, so that it is never taken for the end of a record. -/
theorem Expr.keyLexeme_ne_sym (name : String) (s : Symbol) : Expr.keyLexeme name ≠ .sym s := by
  unfold Expr.keyLexeme Expr.quoted
  split <;> nofun

/-- A key of a record is one token. -/
theorem spells_keyText (name : String) :
    Spells (Expr.keyText name).toList [Expr.keyLexeme name] := by
  unfold Expr.keyText Expr.keyLexeme
  split
  · rename_i h
    exact (Writes.ident h).spells
  · simpa [Quoted.quote] using spells_quoted name

/-- The key of a field ends in a character of an identifier or in a quote, and a colon runs into
neither. -/
theorem getLast?_keyText (name : String) :
    ∀ a ∈ (Expr.keyText name).toList.getLast?, Name.isRest a ∨ a = '"' := by
  intro a ha
  unfold Expr.keyText at ha
  split at ha
  · rename_i h
    exact .inl (Name.isRest_of_isIdentChars h a (List.mem_of_getLast? ha))
  · have hq : (Quoted.quote name).toList = '"' :: Quoted.encode name.toList ++ ['"'] := by
      simp [Quoted.quote]
    rw [hq, Option.mem_def, List.getLast?_concat] at ha
    cases ha
    exact .inr rfl

/-- A key and the colon behind it. -/
theorem spells_keyText_colon (name : String) {cs : List Char} {ls : List Lexeme}
    (h : Spells cs ls) (seam : Apart [':'] cs) :
    Spells ((Expr.keyText name).toList ++ ':' :: cs) (Expr.keyLexeme name :: .sym .colon :: ls) := by
  have hcolon := spells_symbol (s := .colon) h seam
  refine (spells_keyText name).append hcolon fun a ha c hc => ?_
  cases hc
  rcases getLast?_keyText name a ha with hrest | rfl
  · refine apart_of_isRest ?_
    rw [hrest]
    decide
  · rfl

/-- The digits of a 64-bit integer are an integer of the scanner, whose bound is twice as high. -/
theorem Long.natAbs_lt (n : Long) : n.toInt.natAbs < 18446744073709551616 := by
  have h1 := n.le_toInt
  have h2 := n.toInt_lt
  omega

/-- An integer is written in decimal digits, behind a minus sign if it is negative. -/
theorem Long.toList_text (n : Long) :
    n.text.toList =
      if n.toInt < 0 then '-' :: Nat.toDigits 10 n.toInt.natAbs
      else Nat.toDigits 10 n.toInt.natAbs := by
  obtain ⟨i, h1, h2⟩ := n
  cases i with
  | ofNat m => simp [text, toString, Int.repr]
  | negSucc m => simp [text, toString, Int.repr, Int.negSucc_lt_zero]

/-- The text of a literal is its tokens. -/
theorem spells_literal {l : Literal} (h : (Expr.lit l).isValidHere) :
    Spells (Expr.literalText l).toList (Expr.literalLexemes l) := by
  rw [Expr.literalText, Value.text, String.toList_ofList]
  cases l with
  | bool b =>
      cases b
      · exact (Writes.ident (w := "false") (by decide)).spells
      · exact (Writes.ident (w := "true") (by decide)).spells
  | long n =>
      rw [Literal.value, Value.chars, Long.toList_text, Expr.literalLexemes]
      split
      · refine spells_symbol (s := .minus) (Writes.int n.natAbs_lt).spells ?_
        exact Fresh.apart (by decide) fun c hc => by
          have := Nat.isDigit_of_mem_toDigits (by decide) (by decide) (List.mem_of_mem_head? hc)
          rintro rfl
          exact absurd this (by decide)
      · exact (Writes.int n.natAbs_lt).spells
  | string s => exact spells_quoted s
  | entity u => exact Uid.spells h

end texts

/-! ### Documents

A document adds tokens to a page whatever the layout makes of its lines. In front of some of them it
matters what stands on the page, for two tokens must not run into each other. -/

section documents

open Doc

/-- A symbol that anything may stand beside. -/
theorem adds_symbol {s : Symbol} {text : String} {c : Char} (hs : s.chars = [c])
    (ht : text.toList = [c]) (hopen : isOpener c) (hclose : isCloser c) :
    Adds false true (.text text) [.sym s] := by
  refine .text ht ?_ hclose fun _ a ha => ?_
  · rw [← hs]
    exact (Lexeme.Writes.sym s).spells
  · cases ha
    exact hopen

/-- A word with a blank behind it. -/
theorem adds_word {w t : String} (ht : t.toList = w.toList ++ [' ']) (hword : Name.isIdent w) :
    Adds true true (.text t) [.ident w] := by
  obtain ⟨c, cs, hw, hc⟩ := Name.isStart_of_isIdentChars hword
  have hne : c ≠ '=' := by
    rintro rfl
    exact absurd hc (by decide)
  have htext : t.toList = c :: (cs ++ [' ']) := by
    rw [ht, hw]
    rfl
  refine .text htext ?_ hne fun _ =>
    fresh_concat (c :: cs) rfl
  have := spells_word (.blank (c := ' ') rfl .nil) hword (apart_cons rfl)
  rwa [hw] at this

/-- A text behind a blank. -/
theorem adds_blank {text : String} (cs : List Char) {ls : List Lexeme}
    (ht : text.toList = ' ' :: cs) (h : Spells (' ' :: cs) ls) :
    Adds false false (.text text) ls :=
  .text ht h rfl nofun

/-- A text that begins with a lexeme other than `==`. -/
theorem adds_lexemes {text : String} {l : Lexeme} {ls : List Lexeme}
    (h : Spells text.toList (l :: ls)) (hl : l ≠ .sym .eqEq) :
    Adds true false (.text text) (l :: ls) := by
  obtain ⟨c, cs, hc, hne⟩ := h.exists_cons hl
  exact .text hc (hc ▸ h) hne nofun

/-- A literal adds its token, or two of them if it is negative. -/
theorem adds_literal {l : Literal} (h : (Expr.lit l).isValidHere) :
    Adds true false (.text (Expr.literalText l)) (Expr.literalLexemes l) := by
  have hs := spells_literal h
  cases l with
  | bool b => exact adds_lexemes hs (by simp)
  | string s => exact adds_lexemes hs (by simp [Expr.quoted])
  | long n =>
      simp only [Expr.literalLexemes] at hs ⊢
      split at hs
      · rename_i hn
        rw [if_pos hn]
        exact adds_lexemes hs (by simp)
      · rename_i hn
        rw [if_neg hn]
        exact adds_lexemes hs (by simp)
  | entity u =>
      obtain ⟨s, ss, -, hl⟩ := Name.lexemes_eq_cons u.type
      simp only [Expr.literalLexemes, Uid.lexemes, hl] at hs ⊢
      exact adds_lexemes hs (by simp)

/-- A binary operator between blanks. -/
theorem adds_operator {op : BinaryOp} (h : op.isMethod = false) :
    Adds false true (.text (" " ++ op.symbol ++ " ")) [op.lexeme] := by
  have hs : Spells (' ' :: (op.symbol.toList ++ [' '])) [op.lexeme] := by
    refine .blank rfl ?_
    have blank : Spells [' '] [] := .blank rfl .nil
    by_cases hmem : op = .mem
    · subst hmem
      exact spells_word (w := "in") blank (by decide) (by decide)
    · obtain ⟨s, hl, hs⟩ : ∃ s, op.lexeme = .sym s ∧ op.symbol.toList = Symbol.chars s := by
        cases op <;> first | exact ⟨_, rfl, rfl⟩ | contradiction
      rw [hl, hs]
      exact spells_symbol blank (apart_cons rfl)
  exact .text (by simp) hs rfl fun _ => fresh_concat (' ' :: op.symbol.toList) rfl

/-- The name of a method with the parenthesis before its argument. -/
theorem adds_method {op : BinaryOp} (h : op.isMethod) :
    Adds false true (.text ("." ++ op.symbol ++ "("))
      [.sym .dot, .ident op.symbol, .sym .openParen] := by
  have hop : Name.isIdent op.symbol := by
    cases op <;> first | decide | cases h
  have hs : Spells (Symbol.dot.chars ++ (op.symbol.toList ++ ['(']))
      [.sym .dot, .ident op.symbol, .sym .openParen] := by
    refine spells_symbol (spells_word (Lexeme.Writes.sym .openParen).spells hop (apart_cons rfl)) ?_
    cases op <;> decide
  exact .text (by simp) hs rfl fun _ => fresh_concat ('.' :: op.symbol.toList) rfl

/-- An access adds two tokens or three, the last of which may be continued by a letter. -/
theorem adds_access (name : String) :
    Adds false false (.text (Expr.accessText name)) (Expr.accessLexemes name) := by
  unfold Expr.accessText Expr.accessLexemes
  split
  · rename_i h
    simp only [isBareAttr, Bool.and_eq_true] at h
    have seam : Apart Symbol.dot.chars name.toList := by
      obtain ⟨c, cs, hc, hstart⟩ := Name.isStart_of_isIdentChars h.1
      rw [hc]
      refine Fresh.apart (by decide) fun d hd => ?_
      cases hd
      rintro rfl
      exact absurd hstart (by decide)
    exact .text (by simp) (spells_symbol (Lexeme.Writes.ident h.1).spells seam) rfl nofun
  · have hs := spells_symbol (s := .openBracket)
      ((spells_quoted name).append (Lexeme.Writes.sym .closeBracket).spells (apart_cons rfl))
      (apart_cons rfl)
    exact .text (by simp [Quoted.quote, Symbol.chars]) hs rfl nofun

/-- A slot is a question mark and a word. -/
theorem adds_slot (s : Slot) : Adds true false (.text s.name) s.lexemes := by
  cases s
  · exact adds_lexemes (spells_symbol (s := .question)
      (Lexeme.Writes.ident (w := "principal") (by decide)).spells (by decide)) nofun
  · exact adds_lexemes (spells_symbol (s := .question)
      (Lexeme.Writes.ident (w := "resource") (by decide)).spells (by decide)) nofun

/-- The one method without an argument, with its parentheses. -/
theorem adds_isEmpty : Adds false true (.text ".isEmpty()")
    [.sym .dot, .ident "isEmpty", .sym .openParen, .sym .closeParen] := by
  have parens := spells_symbol (s := .openParen) (Lexeme.Writes.sym .closeParen).spells (by decide)
  have word := spells_word (w := "isEmpty") parens (by decide) (by decide)
  exact .text rfl (spells_symbol (s := .dot) word (by decide)) rfl fun _ => by decide

/-- The blank in front keeps the word apart from what is tested. -/
theorem adds_has (name : String) : Adds false false (.text (" has " ++ Expr.attrText name))
    [.ident "has", Expr.attrLexeme name] := by
  refine adds_blank ("has".toList ++ ' ' :: (Expr.attrText name).toList) (by simp) ?_
  exact spells_keyword (spells_attrText name) (by decide)

/-- The same for the word in front of a pattern. -/
theorem adds_like (p : List Glob) :
    Adds false false (.text (" like \"" ++ String.ofList (Quoted.encodePattern p) ++ "\""))
      [.ident "like", .str (String.ofList (Quoted.encodePattern p))] := by
  refine adds_blank ("like".toList ++ ' ' :: ('"' :: Quoted.encodePattern p ++ ['"']))
    (by simp) ?_
  exact spells_keyword (Lexeme.Writes.str (Quoted.inert_encodePattern p)).spells (by decide)

/-- With a blank behind the word as well, the page is left fresh. -/
theorem adds_in : Adds false true (.text " in ") [.ident "in"] := by
  refine .text rfl ?_ rfl fun _ => by decide
  exact spells_keyword .nil (w := "in") (by decide)

/-- A key with its colon leaves the page fresh for the value. -/
theorem adds_key (name : String) : Adds true true (.text (Expr.keyText name ++ ": "))
    [Expr.keyLexeme name, .sym .colon] := by
  have hs : Spells (Expr.keyText name ++ ": ").toList [Expr.keyLexeme name, .sym .colon] := by
    rw [String.toList_append]
    exact spells_keyText_colon name (.blank rfl .nil) (by decide)
  obtain ⟨c, cs, hc, hne⟩ := hs.exists_cons (Expr.keyLexeme_ne_sym name _)
  refine .text hc (hc ▸ hs) hne fun _ => ?_
  have hlast : (Expr.keyText name ++ ": ").toList = (Expr.keyText name ++ ":").toList ++ [' '] := by
    simp
  rw [← hc, hlast]
  exact fresh_concat _ rfl

/-- The type of a test stands behind the word. -/
theorem adds_is {type : String} (h : Name.isTypeName type) :
    Adds false false (.text (" is " ++ type)) (.ident "is" :: Name.lexemes type) := by
  refine adds_blank ("is".toList ++ ' ' :: type.toList) (by simp) ?_
  exact spells_keyword (Name.spells_lexemes h) (by decide)

/-- Parentheses add their tokens, and inside of them the page is fresh. -/
theorem adds_parens {d : Doc} {ls : List Lexeme} (h : Adds true false d ls) :
    Adds true false (Expr.parens d) (Expr.inParens ls) := by
  have opening : Adds false true (.text "(") [.sym .openParen] := adds_symbol rfl rfl rfl rfl
  have closing : Adds false true (.text ")") [.sym .closeParen] := adds_symbol rfl rfl rfl rfl
  have all := (opening.anywhere true).append (h.append (closing.forget.append .empty))
  exact all.of_eq (by simp [Expr.inParens])

/-- **An operand adds its tokens** with parentheses around them exactly where the tokens have
them. -/
theorem adds_wrap {binding least : Nat} {d : Doc} {ls : List Lexeme} (h : Adds true false d ls) :
    Adds true false (Expr.wrap binding least d) (Expr.wrapped binding least ls) := by
  unfold Expr.wrap Expr.wrapped
  split
  · exact adds_parens h
  · exact h

/-- Items in brackets. -/
theorem adds_bracketed (indent : Nat) {opening closing : String} {l l' : Lexeme} {ds : List Doc}
    {lss : List (List Lexeme)} (hopen : Adds false true (.text opening) [l])
    (hclose : Adds false true (.text closing) [l'])
    (h : List.Forall₂ (Adds true false) ds lss) :
    Adds true true (Expr.bracketed indent opening ds closing)
      (l :: separated (.sym .comma) lss ++ [l']) := by
  have comma : Adds false true (.text ",") [.sym .comma] := adds_symbol rfl rfl rfl rfl
  have space : Adds true true line [] := .line
  have soft : Adds true true softLine [] := .softLine
  have items := Adds.join (comma.append (space.append .empty)) h
  have inner := soft.append (items.append .empty)
  have all := (hopen.anywhere true).append ((inner.nest indent).append
    (Adds.softLine.append (hclose.append .empty)))
  exact all.group.of_eq (by simp)

end documents

/-! ### Chains -/

namespace Expr

open Doc

/-- The documents of the other operands of a chain, and the tokens of the whole, given the binding
and the tokens of its first operand. -/
inductive Chain.Adds : Chain → (Nat → List Lexeme → List Lexeme) → Prop
  | none : Chain.Adds .none fun _ ls => ls
  | and {ds : List Doc} {lss : List (List Lexeme)} (h : List.Forall₂ (Doc.Adds true false) ds lss) :
      Chain.Adds (.and ds) fun b ls => separated (.sym .andAnd) (wrapped b 2 ls :: lss)
  | or {ds : List Doc} {lss : List (List Lexeme)} (h : List.Forall₂ (Doc.Adds true false) ds lss) :
      Chain.Adds (.or ds) fun b ls => separated (.sym .orOr) (wrapped b 1 ls :: lss)

/-- The operands of a chain are separated by their operator, with a line that may be broken behind
it. -/
theorem adds_chainDoc {symbol : String} {l : Lexeme} {ds : List Doc} {lss : List (List Lexeme)}
    (hl : Doc.Adds false false (.text (" " ++ symbol)) [l])
    (h : List.Forall₂ (Doc.Adds true false) ds lss) :
    Doc.Adds true false (chainDoc symbol ds) (separated l lss) :=
  (Adds.join (hl.append (Adds.line.append .empty)) h).group

/-- Whatever the chain, an expression in front of it spells the first operand of the whole. -/
theorem Chain.Adds.finish {chain : Chain} {f : Nat → List Lexeme → List Lexeme}
    (hc : chain.Adds f) {d : Doc} {ls : List Lexeme} {binding : Nat}
    (h : Doc.Adds true false d ls) : Doc.Adds true false (chain.finish binding d) (f binding ls) := by
  cases hc with
  | none => exact h
  | and hs =>
      refine adds_chainDoc (adds_blank _ rfl ?_) (.cons (adds_wrap h) hs)
      exact .blank rfl (Lexeme.Writes.sym .andAnd).spells
  | or hs =>
      refine adds_chainDoc (adds_blank _ rfl ?_) (.cons (adds_wrap h) hs)
      exact .blank rfl (Lexeme.Writes.sym .orOr).spells

/-- The document of an expression spells its tokens in every layout, whatever chain the expression
begins. An induction on expressions takes this from operands to expressions, with a lemma for each
constructor: nearly all of them stand alone and leave the chain to `Chain.Adds.finish`; only `&&`
and `||` hand a longer chain down to their first operand. -/
def DocAdds (indent : Nat) (e : Expr) : Prop :=
  ∀ (chain : Chain) (f : Nat → List Lexeme → List Lexeme), chain.Adds f →
    Doc.Adds true false (docIn indent e chain) (f e.binding e.lexemes)

section constructors

variable {indent : Nat} {a b c e g t : Expr}

/-- An expression that begins no chain. -/
theorem DocAdds.alone (h : e.DocAdds indent) :
    Doc.Adds true false (docIn indent e .none) e.lexemes :=
  h _ _ .none

/-- An expression that begins no chain, in a place for operands that bind at least so much. -/
theorem DocAdds.wrap (h : e.DocAdds indent) {least : Nat} :
    Doc.Adds true false (wrap e.binding least (docIn indent e .none))
      (wrapped e.binding least e.lexemes) :=
  adds_wrap h.alone

/-! #### Literals, variables and slots -/

/-- A literal is one text, which needs a valid type name if it is an entity. -/
theorem docAdds_lit {l : Literal} (h : (lit l).isValidHere) : (lit l).DocAdds indent := by
  intro chain f hc
  rw [docIn]
  exact hc.finish (adds_literal h)

/-- A variable is its name. -/
theorem docAdds_var (v : Var) : (var v).DocAdds indent := by
  intro chain f hc
  have hv : Name.isIdent v.name := by cases v <;> decide
  rw [docIn_var]
  exact hc.finish (adds_lexemes (Lexeme.Writes.ident hv).spells nofun)

/-- A slot is its name. -/
theorem docAdds_slot (s : Slot) : (slot s).DocAdds indent := by
  intro chain f hc
  rw [docIn]
  exact hc.finish (adds_slot s)

/-! #### Unary and binary operations -/

/-- The sign of a negation stands right in front of its operand. -/
theorem docAdds_not (h : e.DocAdds indent) : (unary .not e).DocAdds indent := by
  intro chain f hc
  have bang : Doc.Adds false true (.text "!") [.sym .bang] := adds_symbol rfl rfl rfl rfl
  rw [docIn]
  refine hc.finish ?_
  exact ((bang.anywhere true).append (h.wrap.append .empty)).of_eq (by simp [lexemes])

/-- A negated expression that begins with a digit is in parentheses in any case, or the sign would
be a part of a literal. -/
theorem docAdds_neg (h : e.DocAdds indent) : (unary .neg e).DocAdds indent := by
  intro chain f hc
  have minus : Doc.Adds false true (.text "-") [.sym .minus] := adds_symbol rfl rfl rfl rfl
  rw [docIn]
  refine hc.finish ?_
  rw [lexemes]
  split
  · exact ((minus.anywhere true).append ((adds_parens h.alone).append .empty)).of_eq (by simp)
  · exact ((minus.anywhere true).append (h.wrap.append .empty)).of_eq (by simp)

/-- The method stands right behind its operand. -/
theorem docAdds_isEmpty (h : e.DocAdds indent) : (unary .isEmpty e).DocAdds indent := by
  intro chain f hc
  rw [docIn]
  refine hc.finish ?_
  exact (h.wrap.append (adds_isEmpty.forget.append .empty)).of_eq (by simp [lexemes])

/-- The right operand of a method stands between parentheses, and that of an operator behind it. -/
theorem docAdds_binary {op : BinaryOp} (ha : a.DocAdds indent) (hb : b.DocAdds indent) :
    (binary op a b).DocAdds indent := by
  intro chain f hc
  rw [docIn]
  split
  · rename_i hop
    have closing : Doc.Adds false true (.text ")") [.sym .closeParen] := adds_symbol rfl rfl rfl rfl
    have hbind : binding (.binary op a b) = 7 := by
      cases op <;> first | rfl | cases hop
    rw [hbind]
    refine hc.finish ?_
    exact (ha.wrap.append ((adds_method hop).append (hb.alone.append
      (closing.forget.append .empty)))).of_eq (by simp [lexemes, hop])
  · rename_i hop
    have hoperator : op.isMethod = false := by simpa using hop
    refine hc.finish ?_
    exact (ha.wrap.append ((adds_operator hoperator).append (hb.wrap.append .empty))).of_eq
      (by simp [lexemes_operator hoperator])

/-! #### Chains

A conjunction in front of further operands of a conjunction is one chain with them, and so for
disjunctions. In front of the other kind of chain it is the first operand of that, with a chain of
its own. -/

/-- A conjunction begins a chain, or goes in front of the one that it is given. -/
theorem docAdds_and (ha : a.DocAdds indent) (hb : b.DocAdds indent) : (and a b).DocAdds indent := by
  intro chain f hc
  cases hc with
  | @and ds lss hs =>
      rw [docIn]
      exact (ha _ _ (.and (.cons hb.wrap hs))).of_eq (by simp [separated, lexemes, binding, wrapped])
  | none =>
      rw [docIn.eq_def]
      exact (ha _ _ (.and (.cons hb.wrap .nil))).of_eq (by simp [separated, lexemes])
  | or hs =>
      rw [docIn.eq_def]
      refine (Chain.Adds.or hs).finish ?_
      exact (ha _ _ (.and (.cons hb.wrap .nil))).of_eq (by simp [separated, lexemes])

/-- A disjunction does the same with the other kind of chains. -/
theorem docAdds_or (ha : a.DocAdds indent) (hb : b.DocAdds indent) : (or a b).DocAdds indent := by
  intro chain f hc
  cases hc with
  | @or ds lss hs =>
      rw [docIn]
      exact (ha _ _ (.or (.cons hb.wrap hs))).of_eq (by simp [separated, lexemes, binding, wrapped])
  | none =>
      rw [docIn.eq_def]
      exact (ha _ _ (.or (.cons hb.wrap .nil))).of_eq (by simp [separated, lexemes])
  | and hs =>
      rw [docIn.eq_def]
      refine (Chain.Adds.and hs).finish ?_
      exact (ha _ _ (.or (.cons hb.wrap .nil))).of_eq (by simp [separated, lexemes])

/-! #### Conditions, attributes, patterns and types -/

/-- Each word of a condition has a blank or a line behind it, so that no two words meet. -/
theorem docAdds_ite (hcond : c.DocAdds indent) (hyes : t.DocAdds indent) (hno : e.DocAdds indent) :
    (ite c t e).DocAdds indent := by
  intro chain f hc
  have ifWord : Doc.Adds true true (.text "if ") [.ident "if"] := adds_word rfl (by decide)
  have thenWord : Doc.Adds true true (.text "then ") [.ident "then"] := adds_word rfl (by decide)
  have elseWord : Doc.Adds true true (.text "else ") [.ident "else"] := adds_word rfl (by decide)
  have gap : Doc.Adds false true .line [] := .line
  have branches := gap.append (thenWord.append (hyes.alone.append (gap.append
    (elseWord.append (hno.alone.append .empty)))))
  rw [docIn]
  refine hc.finish (Adds.group ?_)
  exact (ifWord.append (hcond.alone.append ((branches.nest indent).append .empty))).of_eq
    (by simp [lexemes])

/-- An access stands right behind its operand. -/
theorem docAdds_getAttr {n : String} (h : e.DocAdds indent) : (getAttr e n).DocAdds indent := by
  intro chain f hc
  rw [docIn]
  refine hc.finish ?_
  exact (h.wrap.append ((adds_access n).append .empty)).of_eq (by simp [lexemes])

/-- A test of an attribute adds a word and a name. -/
theorem docAdds_hasAttr {n : String} (h : e.DocAdds indent) : (hasAttr e n).DocAdds indent := by
  intro chain f hc
  rw [docIn]
  refine hc.finish ?_
  exact (h.wrap.append ((adds_has n).append .empty)).of_eq (by simp [lexemes])

/-- A test of a pattern adds a word and the quoted pattern. -/
theorem docAdds_like {p : List Glob} (h : e.DocAdds indent) : (like e p).DocAdds indent := by
  intro chain f hc
  rw [docIn]
  refine hc.finish ?_
  exact (h.wrap.append ((adds_like p).append .empty)).of_eq (by simp [lexemes])

/-- A test of a type adds a word and the name of the type. -/
theorem docAdds_is {type : String} (htype : Name.isTypeName type) (h : e.DocAdds indent) :
    (is e type).DocAdds indent := by
  intro chain f hc
  rw [docIn]
  refine hc.finish ?_
  exact (h.wrap.append ((adds_is htype).append .empty)).of_eq (by simp [lexemes])

/-- A test of a type and of a membership adds that and the group. -/
theorem docAdds_isMem {type : String} (htype : Name.isTypeName type) (he : e.DocAdds indent)
    (hg : g.DocAdds indent) : (isMem e type g).DocAdds indent := by
  intro chain f hc
  rw [docIn]
  refine hc.finish ?_
  exact (he.wrap.append ((adds_is htype).append (adds_in.append (hg.wrap.append .empty)))).of_eq
    (by simp [lexemes])

/-! #### Sets and records -/

/-- The documents of items spell the tokens of the items. -/
theorem adds_docItems {es : List Expr} (h : ∀ e ∈ es, e.DocAdds indent) :
    List.Forall₂ (Doc.Adds true false) (docItems indent es) (itemLexemes es) := by
  induction es with
  | nil => exact .nil
  | cons e es ih =>
      rw [List.forall_mem_cons] at h
      exact .cons h.1.alone (ih h.2)

/-- Each field spells its key, a colon and the tokens of its expression. -/
theorem adds_docFields {fs : List (String × Expr)} (h : ∀ f ∈ fs, f.2.DocAdds indent) :
    List.Forall₂ (Doc.Adds true false) (docFields indent fs) (fieldLexemes fs) := by
  induction fs with
  | nil => exact .nil
  | cons f fs ih =>
      rw [List.forall_mem_cons] at h
      refine .cons ?_ (ih h.2)
      exact ((adds_key f.1).append (h.1.alone.append .empty)).of_eq (by simp)

/-- A set adds brackets around its items. -/
theorem docAdds_set {items : List Expr} (h : ∀ e ∈ items, e.DocAdds indent) :
    (set items).DocAdds indent := by
  intro chain f hc
  have opening : Doc.Adds false true (.text "[") [.sym .openBracket] := adds_symbol rfl rfl rfl rfl
  have closing : Doc.Adds false true (.text "]") [.sym .closeBracket] := adds_symbol rfl rfl rfl rfl
  rw [docIn]
  refine hc.finish ?_
  exact (adds_bracketed indent opening closing (adds_docItems h)).forget.of_eq (by simp [lexemes])

/-- A record adds braces around its fields. -/
theorem docAdds_record {fields : List (String × Expr)} (h : ∀ f ∈ fields, f.2.DocAdds indent) :
    (record fields).DocAdds indent := by
  intro chain f hc
  have opening : Doc.Adds false true (.text "\x7b") [.sym .openBrace] := adds_symbol rfl rfl rfl rfl
  have closing :
      Doc.Adds false true (.text "\x7d") [.sym .closeBrace] := adds_symbol rfl rfl rfl rfl
  rw [docIn]
  refine hc.finish ?_
  exact (adds_bracketed indent opening closing (adds_docFields h)).forget.of_eq (by simp [lexemes])

end constructors

/-- **The document of an expression spells its tokens**, as the first operand of a chain, in every
layout: by induction, each constructor takes it from the operands. -/
theorem adds_docIn (indent : Nat) (e : Expr) (h : e.Valid) : e.DocAdds indent := by
  induction e using induction_operands with
  | step e ih =>
      have part : ∀ o ∈ e.operands, o.DocAdds indent := fun o ho => ih o ho (h.operand ho)
      cases e with
      | lit l => exact docAdds_lit h.here
      | var v => exact docAdds_var v
      | slot s => exact docAdds_slot s
      | set items => exact docAdds_set part
      | record fields => exact docAdds_record fun f hf => part f.2 (List.mem_map_of_mem hf)
      | unary op e =>
          have he : e.DocAdds indent := part e (by simp [operands])
          cases op with
          | not => exact docAdds_not he
          | neg => exact docAdds_neg he
          | isEmpty => exact docAdds_isEmpty he
      | getAttr e n => exact docAdds_getAttr (part e (by simp [operands]))
      | hasAttr e n => exact docAdds_hasAttr (part e (by simp [operands]))
      | like e p => exact docAdds_like (part e (by simp [operands]))
      | is e type => exact docAdds_is h.here (part e (by simp [operands]))
      | binary op a b =>
          exact docAdds_binary (part a (by simp [operands])) (part b (by simp [operands]))
      | and a b => exact docAdds_and (part a (by simp [operands])) (part b (by simp [operands]))
      | or a b => exact docAdds_or (part a (by simp [operands])) (part b (by simp [operands]))
      | isMem e type g =>
          exact docAdds_isMem h.here (part e (by simp [operands])) (part g (by simp [operands]))
      | ite c t e =>
          exact docAdds_ite (part c (by simp [operands])) (part t (by simp [operands]))
            (part e (by simp [operands]))

end Expr

end AccessPolicy
