import AccessPolicy.Proofs.Layout.Flat
import AccessPolicy.Proofs.Print.Expr

/-!
# Expressions on one line

* **No newline is printed inside of a text** (`Quoted.not_mem_encode`, `Name.not_mem_of_isTypeName`,
  `Expr.not_mem_literalText`): quoted texts have it as an escape, and names have no such character.
* `Expr.oneLine e` — the text of an expression with a blank where a line may be broken.
* **Expressions can be laid out flat** (`Expr.alike_doc`): there is no hard line in them, they
  depend on the indentation in no other way, and there is no newline in them if their names are
  valid. `Expr.DocAlike` says this of one expression, with a lemma for each constructor.
-/

namespace AccessPolicy

/-! ### Texts without newlines

A newline in a text would begin a line that no layout has decided on. Names and escapes keep
newlines out of everything that is printed. -/

/-- A newline has a letter as its escape, control characters have digits, and what stands for itself
is no control character. -/
theorem Quoted.not_mem_encodeChar (c : Char) : '\n' ∉ encodeChar c := by
  rcases encodeChar_cases c with ⟨d, hd, he⟩ | ⟨hctl, he⟩ | ⟨-, he⟩
  · have hne : '\n' ≠ d := by
      rintro rfl
      exact absurd hd (by simp [letter?])
    rw [he]
    simp [hne]
  · have hdigits : '\n' ∉ Nat.toDigits 16 c.toNat := by
      intro h
      have hex := List.all_eq_true.mp (digits_of_lt c.toNat (toNat_lt_of_isControl hctl)).1 _ h
      exact absurd hex (by decide)
    rw [he]
    simp [hdigits]
  · have hne : '\n' ≠ c := by
      rintro rfl
      exact absurd he (by decide)
    rw [he]
    simp [hne]

/-- The characters of a quoted text are encoded one by one. -/
theorem Quoted.not_mem_encode (cs : List Char) : '\n' ∉ encode cs := by
  intro h
  obtain ⟨c, -, hc⟩ := List.mem_flatMap.mp h
  exact not_mem_encodeChar c hc

/-- A pattern is encoded as a text is, but for wildcards and for stars that are none. -/
theorem Quoted.not_mem_encodePattern (globs : List Glob) : '\n' ∉ encodePattern globs := by
  intro h
  obtain ⟨g, -, hg⟩ := List.mem_flatMap.mp h
  cases g with
  | wildcard => exact absurd hg (by decide)
  | char c =>
      rw [encodeGlob] at hg
      split at hg
      · exact absurd hg (by decide)
      · exact not_mem_encodeChar c hg

/-- The quotes around a text add no newline. -/
theorem Quoted.not_mem_quote (s : String) : '\n' ∉ (quote s).toList := by
  simp [quote, not_mem_encode]

/-- A newline continues no identifier. -/
theorem Name.not_mem_of_isIdentChars {cs : List Char} (h : isIdentChars cs) : '\n' ∉ cs :=
  fun hmem => absurd (isRest_of_isIdentChars h _ hmem) (by decide)

/-- A type name is its segments, which are identifiers, with colons between them. -/
theorem Name.not_mem_of_isTypeName {name : String} (h : isTypeName name) : '\n' ∉ name.toList := by
  have hjoined := joined_segmentsFrom [] name.toList
  obtain ⟨s, ss, hs⟩ := List.exists_cons_of_ne_nil (segmentsFrom_ne_nil [] name.toList)
  rw [isTypeName, hs, List.all_eq_true] at h
  rw [hs, joined_cons, List.reverse_nil, List.nil_append] at hjoined
  rw [← hjoined]
  intro hmem
  rcases List.mem_append.mp hmem with hfirst | hothers
  · exact not_mem_of_isIdentChars (h s List.mem_cons_self) hfirst
  · obtain ⟨t, ht, hmem⟩ := List.mem_flatMap.mp hothers
    have hne := not_mem_of_isIdentChars (h t (List.mem_cons_of_mem s ht))
    simp [hne] at hmem

/-- An integer is written with digits and a sign. -/
theorem Long.not_mem_text (n : Long) : '\n' ∉ n.text.toList := by
  have hdigits : '\n' ∉ Nat.toDigits 10 n.toInt.natAbs := fun h =>
    absurd (Nat.isDigit_of_mem_toDigits (by decide) (by decide) h) (by decide)
  rw [toList_text]
  split
  · simp [hdigits]
  · exact hdigits

namespace Expr

/-- Only the type of an entity is printed as it is, and in a valid expression it is a type name. -/
theorem not_mem_literalText {l : Literal} (h : (lit l).isValidHere) :
    '\n' ∉ (literalText l).toList := by
  rw [literalText, Value.text, String.toList_ofList]
  cases l with
  | bool b => cases b <;> decide
  | long n => exact n.not_mem_text
  | string s => simp [Literal.value, Value.chars, Quoted.not_mem_encode]
  | entity u =>
      have htype := Name.not_mem_of_isTypeName (show Name.isTypeName u.type from h)
      simp [Literal.value, Value.chars, Uid.chars, Quoted.not_mem_encode, htype]

/-- An attribute behind `has` is an identifier or a quoted text. -/
theorem not_mem_attrText (name : String) : '\n' ∉ (attrText name).toList := by
  unfold attrText
  split
  · rename_i h
    simp only [Grammar.isBareAttr, Bool.and_eq_true] at h
    exact Name.not_mem_of_isIdentChars h.1
  · exact Quoted.not_mem_quote name

/-- An attribute behind a value is an identifier behind a dot or a quoted text in brackets. -/
theorem not_mem_accessText (name : String) : '\n' ∉ (accessText name).toList := by
  unfold accessText
  split
  · rename_i h
    simp only [Grammar.isBareAttr, Bool.and_eq_true] at h
    simp [Name.not_mem_of_isIdentChars h.1]
  · simp [Quoted.not_mem_quote]

/-- The key of a record is an identifier or a quoted text. -/
theorem not_mem_keyText (name : String) : '\n' ∉ (keyText name).toList := by
  unfold keyText
  split
  · rename_i h
    exact Name.not_mem_of_isIdentChars h
  · exact Quoted.not_mem_quote name

/-! ### Documents -/

open Doc

variable {v : Prop} {d d' : Doc} {ds ds' : List Doc} {chain chain' : Chain} {binding least : Nat}

/-- Parentheses take no part in the layout. -/
theorem alike_parens (h : Alike v d d') : Alike v (parens d) (parens d') := by
  have opening : Alike v (.text "(") (.text "(") := .text fun _ => by decide
  have closing : Alike v (.text ")") (.text ")") := .text fun _ => by decide
  exact opening.cons (h.cons closing.single)

/-- Whether an operand stands in parentheses depends on the expression only, not on the
indentation. -/
theorem alike_wrap (h : Alike v d d') : Alike v (wrap binding least d) (wrap binding least d') := by
  unfold wrap
  split
  · exact alike_parens h
  · exact h

/-- Items in brackets are where the indentation comes in: the lines between the brackets are nested
by it. -/
theorem alike_bracketed (i j : Nat) {opening closing : String} (hopen : '\n' ∉ opening.toList)
    (hclose : '\n' ∉ closing.toList) (h : List.Forall₂ (Alike v) ds ds') :
    Alike v (bracketed i opening ds closing) (bracketed j opening ds' closing) := by
  have comma : Alike v (.text ",") (.text ",") := .text fun _ => by decide
  have items := Alike.join (comma.cons Alike.line.single) h
  have inner := Alike.nest i j (Alike.softLine.cons items.single)
  have first : Alike v (.text opening) (.text opening) := .text fun _ => hopen
  have last : Alike v (.text closing) (.text closing) := .text fun _ => hclose
  exact .group (first.cons (inner.cons (Alike.softLine.cons last.single)))

/-- Chains whose other operands are alike. -/
inductive Chain.Alike (v : Prop) : Chain → Chain → Prop
  | none : Chain.Alike v .none .none
  | and {ds ds' : List Doc} (h : List.Forall₂ (Doc.Alike v) ds ds') :
      Chain.Alike v (.and ds) (.and ds')
  | or {ds ds' : List Doc} (h : List.Forall₂ (Doc.Alike v) ds ds') :
      Chain.Alike v (.or ds) (.or ds')

/-- The operands of a chain stand on lines of their own, behind the operator that joins them. -/
theorem alike_chainDoc {symbol : String} (hs : '\n' ∉ symbol.toList)
    (h : List.Forall₂ (Alike v) ds ds') : Alike v (chainDoc symbol ds) (chainDoc symbol ds') := by
  have operator : Alike v (.text (" " ++ symbol)) (.text (" " ++ symbol)) :=
    .text fun _ => by simpa using hs
  exact .group (.join (operator.cons Alike.line.single) h)

/-- An expression goes in front of the other operands of its chain, if it begins one. -/
theorem Chain.Alike.finish (hc : chain.Alike v chain') (h : Doc.Alike v d d') :
    Doc.Alike v (chain.finish binding d) (chain'.finish binding d') := by
  cases hc with
  | none => exact h
  | and hs => exact alike_chainDoc (by decide) (.cons (alike_wrap h) hs)
  | or hs => exact alike_chainDoc (by decide) (.cons (alike_wrap h) hs)

/-! ### Expressions -/

/-- The documents of an expression for two indentations are alike, whatever chain the expression
begins. As with its tokens (`Expr.DocAdds`), this goes from operands to expressions, one lemma for
each constructor. -/
def DocAlike (v : Prop) (i j : Nat) (e : Expr) : Prop :=
  ∀ chain chain' : Chain, chain.Alike v chain' → Doc.Alike v (docIn i e chain) (docIn j e chain')

section constructors

variable {i j : Nat} {a b c e g t : Expr}

/-- An expression that begins no chain. -/
theorem DocAlike.alone (h : e.DocAlike v i j) : Doc.Alike v (docIn i e .none) (docIn j e .none) :=
  h _ _ .none

/-- An expression that begins no chain, in a place for operands that bind at least so much. -/
theorem DocAlike.wrap (h : e.DocAlike v i j) :
    Doc.Alike v (wrap binding least (docIn i e .none)) (wrap binding least (docIn j e .none)) :=
  alike_wrap h.alone

/-- The text of a literal is the one place where newlines depend on names, so that it asks for a
valid one. -/
theorem docAlike_lit {l : Literal} (h : v → (lit l).isValidHere) : (lit l).DocAlike v i j := by
  intro chain chain' hc
  rw [docIn, docIn]
  exact hc.finish (.text fun hv => not_mem_literalText (h hv))

/-- The names of the variables are fixed. -/
theorem docAlike_var (x : Var) : (var x).DocAlike v i j := by
  intro chain chain' hc
  rw [docIn_var, docIn_var]
  exact hc.finish (.text fun _ => by cases x <;> decide)

/-- The names of the slots are fixed. -/
theorem docAlike_slot (s : Slot) : (slot s).DocAlike v i j := by
  intro chain chain' hc
  rw [docIn, docIn]
  exact hc.finish (.text fun _ => by cases s <;> decide)

/-! #### Unary and binary operations -/

/-- A negation puts its sign in front of the operand. -/
theorem docAlike_not (h : e.DocAlike v i j) : (unary .not e).DocAlike v i j := by
  intro chain chain' hc
  have bang : Doc.Alike v (.text "!") (.text "!") := .text fun _ => by decide
  rw [docIn, docIn]
  exact hc.finish (bang.cons h.wrap.single)

/-- The operand of a minus may be in parentheses for two reasons, and neither is the indentation. -/
theorem docAlike_neg (h : e.DocAlike v i j) : (unary .neg e).DocAlike v i j := by
  intro chain chain' hc
  have minus : Doc.Alike v (.text "-") (.text "-") := .text fun _ => by decide
  rw [docIn, docIn]
  refine hc.finish (minus.cons (.single ?_))
  split
  · exact alike_parens h.alone
  · exact h.wrap

/-- The one method without an argument. -/
theorem docAlike_isEmpty (h : e.DocAlike v i j) : (unary .isEmpty e).DocAlike v i j := by
  intro chain chain' hc
  have method : Doc.Alike v (.text ".isEmpty()") (.text ".isEmpty()") := .text fun _ => by decide
  rw [docIn, docIn]
  exact hc.finish (h.wrap.cons method.single)

/-- The symbols of operators and the names of methods are fixed. -/
theorem docAlike_binary {op : BinaryOp} (ha : a.DocAlike v i j) (hb : b.DocAlike v i j) :
    (binary op a b).DocAlike v i j := by
  intro chain chain' hc
  have hop : '\n' ∉ op.symbol.toList := by cases op <;> decide
  rw [docIn, docIn]
  split
  · have method : Doc.Alike v (.text ("." ++ op.symbol ++ "(")) (.text ("." ++ op.symbol ++ "(")) :=
      .text fun _ => by simpa using hop
    have closing : Doc.Alike v (.text ")") (.text ")") := .text fun _ => by decide
    exact hc.finish (ha.wrap.cons (method.cons (hb.alone.cons closing.single)))
  · have operator : Doc.Alike v (.text (" " ++ op.symbol ++ " ")) (.text (" " ++ op.symbol ++ " ")) :=
      .text fun _ => by simpa using hop
    exact hc.finish (ha.wrap.cons (operator.cons hb.wrap.single))

/-! #### Chains -/

/-- A conjunction hands the longer chain of its second operand down to the first one. -/
theorem docAlike_and (ha : a.DocAlike v i j) (hb : b.DocAlike v i j) :
    (and a b).DocAlike v i j := by
  intro chain chain' hc
  cases hc with
  | and hs =>
      rw [docIn, docIn]
      exact ha _ _ (.and (.cons hb.wrap hs))
  | none =>
      rw [docIn.eq_def, docIn.eq_def]
      exact ha _ _ (.and (.cons hb.wrap .nil))
  | or hs =>
      rw [docIn.eq_def, docIn.eq_def]
      exact (Chain.Alike.or hs).finish (ha _ _ (.and (.cons hb.wrap .nil)))

/-- A disjunction does so too. -/
theorem docAlike_or (ha : a.DocAlike v i j) (hb : b.DocAlike v i j) : (or a b).DocAlike v i j := by
  intro chain chain' hc
  cases hc with
  | or hs =>
      rw [docIn, docIn]
      exact ha _ _ (.or (.cons hb.wrap hs))
  | none =>
      rw [docIn.eq_def, docIn.eq_def]
      exact ha _ _ (.or (.cons hb.wrap .nil))
  | and hs =>
      rw [docIn.eq_def, docIn.eq_def]
      exact (Chain.Alike.and hs).finish (ha _ _ (.or (.cons hb.wrap .nil)))

/-! #### Conditions, attributes, patterns and types -/

/-- The branches of a condition are nested below it. -/
theorem docAlike_ite (hcond : c.DocAlike v i j) (hyes : t.DocAlike v i j) (hno : e.DocAlike v i j) :
    (ite c t e).DocAlike v i j := by
  intro chain chain' hc
  have ifWord : Doc.Alike v (.text "if ") (.text "if ") := .text fun _ => by decide
  have thenWord : Doc.Alike v (.text "then ") (.text "then ") := .text fun _ => by decide
  have elseWord : Doc.Alike v (.text "else ") (.text "else ") := .text fun _ => by decide
  have branches := Alike.nest i j (Alike.line.cons (thenWord.cons (hyes.alone.cons
    (Alike.line.cons (elseWord.cons hno.alone.single)))))
  rw [docIn, docIn]
  exact hc.finish (.group (ifWord.cons (hcond.alone.cons branches.single)))

/-- An access to an attribute is on the line of what it belongs to. -/
theorem docAlike_getAttr {n : String} (h : e.DocAlike v i j) : (getAttr e n).DocAlike v i j := by
  intro chain chain' hc
  have access : Doc.Alike v (.text (accessText n)) (.text (accessText n)) :=
    .text fun _ => not_mem_accessText n
  rw [docIn, docIn]
  exact hc.finish (h.wrap.cons access.single)

/-- A test of an attribute is on one line with what is tested. -/
theorem docAlike_hasAttr {n : String} (h : e.DocAlike v i j) : (hasAttr e n).DocAlike v i j := by
  intro chain chain' hc
  have attr : Doc.Alike v (.text (" has " ++ attrText n)) (.text (" has " ++ attrText n)) :=
    .text fun _ => by simpa using not_mem_attrText n
  rw [docIn, docIn]
  exact hc.finish (h.wrap.cons attr.single)

/-- The pattern of a test is encoded and so has no newline. -/
theorem docAlike_like {p : List Glob} (h : e.DocAlike v i j) : (like e p).DocAlike v i j := by
  intro chain chain' hc
  rw [docIn, docIn]
  refine hc.finish (h.wrap.cons (.single (.text fun _ => ?_)))
  simpa using Quoted.not_mem_encodePattern p

/-- The text of a test of a type, if it is the name of one. -/
theorem alike_isText {type : String} (h : v → Name.isTypeName type) :
    Doc.Alike v (.text (" is " ++ type)) (.text (" is " ++ type)) :=
  .text fun hv => by simpa using Name.not_mem_of_isTypeName (h hv)

/-- The type of a test is a type name. -/
theorem docAlike_is {type : String} (htype : v → Name.isTypeName type) (h : e.DocAlike v i j) :
    (is e type).DocAlike v i j := by
  intro chain chain' hc
  rw [docIn, docIn]
  exact hc.finish (h.wrap.cons (alike_isText htype).single)

/-- A test of a type and of a membership is that test with a further operand. -/
theorem docAlike_isMem {type : String} (htype : v → Name.isTypeName type) (he : e.DocAlike v i j)
    (hg : g.DocAlike v i j) : (isMem e type g).DocAlike v i j := by
  intro chain chain' hc
  have word : Doc.Alike v (.text " in ") (.text " in ") := .text fun _ => by decide
  rw [docIn, docIn]
  exact hc.finish (he.wrap.cons ((alike_isText htype).cons (word.cons hg.wrap.single)))

/-! #### Sets and records -/

theorem alike_docItems {es : List Expr} (h : ∀ e ∈ es, e.DocAlike v i j) :
    List.Forall₂ (Doc.Alike v) (docItems i es) (docItems j es) := by
  induction es with
  | nil => exact .nil
  | cons e es ih =>
      rw [List.forall_mem_cons] at h
      exact .cons h.1.alone (ih h.2)

/-- A field has its key in front, which has no newline whatever the key is. -/
theorem alike_docFields {fs : List (String × Expr)} (h : ∀ f ∈ fs, f.2.DocAlike v i j) :
    List.Forall₂ (Doc.Alike v) (docFields i fs) (docFields j fs) := by
  induction fs with
  | nil => exact .nil
  | cons f fs ih =>
      rw [List.forall_mem_cons] at h
      have key : Doc.Alike v (.text (keyText f.1 ++ ": ")) (.text (keyText f.1 ++ ": ")) :=
        .text fun _ => by simpa using not_mem_keyText f.1
      exact .cons (key.cons h.1.alone.single) (ih h.2)

/-- The items of a set are items in brackets. -/
theorem docAlike_set {items : List Expr} (h : ∀ e ∈ items, e.DocAlike v i j) :
    (set items).DocAlike v i j := by
  intro chain chain' hc
  rw [docIn, docIn]
  exact hc.finish (alike_bracketed i j (by decide) (by decide) (alike_docItems h))

/-- The fields of a record are items in braces. -/
theorem docAlike_record {fields : List (String × Expr)} (h : ∀ f ∈ fields, f.2.DocAlike v i j) :
    (record fields).DocAlike v i j := by
  intro chain chain' hc
  rw [docIn, docIn]
  exact hc.finish (alike_bracketed i j (by decide) (by decide) (alike_docFields h))

end constructors

/-- **Expressions can be laid out flat**, as the first operand of a chain: by induction, each
constructor takes it from the operands. -/
theorem alike_docIn (i j : Nat) (e : Expr) (h : v → e.Valid) : e.DocAlike v i j := by
  induction e using induction_operands with
  | step e ih =>
      have part : ∀ o ∈ e.operands, o.DocAlike v i j := fun o ho =>
        ih o ho fun hv => (h hv).operand ho
      cases e with
      | lit l => exact docAlike_lit fun hv => (h hv).here
      | var x => exact docAlike_var x
      | slot s => exact docAlike_slot s
      | set items => exact docAlike_set part
      | record fields => exact docAlike_record fun f hf => part f.2 (List.mem_map_of_mem hf)
      | unary op e =>
          have he : e.DocAlike v i j := part e (by simp [operands])
          cases op with
          | not => exact docAlike_not he
          | neg => exact docAlike_neg he
          | isEmpty => exact docAlike_isEmpty he
      | getAttr e n => exact docAlike_getAttr (part e (by simp [operands]))
      | hasAttr e n => exact docAlike_hasAttr (part e (by simp [operands]))
      | like e p => exact docAlike_like (part e (by simp [operands]))
      | is e type => exact docAlike_is (fun hv => (h hv).here) (part e (by simp [operands]))
      | binary op a b =>
          exact docAlike_binary (part a (by simp [operands])) (part b (by simp [operands]))
      | and a b => exact docAlike_and (part a (by simp [operands])) (part b (by simp [operands]))
      | or a b => exact docAlike_or (part a (by simp [operands])) (part b (by simp [operands]))
      | isMem e type g =>
          exact docAlike_isMem (fun hv => (h hv).here) (part e (by simp [operands]))
            (part g (by simp [operands]))
      | ite c t e =>
          exact docAlike_ite (part c (by simp [operands])) (part t (by simp [operands]))
            (part e (by simp [operands]))

/-- **Expressions can be laid out flat**: for any two indentations their documents differ in nothing
that a flat layout shows. -/
theorem alike_doc (i j : Nat) {e : Expr} (h : v → e.Valid) : Doc.Alike v (e.doc i) (e.doc j) :=
  (alike_docIn i j e h).alone

/-- The text of an expression with a blank where a line may be broken. -/
def oneLine (e : Expr) : String :=
  String.ofList (e.doc 0).flatText

end Expr

end AccessPolicy
