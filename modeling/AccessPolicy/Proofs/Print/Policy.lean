import AccessPolicy.Proofs.Policy.WellFormed
import AccessPolicy.Proofs.Print.Legible

/-!
# The tokens of printed policies

* `Policy.Printable`, `PolicySet.Printable` — policies whose text stands for them: they have the
  shapes that can be written, and so have the conditions.
* `Policy.Legible` — policies of the same shapes, with conditions that can be read. It holds of
  printable policies and of those that were read.
* `Policy.lexemes`, `PolicySet.lexemes` — the tokens of policies, ids and separators included.
* **Policies spell their tokens in every layout** (`Policy.adds_doc`, `PolicySet.spells_print`).
-/

namespace AccessPolicy

open Grammar

/-! ### Valid scopes -/

namespace Scope

/-- Whether the uids and type names of a scope are valid. -/
def hasValidNames : Scope → Bool
  | any => true
  | eq r | mem r => referenceIsValid r
  | memAny us => us.all (·.isValid)
  | is type => Name.isTypeName type
  | isMem type r => Name.isTypeName type && referenceIsValid r
where
  /-- Whether a reference is a slot or a valid uid. -/
  referenceIsValid : Reference → Bool
    | .uid u => u.isValid
    | .slot _ => true

/-- A reference that may stand in a scope has a valid name. -/
theorem referenceIsValid_of_allowed {slot : Option Slot} {r : Reference} (h : r.Allowed slot) :
    hasValidNames.referenceIsValid r := by
  cases h with
  | uid hu => exact hu
  | slot _ => rfl

/-- The names of a scope are valid wherever it may stand. -/
theorem Allowed.hasValidNames {slot : Option Slot} {s : Scope} (h : s.Allowed slot) :
    s.hasValidNames := by
  cases h with
  | any => rfl
  | eq hr => exact referenceIsValid_of_allowed hr
  | mem hr => exact referenceIsValid_of_allowed hr
  | memAny _ hus => exact List.all_eq_true.mpr hus
  | is _ htype => exact htype
  | isMem _ htype hr => exact Bool.and_eq_true_iff.mpr ⟨htype, referenceIsValid_of_allowed hr⟩

end Scope

/-! ### Printable policies -/

/-- The text of a policy stands for it. -/
structure Policy.Printable (p : Policy) : Prop extends p.Shaped where
  /-- The conditions can be written. -/
  conditions : ∀ c ∈ p.conditions, c.body.Printable

/-- The text of a policy can be read. -/
structure Policy.Legible (p : Policy) : Prop extends p.Shaped where
  /-- The conditions can be read. -/
  conditions : ∀ c ∈ p.conditions, c.body.Legible ∧ c.body.Full

/-- Printable policies can be read. -/
theorem Policy.Printable.legible {p : Policy} (h : p.Printable) : p.Legible :=
  ⟨h.toShaped, fun c hc => ⟨(h.conditions c hc).legible, (h.conditions c hc).full⟩⟩

/-- A set without links whose text stands for it. -/
structure PolicySet.Printable (s : PolicySet) : Prop where
  /-- There are no links. -/
  links : s.links = []
  /-- The ids are distinct. -/
  ids : ((s.policies ++ s.templates).map (·.id)).Nodup
  /-- The static policies have no slots. -/
  policies : ∀ p ∈ s.policies, p.isTemplate = false
  /-- The templates have slots. -/
  templates : ∀ p ∈ s.templates, p.isTemplate = true
  /-- Each policy can be written. -/
  printable : ∀ p ∈ s.policies ++ s.templates, p.Printable

/-! ### Tokens -/

/-- The tokens of a reference. -/
def Reference.lexemes : Reference → List Lexeme
  | uid u => u.lexemes
  | slot s => s.lexemes

/-- The tokens of a scope. -/
def Scope.lexemes (word : String) : Scope → List Lexeme
  | any => [.ident word]
  | eq r => .ident word :: .sym .eqEq :: r.lexemes
  | mem r => .ident word :: .ident "in" :: r.lexemes
  | is type => .ident word :: .ident "is" :: Name.lexemes type
  | isMem type r => .ident word :: .ident "is" :: Name.lexemes type ++ .ident "in" :: r.lexemes
  | memAny us =>
    .ident word :: .ident "in" :: .sym .openBracket ::
      separated (.sym .comma) (us.map Uid.lexemes) ++ [.sym .closeBracket]

/-- The tokens of a clause. -/
def Clause.lexemes (c : Clause) : List Lexeme :=
  .ident c.kind.name :: .sym .openBrace :: c.body.lexemes ++ [.sym .closeBrace]

namespace Policy

/-- The tokens of an annotation. -/
def annotationLexemes (key value : String) : List Lexeme :=
  [.sym .sign, .ident key, .sym .openParen, Expr.quoted value, .sym .closeParen]

/-- The tokens of the annotations of a policy at a place, the one of the id first. -/
def headerLexemes (p : Policy) (place : Nat) : List Lexeme :=
  (if p.id = defaultId place then [] else annotationLexemes "id" p.id) ++
    p.annotations.flatMap fun a => annotationLexemes a.1 a.2

/-- The tokens of a policy at a place. -/
def lexemes (p : Policy) (place : Nat) : List Lexeme :=
  p.headerLexemes place ++ .ident p.effect.name :: .sym .openParen ::
    p.principal.lexemes "principal" ++ .sym .comma ::
    p.action.lexemes "action" ++ .sym .comma ::
    p.resource.lexemes "resource" ++ .sym .closeParen ::
    p.conditions.flatMap Clause.lexemes ++ [.sym .semicolon]

end Policy

/-- The tokens of policies from a place on. -/
def PolicySet.lexemesFrom : (place : Nat) → List Policy → List Lexeme
  | _, [] => []
  | place, p :: ps => p.lexemes place ++ lexemesFrom (place + 1) ps

/-- The tokens of a set. -/
def PolicySet.lexemes (s : PolicySet) : List Lexeme :=
  lexemesFrom 0 (s.policies ++ s.templates)

/-! ### Scopes -/

section scopes

open Doc

/-- A reference with a valid name spells its tokens. -/
theorem spells_reference {r : Reference} (h : Scope.hasValidNames.referenceIsValid r) :
    Spells r.text.toList r.lexemes := by
  cases r with
  | uid u =>
      rw [Reference.text, Uid.text, String.toList_ofList]
      exact Uid.spells h
  | slot s =>
      cases s
      · exact spells_symbol (s := .question)
          (Lexeme.Writes.ident (w := "principal") (by decide)).spells (by decide)
      · exact spells_symbol (s := .question)
          (Lexeme.Writes.ident (w := "resource") (by decide)).spells (by decide)

/-- **The document of a scope spells its tokens.** -/
theorem Scope.adds_doc {s : Scope} (h : s.hasValidNames) (word : String) (hw : Name.isIdent word)
    (indent : Nat) : Adds true false (s.doc indent word) (s.lexemes word) := by
  cases s with
  | any => exact adds_lexemes (Lexeme.Writes.ident hw).spells nofun
  | eq r =>
      have hs := spells_word (.blank rfl (spells_symbol (s := .eqEq)
        (.blank (c := ' ') rfl (spells_reference h)) (apart_cons rfl))) hw
        (apart_cons (c := ' ') rfl)
      exact adds_lexemes (by simpa [Symbol.chars] using hs) nofun
  | mem r =>
      have hs := spells_word (spells_keyword (spells_reference h) (w := "in") (by decide)) hw
        (apart_cons rfl)
      exact adds_lexemes (by simpa using hs) nofun
  | is type =>
      have hs := spells_word (spells_keyword (Name.spells_lexemes h) (w := "is") (by decide)) hw
        (apart_cons rfl)
      exact adds_lexemes (by simpa using hs) nofun
  | isMem type r =>
      simp only [hasValidNames, Bool.and_eq_true] at h
      have hr := spells_keyword (spells_reference h.2) (w := "in") (by decide)
      have htype := (Name.spells_lexemes h.1).append hr (apart_cons rfl)
      have hs := spells_word (spells_keyword htype (w := "is") (by decide)) hw (apart_cons rfl)
      exact adds_lexemes (by simpa using hs) nofun
  | memAny us =>
      have items : List.Forall₂ (Adds true false) (us.map fun u => .text u.text)
          (us.map Uid.lexemes) := by
        refine List.forall₂_map_left_iff.mpr (List.forall₂_map_right_iff.mpr ?_)
        refine List.forall₂_same.mpr fun u hu => ?_
        obtain ⟨x, ls, hl⟩ := u.lexemes_eq_cons
        have hu := Uid.spells (List.all_eq_true.mp h u hu)
        rw [hl] at hu ⊢
        exact adds_lexemes (by rwa [Uid.text, String.toList_ofList]) nofun
      have opening : Adds false true (.text "[") [.sym .openBracket] := adds_symbol rfl rfl rfl rfl
      have closing : Adds false true (.text "]") [.sym .closeBracket] :=
        adds_symbol rfl rfl rfl rfl
      have lead : Adds true true (.text (word ++ " in ")) [.ident word, .ident "in"] := by
        have hs := spells_word (spells_keyword .nil (w := "in") (by decide)) hw (apart_cons rfl)
        obtain ⟨c, cs, hc, hne⟩ := hs.exists_cons nofun
        have htext : (word ++ " in ").toList = c :: cs := by
          rw [← hc]
          simp
        refine .text htext (hc ▸ hs) hne fun _ => ?_
        rw [← hc]
        exact Fresh.append _ (by decide) (List.cons_ne_nil _ _)
      have all := lead.append ((adds_bracketed indent opening closing items).append
        .empty)
      exact all.forget.of_eq (by simp [lexemes])

end scopes

/-! ### Policies -/

section policies

open Doc

/-- The document of a clause spells its tokens. -/
theorem Clause.adds_doc {c : Clause} (h : c.body.Valid) (indent : Nat) :
    Adds true true (c.doc indent) c.lexemes := by
  have hkind : Name.isIdent c.kind.name := by
    cases c.kind <;> decide
  have lead : Adds true true (.text (c.kind.name ++ " \x7b"))
      [.ident c.kind.name, .sym .openBrace] := by
    have hs := spells_word (.blank (c := ' ') rfl (Lexeme.Writes.sym .openBrace).spells) hkind
      (apart_cons rfl)
    obtain ⟨d, cs, hd, hne⟩ := hs.exists_cons nofun
    refine .text (by simpa [Symbol.chars] using hd) (hd ▸ hs) hne fun _ => ?_
    rw [← hd]
    exact Fresh.append _ (by decide) (List.cons_ne_nil _ _)
  have closing : Adds false true (.text "\x7d") [.sym .closeBrace] := adds_symbol rfl rfl rfl rfl
  have space : Adds true true line [] := .line
  have gap : Adds false false line [] := .line
  have body := space.append ((Expr.adds_docIn indent c.body h).alone.append .empty)
  have all := lead.append ((body.nest indent).append (gap.append (closing.append .empty)))
  exact all.group.of_eq (by simp [lexemes])

/-- An annotation adds its tokens in every layout if its key is an identifier. -/
theorem Policy.adds_annotationDoc {key : String} (value : String) (h : Name.isIdent key) :
    Adds true true (annotationDoc key value) (annotationLexemes key value) := by
  have hvalue := spells_symbol (s := .openParen)
    ((spells_quoted value).append (Lexeme.Writes.sym .closeParen).spells (apart_cons rfl))
    (apart_cons rfl)
  have seam : Apart Symbol.sign.chars (key.toList ++ (Symbol.openParen.chars ++
      ('"' :: Quoted.encode value.toList ++ ['"'] ++ Symbol.closeParen.chars))) := by
    obtain ⟨c, cs, hc, hstart⟩ := Name.isStart_of_isIdentChars h
    rw [hc]
    refine Fresh.apart (by decide) fun d hd => ?_
    cases hd
    rintro rfl
    exact absurd hstart (by decide)
  have hs := spells_symbol (s := .sign) (spells_word hvalue h (apart_cons rfl)) seam
  have text : Adds true true
      (.text ("@" ++ key ++ "(" ++ Quoted.quote value ++ ")")) (annotationLexemes key value) := by
    refine Adds.anywhere (.text (c := '@') ?_ hs rfl fun _ => ?_) true
    · simp [Quoted.quote, Symbol.chars]
    · refine Fresh.append ('@' :: key.toList) ?_ (List.cons_ne_nil _ _)
      exact fresh_concat ('(' :: '"' :: Quoted.encode value.toList ++ ['"']) rfl
  exact (text.append (Adds.hardLine.append .empty)).of_eq (by simp)

/-- **The document of a policy spells its tokens.** -/
theorem Policy.adds_doc {p : Policy} (h : p.Legible) (indent place : Nat) :
    Adds true true (p.doc indent place) (p.lexemes place) := by
  have id : AddsAll true true
      (if p.id = defaultId place then [] else [annotationDoc "id" p.id])
      (if p.id = defaultId place then [] else annotationLexemes "id" p.id) := by
    split
    · exact .nil
    · exact (adds_annotationDoc _ (by decide)).addsAll
  have annotations : AddsAll true true (p.annotations.map fun a => annotationDoc a.1 a.2)
      (p.annotations.flatMap fun a => annotationLexemes a.1 a.2) :=
    addsAll_map fun a ha => adds_annotationDoc a.2 (h.keys a ha).1
  have effect : Adds true true (.text (p.effect.name ++ " ("))
      [.ident p.effect.name, .sym .openParen] := by
    have hname : Name.isIdent p.effect.name := by
      cases p.effect <;> decide
    have hs := spells_word (.blank (c := ' ') rfl (Lexeme.Writes.sym .openParen).spells) hname
      (apart_cons rfl)
    obtain ⟨c, cs, hc, hne⟩ := hs.exists_cons nofun
    refine .text (by simpa [Symbol.chars] using hc) (hc ▸ hs) hne fun _ => ?_
    rw [← hc]
    exact Fresh.append _ (by decide) (List.cons_ne_nil _ _)
  have comma : Adds false true (.text ",") [.sym .comma] := adds_symbol rfl rfl rfl rfl
  have closing : Adds false true (.text ")") [.sym .closeParen] := adds_symbol rfl rfl rfl rfl
  have semicolon : Adds false true (.text ";") [.sym .semicolon] := adds_symbol rfl rfl rfl rfl
  have newline : Adds true true .hardLine [] := .hardLine
  have ending : Adds false true .hardLine [] := .hardLine
  have principal := Scope.adds_doc (Scope.allowed_iff_fitsEntity.mpr h.principal).hasValidNames
    "principal" (by decide) indent
  have action := Scope.adds_doc (Scope.allowed_iff_fitsAction.mpr h.action).hasValidNames
    "action" (by decide) indent
  have resource := Scope.adds_doc (Scope.allowed_iff_fitsEntity.mpr h.resource).hasValidNames
    "resource" (by decide) indent
  have scopes := newline.append (principal.append (comma.append (newline.append (action.append
    (comma.append (newline.append (resource.append .empty)))))))
  have clauses := addsAll_map (g := Clause.lexemes) fun c hc =>
    (newline.append ((Clause.adds_doc (h.conditions c hc).1.valid indent).append .empty)).of_eq
      (by simp)
  have middle : AddsAll true true _ _ := .cons effect (.cons (scopes.nest indent)
    (.cons ending (.cons (closing.anywhere true) .nil)))
  have all := (((id.append annotations).append middle).append clauses).append
    (semicolon.anywhere true).addsAll
  exact all.concat.of_eq (by simp [lexemes, headerLexemes])

/-- The text of a policy spells its tokens, whatever the options. -/
theorem Policy.spells_printAt {p : Policy} (h : p.Legible) (options : LayoutOptions)
    (place : Nat) : Spells (p.printAt options place).toList (p.lexemes place) := by
  have hdoc := (adds_doc h options.indentWidth place options.lineWidth 0 .broken [] ⟨[], 0⟩ [] .nil
    fun _ a ha => nomatch ha).1
  have newline : Spells ['\n'] [] := .blank rfl .nil
  simpa [printAt, Doc.render, Page.text] using hdoc.append newline (apart_cons rfl)

/-- **The text of a set spells its tokens**, whatever the options. -/
theorem PolicySet.spells_print {s : PolicySet} (h : ∀ p ∈ s.policies ++ s.templates, p.Legible)
    (options : LayoutOptions) : Spells (s.print options).toList s.lexemes := by
  have key : ∀ (ps : List Policy) (place : Nat), (∀ p ∈ ps, p.Legible) →
      Spells ("\n".intercalate (printFrom options place ps)).toList (lexemesFrom place ps) := by
    intro ps
    induction ps with
    | nil => exact fun place _ => .nil
    | cons p ps ih =>
        intro place hps
        have hp := Policy.spells_printAt (hps p List.mem_cons_self) options place
        have hrest := ih (place + 1) fun q hq => hps q (List.mem_cons_of_mem p hq)
        cases ps with
        | nil => simpa [printFrom, lexemesFrom] using hp
        | cons q qs =>
            have := hp.append (.blank (c := '\n') rfl hrest) (apart_cons rfl)
            simpa [printFrom, lexemesFrom] using this
  unfold print lexemes
  split
  · rename_i hnil
    cases hps : s.policies ++ s.templates with
    | nil => exact .blank rfl .nil
    | cons p ps =>
        rw [hps] at hnil
        cases hnil
  · exact key _ 0 h

end policies

end AccessPolicy
