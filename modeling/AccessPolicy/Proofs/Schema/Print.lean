import AccessPolicy.Proofs.Print.Expr
import AccessPolicy.Proofs.Schema.Parsed

/-!
# The tokens of printed schemas

* `Grammar.Prints cs ls` — the characters spell the lexemes and may stand behind an opening bracket;
  `Grammar.Follows cs ls` — they spell the lexemes and may stand behind anything.
* `SchemaType.lexemes`, `Schema.lexemes` — the tokens of types and of schemas, names relative to
  their namespace.
* **A type spells its tokens** if the names in it are type names (`SchemaType.prints_textWith`), and
  **so does a schema that can be written** (`Schema.Written.spells_text`).
-/

namespace AccessPolicy

open Grammar

/-! ### Characters in front of others -/

namespace Grammar

/-- The characters spell the lexemes and do not begin with `=`. -/
structure Prints (cs : List Char) (ls : List Lexeme) : Prop where
  /-- The lexemes are spelled. -/
  spells : Spells cs ls
  /-- The characters do not begin with `=`. -/
  head : ∀ c ∈ cs.head?, c ≠ '='

/-- The characters spell the lexemes and begin with one that may follow everything. -/
structure Follows (cs : List Char) (ls : List Lexeme) : Prop where
  /-- The lexemes are spelled. -/
  spells : Spells cs ls
  /-- The first character may follow everything. -/
  head : ∀ c ∈ cs.head?, isCloser c

variable {cs ds : List Char} {ls ms : List Lexeme} {l : Lexeme} {c : Char}

/-- What spells tokens does not begin with an equality sign, unless the first token is `==`. -/
theorem Spells.prints (h : Spells cs (l :: ls)) (hl : l ≠ .sym .eqEq) : Prints cs (l :: ls) := by
  obtain ⟨c, cs, rfl, hc⟩ := h.exists_cons hl
  refine ⟨h, fun d hd => ?_⟩
  cases hd
  exact hc

/-- What may follow everything follows a spelling. -/
theorem Spells.follow (h : Spells cs ls) (h' : Follows ds ms) : Spells (cs ++ ds) (ls ++ ms) :=
  h.append h'.spells (apart_of_head h'.head)

/-- Text that may follow anything can be put behind printed text. -/
theorem Prints.follow (h : Prints cs ls) (h' : Follows ds ms) : Prints (cs ++ ds) (ls ++ ms) := by
  refine ⟨h.spells.follow h', fun c hc => ?_⟩
  cases cs with
  | nil =>
      rintro rfl
      exact absurd (h'.head _ hc) (by decide)
  | cons d cs => exact h.head c hc

/-- Behind a character that is open, a printed text may follow. -/
theorem Prints.behind {s : Symbol} (h : Prints cs ls) (hs : s.chars = [c]) (hc : isOpener c) :
    Spells (c :: cs) (.sym s :: ls) := by
  have hfresh : Fresh s.chars := by
    rw [hs]
    exact fresh_concat [] hc
  have hspells := spells_symbol h.spells (hfresh.apart h.head)
  rwa [hs] at hspells

/-- Text that begins with a closing character may follow anything. -/
theorem Spells.follows (h : Spells (c :: cs) ls) (hc : isCloser c) : Follows (c :: cs) ls := by
  refine ⟨h, fun d hd => ?_⟩
  cases hd
  exact hc

/-- A closing symbol may follow anything if it keeps apart from what is behind it. -/
theorem follows_symbol {s : Symbol} (h : Spells cs ls) (hs : s.chars = [c]) (hc : isCloser c)
    (seam : Apart [c] cs) : Follows (c :: cs) (.sym s :: ls) := by
  have hspells := spells_symbol (s := s) h (by rwa [hs])
  rw [hs] at hspells
  exact hspells.follows hc

/-- The sign `<` keeps apart from all but an equality sign. -/
theorem apart_less (h : ∀ c ∈ cs.head?, c ≠ '=') : Apart ['<'] cs := by
  intro a ha c hc
  cases ha
  have hrest : Name.isRest '<' = false := by decide
  simp [apart, pairSymbol?, hrest, h c hc]

/-- Blanks may stand in front. -/
theorem Spells.blanks {bs : List Char} (hbs : ∀ c ∈ bs, isSpace c) (h : Spells cs ls) :
    Spells (bs ++ cs) ls := by
  induction bs with
  | nil => exact h
  | cons b bs ih =>
      obtain ⟨hb, hbs⟩ := List.forall_mem_cons.mp hbs
      exact .blank hb (ih hbs)

/-- Behind a blank any text may stand. -/
theorem Spells.follow_blank {t : String} (h : Spells t.toList ls) (h' : Follows ds ms) :
    Follows ((" " ++ t).toList ++ ds) (ls ++ ms) := by
  have hblank : Follows (' ' :: (t.toList ++ ds)) (ls ++ ms) :=
    (Spells.blank rfl (h.follow h')).follows rfl
  simpa using hblank

/-- Behind the word `in` and a blank any text may stand. -/
theorem Spells.follow_in {t : String} (h : Spells t.toList ls) (h' : Follows ds ms) :
    Follows ((" in " ++ t).toList ++ ds) (.ident "in" :: ls ++ ms) := by
  have hin := spells_keyword (h.follow h') (w := "in") (by decide)
  simpa using hin.follows rfl

/-- A part that may be left out. -/
theorem follows_optional {p : Prop} [Decidable p] {t : String}
    (h : Follows (t.toList ++ ds) (ls ++ ms)) (h' : Follows ds ms) :
    Follows ((if p then "" else t).toList ++ ds) ((if p then [] else ls) ++ ms) := by
  by_cases hp : p
  · rw [if_pos hp, if_pos hp]
    exact h'
  · rw [if_neg hp, if_neg hp]
    exact h

/-- Items with commas and blanks between them. -/
theorem prints_intercalate {css : List (List Char)} {lss : List (List Lexeme)}
    (h : List.Forall₂ Prints css lss) :
    Prints ([',', ' '].intercalate css) (separated (.sym .comma) lss) := by
  induction h with
  | nil => exact ⟨.nil, nofun⟩
  | @cons cs ls css lss hcs hcss ih =>
      cases hcss with
      | nil => simpa [separated] using hcs
      | @cons ds ms css lss hds hcss =>
          have hrest : Follows (',' :: ' ' :: [',', ' '].intercalate (ds :: css))
              (.sym .comma :: separated (.sym .comma) (ms :: lss)) :=
            follows_symbol (.blank rfl ih.spells) rfl rfl (apart_cons rfl)
          have hall := hcs.follow hrest
          simpa [separated] using hall

/-- A printed text between brackets. -/
theorem Prints.enclosed (h : Prints cs ls) (opening closing : Symbol) {a z : Char}
    (hopening : opening.chars = [a]) (ha : isOpener a) (hclosing : closing.chars = [z])
    (hz : isCloser z) : Spells (a :: cs ++ [z]) (.sym opening :: ls ++ [.sym closing]) := by
  have hlast : Follows [z] [.sym closing] := follows_symbol .nil hclosing hz (apart_nil _)
  exact (h.behind hopening ha).follow hlast

end Grammar

/-! ### Types -/

namespace SchemaType

/-- The tokens of a field, given those of its type. -/
def fieldTokens (name : String) (required : Bool) (type : List Lexeme) : List Lexeme :=
  Expr.keyLexeme name :: (if required then [] else [.sym .question]) ++ .sym .colon :: type

mutual

/-- The tokens of a type in a namespace. -/
def lexemes (space : String) : SchemaType → List Lexeme
  | bool => [.ident "Bool"]
  | long => [.ident "Long"]
  | string => [.ident "String"]
  | entity name => Name.lexemes (Schema.relativeName space name)
  | set element => .ident "Set" :: .sym .less :: lexemes space element ++ [.sym .greater]
  | record fields =>
    .sym .openBrace :: separated (.sym .comma) (fieldLexemes space fields) ++ [.sym .closeBrace]

/-- The tokens of each field of a list. -/
def fieldLexemes (space : String) : List (String × Bool × SchemaType) → List (List Lexeme)
  | [] => []
  | (k, required, t) :: fs => fieldTokens k required (lexemes space t) :: fieldLexemes space fs

end

/-- A field is printed as its name, a mark if it is optional, a colon and its type. -/
theorem prints_field (k : String) (required : Bool) {t : String} {ls : List Lexeme}
    (h : Spells t.toList ls) :
    Prints (fieldText (Schema.nameText k) required t).toList (fieldTokens k required ls) := by
  have htype : Spells (':' :: ' ' :: t.toList) (.sym .colon :: ls) :=
    spells_symbol (s := .colon) (.blank rfl h) (apart_cons rfl)
  have hname : Schema.nameText k = Expr.keyText k := rfl
  have hfield : Spells (fieldText (Schema.nameText k) required t).toList
      (fieldTokens k required ls) := by
    rw [fieldText, fieldTokens, hname]
    cases required with
    | true => simpa [mark] using spells_keyText_colon k (.blank rfl h) (apart_cons rfl)
    | false =>
        have hmark :
            Follows ('?' :: ':' :: ' ' :: t.toList) (.sym .question :: .sym .colon :: ls) :=
          follows_symbol htype rfl rfl fun a ha c hc => by cases ha; cases hc; rfl
        simpa [mark] using (spells_keyText k).follow hmark
  exact hfield.prints (Expr.keyLexeme_ne_sym k _)

/-- A type name is printed as its tokens. -/
theorem prints_typeName {name : String} (h : Name.isTypeName name) :
    Prints name.toList (Name.lexemes name) := by
  obtain ⟨s, ss, -, hl⟩ := Name.lexemes_eq_cons name
  have hspells := Name.spells_lexemes h
  rw [hl] at hspells ⊢
  exact hspells.prints nofun

theorem prints_ident {w : String} (h : Name.isIdent w) : Prints w.toList [.ident w] :=
  (Lexeme.Writes.ident h).spells.prints nofun

variable {space : String}

mutual

/-- **A type spells its tokens** if the names in it are type names. -/
theorem prints_textWith : (t : SchemaType) →
    (∀ n ∈ t.names, Name.isTypeName (Schema.relativeName space n)) →
    Prints (t.textWith Schema.nameText (Schema.relativeName space)).toList (t.lexemes space)
  | bool, _ => prints_ident (w := "Bool") (by decide)
  | long, _ => prints_ident (w := "Long") (by decide)
  | string, _ => prints_ident (w := "String") (by decide)
  | entity name, h => prints_typeName (h name List.mem_cons_self)
  | set element, h => by
      have helement := prints_textWith element h
      have hclosed := helement.follow (follows_symbol (s := .greater) .nil rfl rfl (apart_nil _))
      have hless := follows_symbol (s := .less) hclosed.spells rfl rfl (apart_less hclosed.head)
      have hset := (prints_ident (w := "Set") (by decide)).follow hless
      simpa [textWith, lexemes] using hset
  | record fields, h => by
      have hfields := prints_intercalate (prints_fieldTexts fields h)
      have hall := hfields.enclosed .openBrace .closeBrace rfl rfl rfl rfl
      have hbraces : Prints _ (.sym .openBrace :: _) := hall.prints nofun
      simpa [textWith, lexemes, String.toList_intercalate] using hbraces

/-- Each field of a record is printed as its tokens. -/
theorem prints_fieldTexts : (fs : List (String × Bool × SchemaType)) →
    (∀ n ∈ namesOfFields fs, Name.isTypeName (Schema.relativeName space n)) →
    List.Forall₂ Prints
      ((fieldTexts Schema.nameText (Schema.relativeName space) fs).map String.toList)
      (fieldLexemes space fs)
  | [], _ => .nil
  | (k, required, t) :: fs, h => by
      obtain ⟨ht, hfs⟩ := List.forall_mem_append.mp h
      exact .cons (prints_field k required (prints_textWith t ht).spells) (prints_fieldTexts fs hfs)

end

end SchemaType

/-! ### Declarations -/

namespace Schema

variable {space indent : String} {cs : List Char} {ls : List Lexeme}

/-- The tokens of a list of types. -/
def typesLexemes (space : String) (types : List String) : List Lexeme :=
  .sym .openBracket ::
    separated (.sym .comma) (types.map fun t => Name.lexemes (relativeName space t)) ++
    [.sym .closeBracket]

/-- The tokens of fields between braces. -/
def fieldsLexemes (space : String) (fields : Attributes) : List Lexeme :=
  .sym .openBrace ::
    (SchemaType.fieldLexemes space fields).flatMap (fun ls => ls ++ [.sym .comma]) ++
    [.sym .closeBrace]

/-- The tokens of the declaration of an entity type. -/
def entityLexemes (space name : String) (d : EntityDecl) : List Lexeme :=
  .ident "entity" :: .ident name ::
    ((if d.memberOf.isEmpty then [] else .ident "in" :: typesLexemes space d.memberOf) ++
    ((if d.attributes.isEmpty then [] else fieldsLexemes space d.attributes) ++
    [.sym .semicolon]))

/-- The tokens of a group. -/
def groupLexemes (space : String) (group : Uid) : List Lexeme :=
  if relativeName space group.type = "Action" then [Expr.quoted group.id] else group.lexemes

/-- The tokens of the groups of an action. -/
def groupsLexemes (space : String) (groups : List Uid) : List Lexeme :=
  .sym .openBracket :: separated (.sym .comma) (groups.map (groupLexemes space)) ++
    [.sym .closeBracket]

/-- The tokens of what an action applies to. -/
def appliesToLexemes (space : String) (d : ActionDecl) : List Lexeme :=
  .ident "appliesTo" :: .sym .openBrace ::
    .ident "principal" :: .sym .colon :: (typesLexemes space d.principalTypes ++ .sym .comma ::
    .ident "resource" :: .sym .colon :: (typesLexemes space d.resourceTypes ++ .sym .comma ::
    .ident "context" :: .sym .colon :: (fieldsLexemes space d.context ++ [.sym .closeBrace])))

/-- The tokens of the declaration of an action. -/
def actionLexemes (space name : String) (d : ActionDecl) : List Lexeme :=
  .ident "action" :: Expr.keyLexeme name ::
    ((if d.memberOf.isEmpty then [] else .ident "in" :: groupsLexemes space d.memberOf) ++
    ((if d.principalTypes.isEmpty && d.resourceTypes.isEmpty && d.context.isEmpty then []
      else appliesToLexemes space d) ++ [.sym .semicolon]))

/-- A list of entity types spells its tokens if each name is a type name. -/
theorem spells_typesText {types : List String}
    (h : ∀ t ∈ types, Name.isTypeName (relativeName space t)) :
    Spells (typesText space types).toList (typesLexemes space types) := by
  have hitems : List.Forall₂ Prints ((types.map (relativeName space)).map String.toList)
      (types.map fun t => Name.lexemes (relativeName space t)) := by
    rw [List.map_map, List.forall₂_map_left_iff, List.forall₂_map_right_iff, List.forall₂_same]
    exact fun t ht => SchemaType.prints_typeName (h t ht)
  have hall := (prints_intercalate hitems).enclosed .openBracket .closeBracket
    rfl rfl rfl rfl
  simpa [typesText, typesLexemes, String.toList_intercalate] using hall

/-- A group of actions spells its tokens if it is a valid uid. -/
theorem spells_groupText {g : Uid} (h : g.isValid) :
    Prints (groupText space g).toList (groupLexemes space g) := by
  unfold groupText groupLexemes
  split
  · have hquoted := (spells_quoted g.id).prints (by simp [Expr.quoted])
    simpa [Quoted.quote] using hquoted
  · obtain ⟨s, ls, hl⟩ := g.lexemes_eq_cons
    have hspells := Uid.spells h
    rw [hl] at hspells ⊢
    rw [Uid.text, String.toList_ofList]
    exact hspells.prints (by simp)

/-- A list of groups spells its tokens if each is a valid uid. -/
theorem spells_groups (space : String) {groups : List Uid} (h : ∀ g ∈ groups, g.isValid) :
    Spells ("[" ++ ", ".intercalate (groups.map (groupText space)) ++ "]").toList
      (groupsLexemes space groups) := by
  have hitems : List.Forall₂ Prints ((groups.map (groupText space)).map String.toList)
      (groups.map (groupLexemes space)) := by
    rw [List.map_map, List.forall₂_map_left_iff, List.forall₂_map_right_iff, List.forall₂_same]
    exact fun g hg => spells_groupText (h g hg)
  have hall := (prints_intercalate hitems).enclosed .openBracket .closeBracket
    rfl rfl rfl rfl
  simpa [groupsLexemes, String.toList_intercalate] using hall

/-- No indentation is blank. -/
theorem isSpace_none : ∀ c ∈ "".toList, isSpace c := by
  rw [String.toList_empty]
  exact List.forall_mem_nil _

/-- One level more of indentation is blank. -/
theorem isSpace_deeper (hindent : ∀ c ∈ indent.toList, isSpace c) :
    ∀ c ∈ (indent ++ "  ").toList, isSpace c := by
  rw [String.toList_append]
  refine List.forall_mem_append.mpr ⟨hindent, fun c hc => ?_⟩
  obtain rfl : c = ' ' := by simpa using hc
  rfl

/-- The lines of fields, in front of what follows. -/
theorem spells_lines (hindent : ∀ c ∈ indent.toList, isSpace c) (h : Spells cs ls) :
    (fs : Attributes) →
    (∀ n ∈ SchemaType.namesOfFields fs, Name.isTypeName (relativeName space n)) →
    Spells ((String.join (fs.map fun f => indent ++ "  " ++
        SchemaType.fieldText (nameText f.1) f.2.1 (f.2.2.textWith nameText (relativeName space)) ++
        ",\n")).toList ++ cs)
      ((SchemaType.fieldLexemes space fs).flatMap (fun ls => ls ++ [.sym .comma]) ++ ls)
  | [], _ => h
  | (k, required, t) :: fs, hnames => by
      obtain ⟨ht, hfs⟩ := List.forall_mem_append.mp hnames
      have hrest := spells_lines hindent h fs hfs
      have hcomma := follows_symbol (s := .comma) (.blank (c := '\n') rfl hrest) rfl rfl
        (apart_cons rfl)
      have hfield := SchemaType.prints_field k required (SchemaType.prints_textWith t ht).spells
      have hline := (hfield.follow hcomma).spells
      simpa [SchemaType.fieldLexemes] using hline.blanks (isSpace_deeper hindent)

/-- Attributes, one to a line, spell the same tokens at every indentation. -/
theorem spells_fieldsText (hindent : ∀ c ∈ indent.toList, isSpace c) {fields : Attributes}
    (h : ∀ n ∈ SchemaType.namesOfFields fields, Name.isTypeName (relativeName space n)) :
    Spells (fieldsText space indent fields).toList (fieldsLexemes space fields) := by
  have hclose : Spells (indent.toList ++ ['\x7d']) [.sym .closeBrace] :=
    (Lexeme.Writes.sym .closeBrace).spells.blanks hindent
  unfold fieldsText fieldsLexemes
  split
  · rename_i hempty
    rw [List.isEmpty_iff.mp hempty]
    exact spells_symbol (s := .openBrace) (Lexeme.Writes.sym .closeBrace).spells (by decide)
  · have hlines := spells_lines hindent hclose fields h
    have hopen := spells_symbol (s := .openBrace) (.blank (c := '\n') rfl hlines) (apart_cons rfl)
    simpa [Symbol.chars] using hopen

/-- The declaration of an entity type, in front of what follows. -/
theorem spells_entityText (hindent : ∀ c ∈ indent.toList, isSpace c) {name : String}
    {d : EntityDecl} (hname : Name.isIdent name)
    (hparents : ∀ t ∈ d.memberOf, Name.isTypeName (relativeName space t))
    (hfields : ∀ n ∈ SchemaType.namesOfFields d.attributes, Name.isTypeName (relativeName space n))
    (h : Spells cs ls) :
    Spells ((entityText space indent name d).toList ++ cs)
      (entityLexemes space name d ++ ls) := by
  have hend : Follows (';' :: '\n' :: cs) (.sym .semicolon :: ls) :=
    follows_symbol (.blank rfl h) rfl rfl (apart_cons rfl)
  have hattributes := follows_optional (p := d.attributes.isEmpty)
    ((spells_fieldsText hindent hfields).follow_blank hend) hend
  have hmemberOf := follows_optional (p := d.memberOf.isEmpty)
    ((spells_typesText hparents).follow_in hattributes) hattributes
  have hdeclared := (Lexeme.Writes.ident hname).spells.follow hmemberOf
  have hentity := spells_word (w := "entity") (.blank (c := ' ') rfl hdeclared) (by decide)
    (apart_cons rfl)
  simpa [entityText, entityLexemes] using hentity.blanks hindent

/-- An entry of what an action applies to, in front of what follows. -/
theorem spells_entry (hindent : ∀ c ∈ indent.toList, isSpace c) {k : String}
    (hk : Name.isIdent k) {t : String} {ms : List Lexeme} (ht : Spells t.toList ms)
    (h : Follows cs ls) :
    Spells (indent.toList ++ (k.toList ++ ':' :: ' ' :: (t.toList ++ cs)))
      (.ident k :: .sym .colon :: (ms ++ ls)) := by
  have hvalue := spells_symbol (s := .colon) (.blank (c := ' ') rfl (ht.follow h)) (apart_cons rfl)
  refine (spells_word hvalue hk fun a ha c hc => apart_of_isRest ?_).blanks hindent
  cases hc
  rw [Name.isRest_of_isIdentChars hk a (List.mem_of_getLast? ha)]
  decide

/-- What an action applies to, in front of what follows. -/
theorem spells_appliesToText (hindent : ∀ c ∈ indent.toList, isSpace c) {d : ActionDecl}
    (hprincipal : ∀ t ∈ d.principalTypes, Name.isTypeName (relativeName space t))
    (hresource : ∀ t ∈ d.resourceTypes, Name.isTypeName (relativeName space t))
    (hcontext : ∀ n ∈ SchemaType.namesOfFields d.context, Name.isTypeName (relativeName space n))
    (h : Follows cs ls) :
    Follows ((appliesToText space indent d).toList ++ cs) (appliesToLexemes space d ++ ls) := by
  have hinner := isSpace_deeper hindent
  have hend : Follows ('\n' :: (indent.toList ++ '\x7d' :: cs)) (.sym .closeBrace :: ls) := by
    have hclose : Spells ('\x7d' :: cs) (.sym .closeBrace :: ls) :=
      (Lexeme.Writes.sym .closeBrace).spells.follow h
    exact (Spells.blank rfl (hclose.blanks hindent)).follows rfl
  have hcomma : ∀ {ds : List Char} {ms : List Lexeme}, Spells ds ms →
      Follows (',' :: '\n' :: ds) (.sym .comma :: ms) :=
    fun hds => follows_symbol (.blank rfl hds) rfl rfl (apart_cons rfl)
  have hcontext := spells_entry hinner (k := "context") (by decide)
    (spells_fieldsText hinner hcontext) hend
  have hresource := spells_entry hinner (k := "resource") (by decide)
    (spells_typesText hresource) (hcomma hcontext)
  have hprincipal := spells_entry hinner (k := "principal") (by decide)
    (spells_typesText hprincipal) (hcomma hresource)
  have hopen := spells_symbol (s := .openBrace) (.blank (c := '\n') rfl hprincipal) (apart_cons rfl)
  have hall := (spells_keyword hopen (w := "appliesTo") (by decide)).follows rfl
  unfold appliesToText appliesToLexemes
  simpa [Symbol.chars] using hall

/-- The declaration of an action, in front of what follows. -/
theorem spells_actionText (hindent : ∀ c ∈ indent.toList, isSpace c) {name : String}
    {d : ActionDecl} (hgroups : ∀ g ∈ d.memberOf, g.isValid)
    (hprincipal : ∀ t ∈ d.principalTypes, Name.isTypeName (relativeName space t))
    (hresource : ∀ t ∈ d.resourceTypes, Name.isTypeName (relativeName space t))
    (hcontext : ∀ n ∈ SchemaType.namesOfFields d.context, Name.isTypeName (relativeName space n))
    (h : Spells cs ls) :
    Spells ((actionText space indent name d).toList ++ cs)
      (actionLexemes space name d ++ ls) := by
  have hend : Follows (';' :: '\n' :: cs) (.sym .semicolon :: ls) :=
    follows_symbol (.blank rfl h) rfl rfl (apart_cons rfl)
  have happliesTo := follows_optional
    (p := d.principalTypes.isEmpty && d.resourceTypes.isEmpty && d.context.isEmpty)
    (spells_appliesToText hindent hprincipal hresource hcontext hend) hend
  have hmemberOf := follows_optional (p := d.memberOf.isEmpty)
    ((spells_groups space hgroups).follow_in happliesTo) happliesTo
  have hdeclared := (spells_keyText name).follow hmemberOf
  have haction := spells_word (w := "action") (.blank (c := ' ') rfl hdeclared) (by decide)
    (apart_cons rfl)
  have hname : nameText name = Expr.keyText name := rfl
  have hbracket : " in [" ++ ", ".intercalate (d.memberOf.map (groupText space)) ++ "]" =
      " in " ++ ("[" ++ ", ".intercalate (d.memberOf.map (groupText space)) ++ "]") :=
    String.toList_inj.mp (by simp)
  simpa [actionText, actionLexemes, hname, hbracket] using haction.blanks hindent

/-! ### Schemas -/

/-- The tokens of the declarations of a namespace. -/
def declarationLexemes (s : Schema) (space : String) : List Lexeme :=
  (s.typesIn space).flatMap (fun t => entityLexemes space t.1 t.2) ++
    (s.actionsIn space).flatMap fun a => actionLexemes space a.1 a.2

/-- The tokens of a namespace. -/
def spaceLexemes (s : Schema) (space : String) : List Lexeme :=
  if space.isEmpty then s.declarationLexemes space
  else
    .ident "namespace" :: (Name.lexemes space ++
      .sym .openBrace :: (s.declarationLexemes space ++ [.sym .closeBrace]))

/-- The tokens of a schema. -/
def lexemes (s : Schema) : List Lexeme :=
  s.spaces.flatMap s.spaceLexemes

/-- Declarations that are spelled one by one, in front of what follows. -/
theorem spells_flatMap {α : Type} {text : α → String} {lexemes : α → List Lexeme} {xs : List α}
    (hxs : ∀ x ∈ xs, ∀ {cs : List Char} {ls : List Lexeme}, Spells cs ls →
      Spells ((text x).toList ++ cs) (lexemes x ++ ls)) (h : Spells cs ls) :
    Spells ((xs.flatMap fun x => (text x).toList) ++ cs) (xs.flatMap lexemes ++ ls) := by
  induction xs with
  | nil => exact h
  | cons x xs ih =>
      obtain ⟨hx, hxs⟩ := List.forall_mem_cons.mp hxs
      rw [List.flatMap_cons, List.flatMap_cons, List.append_assoc, List.append_assoc]
      exact hx (ih hxs)

namespace Written

variable {s : Schema} (hs : s.Written)

include hs

/-- The declarations of a namespace, in front of what follows. -/
theorem spells_declarations (hindent : ∀ c ∈ indent.toList, Grammar.isSpace c)
    (h : Spells cs ls) :
    Spells ((String.join ((s.typesIn space).map (fun t => entityText space indent t.1 t.2) ++
        (s.actionsIn space).map fun a => actionText space indent a.1 a.2)).toList ++ cs)
      (s.declarationLexemes space ++ ls) := by
  have htypes : ∀ t ∈ s.typesIn space, ∀ {cs : List Char} {ls : List Lexeme}, Spells cs ls →
      Spells ((entityText space indent t.1 t.2).toList ++ cs)
        (entityLexemes space t.1 t.2 ++ ls) := by
    intro t ht cs ls h
    obtain ⟨hname, e, he, hd⟩ := hs.of_mem_typesIn ht
    rw [hd]
    exact spells_entityText hindent hname
      (fun t ht => hs.isTypeName_type (hs.parents e he t ht) space)
      (fun n hn => hs.isTypeName_type ((hs.attributes e he).2 n hn) space) h
  have hactions : ∀ a ∈ s.actionsIn space, ∀ {cs : List Char} {ls : List Lexeme}, Spells cs ls →
      Spells ((actionText space indent a.1 a.2).toList ++ cs)
        (actionLexemes space a.1 a.2 ++ ls) := by
    intro a ha cs ls h
    obtain ⟨e, hmem, -, rfl⟩ := mem_actionsIn.mp ha
    exact spells_actionText hindent
      (fun g hg => hs.isValid_action (hs.groups e hmem g hg))
      (fun t ht => hs.isTypeName_type ((hs.appliesTo e hmem).1 t ht) space)
      (fun t ht => hs.isTypeName_type ((hs.appliesTo e hmem).2 t ht) space)
      (fun n hn => hs.isTypeName_type ((hs.context e hmem).2 n hn) space) h
  have hall := spells_flatMap htypes (spells_flatMap hactions h)
  simpa [declarationLexemes, String.toList_join, List.flatMap_map] using hall

/-- A namespace, in front of what follows. -/
theorem spells_spaceText (hspace : IsSpace space) (h : Spells cs ls) :
    Spells ((s.spaceText space).toList ++ cs) (s.spaceLexemes space ++ ls) := by
  rw [spaceText, spaceLexemes]
  by_cases hempty : space = ""
  · subst hempty
    exact hs.spells_declarations isSpace_none h
  · have hne : ¬space.isEmpty := by simpa using hempty
    simp only [if_neg hne]
    have hclose : Spells ('\x7d' :: '\n' :: cs) (.sym .closeBrace :: ls) :=
      spells_symbol (s := .closeBrace) (.blank rfl h) (apart_cons rfl)
    have hblanks : ∀ c ∈ "  ".toList, Grammar.isSpace c := isSpace_deeper isSpace_none
    have hdeclarations : Spells _ (s.declarationLexemes space ++ _) :=
      hs.spells_declarations hblanks hclose
    have hopen := spells_symbol (s := .openBrace) (.blank (c := '\n') rfl hdeclarations)
      (apart_cons rfl)
    have hname := (Name.spells_lexemes (hspace.resolve_left hempty)).follow
      ((Spells.blank (c := ' ') rfl hopen).follows rfl)
    have hnamespace := spells_word (w := "namespace") (.blank (c := ' ') rfl hname) (by decide)
      (apart_cons rfl)
    simpa [Symbol.chars] using hnamespace

/-- **A schema that can be written** spells its tokens. -/
theorem spells_text : Spells s.text.toList s.lexemes := by
  have hall := spells_flatMap (fun space hspace => hs.spells_spaceText (hs.isSpace hspace)) .nil
  simpa [text, lexemes, String.toList_join, List.flatMap_map] using hall

end Written

end Schema

end AccessPolicy
