import AccessPolicy.Proofs.Parse.Gives
import AccessPolicy.Proofs.Parse.Policy
import AccessPolicy.Proofs.Schema.Print

/-!
# Reading printed schemas

* `SchemaType.asRead` — what the text of a type inside a namespace is read as: the type in its
  relative form, but for the entity types whose relative name is that of a built-in type. It is
  resolved to the type that was printed only if there are none
  (`Schema.Declared.relativeName_not_mem_builtIn`).
* `Grammar.gives_trailingUntil` — lists are read with a comma behind the last item or without one.
* `Grammar.gives_schemaType`, `Grammar.gives_entityDeclaration`, `Grammar.gives_actionDeclaration` —
  **the printed types and declarations are read as said.** Only a type called `Set` may not be read.
* `Grammar.Declares` — what the tokens of a declaration add to a section; `Grammar.Continues` — a
  reader goes on behind a declaration, so that it reads them all (`Grammar.Continues.each`).
-/

namespace AccessPolicy

/-! ### What reading makes of a printed type -/

namespace SchemaType

/-- The names that are not read as names of entity types. -/
def builtIn : List String :=
  ["Bool", "Boolean", "Long", "String", "Set"]

/-- What a name is read as, where a type is wanted. What stands for `Set` alone is never given. -/
def ofName (name : String) : SchemaType :=
  if name = "Long" then long
  else if name = "String" then string
  else if name ∈ builtIn then bool
  else entity name

mutual

/-- What the text of a type inside a namespace is read as. -/
def asRead (space : String) : SchemaType → SchemaType
  | bool => bool
  | long => long
  | string => string
  | entity name => ofName (Schema.relativeName space name)
  | set element => set (asRead space element)
  | record fields => record (asReadFields space fields)

/-- What the texts of fields inside a namespace are read as. -/
def asReadFields (space : String) :
    List (String × Bool × SchemaType) → List (String × Bool × SchemaType)
  | [] => []
  | (k, r, t) :: fs => (k, r, asRead space t) :: asReadFields space fs

end

/-- A name that is not built in is read as that of an entity type. -/
theorem ofName_of_not_mem {name : String} (h : name ∉ builtIn) : ofName name = entity name := by
  have hlong : name ≠ "Long" := fun heq => h (heq ▸ by decide)
  have hstring : name ≠ "String" := fun heq => h (heq ▸ by decide)
  rw [ofName, if_neg hlong, if_neg hstring, if_neg h]

/-- The name of a built-in type is not read as that of an entity type. -/
theorem ofName_of_mem {name : String} (h : name ∈ builtIn) :
    ofName name = long ∨ ofName name = string ∨ ofName name = bool := by
  unfold ofName
  split
  · exact .inl rfl
  · split
    · exact .inr (.inl rfl)
    · exact .inr (.inr rfl)

mutual

/-- A type that names no built-in type is read as it is written. -/
theorem asRead_eq_relative {space : String} : (t : SchemaType) →
    (∀ n ∈ t.names, Schema.relativeName space n ∉ builtIn) → t.asRead space = t.relative space
  | .bool, _ | .long, _ | .string, _ => rfl
  | .entity name, h => ofName_of_not_mem (h name (List.mem_singleton_self name))
  | .set element, h => congrArg set (asRead_eq_relative element h)
  | .record fields, h => congrArg record (asReadFields_eq_relativeFields fields h)

/-- Fields are read in their relative form if no relative name in them is built in. -/
theorem asReadFields_eq_relativeFields {space : String} :
    (fs : List (String × Bool × SchemaType)) →
      (∀ n ∈ namesOfFields fs, Schema.relativeName space n ∉ builtIn) →
        asReadFields space fs = relativeFields space fs
  | [], _ => rfl
  | (k, r, t) :: fs, h => by
      obtain ⟨ht, hfs⟩ := List.forall_mem_append.mp h
      rw [asReadFields, relativeFields, asRead_eq_relative t ht,
        asReadFields_eq_relativeFields fs hfs]

end

/-- What fields are read as has their names. -/
theorem keys_asReadFields (space : String) (fs : List (String × Bool × SchemaType)) :
    Ascending.keys (asReadFields space fs) = Ascending.keys fs := by
  induction fs with
  | nil => rfl
  | cons f fs ih => exact congrArg (f.1 :: ·) ih

end SchemaType

/-- What the text of an entity type inside a namespace is read as. -/
def EntityDecl.asRead (space : String) (d : EntityDecl) : EntityDecl :=
  { d.relative space with attributes := SchemaType.asReadFields space d.attributes }

/-- What the text of an action inside a namespace is read as. -/
def ActionDecl.asRead (space : String) (d : ActionDecl) : ActionDecl :=
  { d.relative space with context := SchemaType.asReadFields space d.context }

/-- A section with one more entity type. -/
def Section.addType (x : Section) (t : String × EntityDecl) : Section :=
  { x with entityTypes := x.entityTypes ++ [t] }

/-- A section with one more action. -/
def Section.addAction (x : Section) (a : String × ActionDecl) : Section :=
  { x with actions := x.actions ++ [a] }

/-- Adding entity types one by one puts them all behind those of the section. -/
theorem Section.foldl_addType {f : String × EntityDecl → String × EntityDecl}
    (ts : List (String × EntityDecl)) (x : Section) :
    ts.foldl (fun x t => x.addType (f t)) x =
      { x with entityTypes := x.entityTypes ++ ts.map f } := by
  induction ts generalizing x with
  | nil => simp
  | cons t ts ih =>
      rw [List.foldl_cons, ih]
      simp [Section.addType]

/-- Adding actions one by one puts them all behind those of the section. -/
theorem Section.foldl_addAction {f : String × ActionDecl → String × ActionDecl}
    (as : List (String × ActionDecl)) (x : Section) :
    as.foldl (fun x a => x.addAction (f a)) x = { x with actions := x.actions ++ as.map f } := by
  induction as generalizing x with
  | nil => simp
  | cons a as ih =>
      rw [List.foldl_cons, ih]
      simp [Section.addAction]

namespace Schema.Declared

variable {declared : Declared} {space : String}

mutual

/-- **A type that is resolved to what its text was printed of** names no built-in type: in its place
the text has lost an entity type. -/
theorem relativeName_not_mem_builtIn : (t : SchemaType) → {path : String} →
    declared.schemaType space (t.asRead space) path = .ok t →
      ∀ n ∈ t.names, relativeName space n ∉ SchemaType.builtIn
  | .bool, _, _ | .long, _, _ | .string, _, _ => List.forall_mem_nil _
  | .entity name, path, h => by
      refine List.forall_mem_singleton.mpr fun hmem => ?_
      have hresolved : declared.schemaType space (.ofName (relativeName space name)) path =
          .ok (.entity name) := h
      rcases SchemaType.ofName_of_mem hmem with hread | hread | hread <;>
        (rw [hread] at hresolved; cases hresolved)
  | .set element, _, h => by
      obtain ⟨e, he, heq⟩ := map_eq_ok.mp h
      rw [SchemaType.set.inj heq] at he
      have helement : ∀ n ∈ element.names, relativeName space n ∉ SchemaType.builtIn :=
        relativeName_not_mem_builtIn element he
      exact helement
  | .record fields, _, h => by
      obtain ⟨fs, hfs, heq⟩ := map_eq_ok.mp h
      rw [SchemaType.record.inj heq] at hfs
      exact relativeName_not_mem_builtIn_of_fields fields hfs

/-- If the types of fields are resolved to what was printed, no relative name in them is built
in. -/
theorem relativeName_not_mem_builtIn_of_fields : (fs : List (String × Bool × SchemaType)) →
    {path : String} → declared.attributes space (SchemaType.asReadFields space fs) path = .ok fs →
      ∀ n ∈ SchemaType.namesOfFields fs, relativeName space n ∉ SchemaType.builtIn
  | [], _, _ => List.forall_mem_nil _
  | (k, r, t) :: fs, _, h => by
      rw [SchemaType.asReadFields, Declared.attributes] at h
      split at h
      · cases h
      · rename_i t' ht
        obtain ⟨gs, hgs, heq⟩ := map_eq_ok.mp h
        obtain ⟨hfield, hfields⟩ := List.cons.inj heq
        have htype : t' = t := congrArg (·.2.2) hfield
        rw [htype] at ht
        rw [hfields] at hgs
        exact List.forall_mem_append.mpr
          ⟨relativeName_not_mem_builtIn t ht, relativeName_not_mem_builtIn_of_fields fs hgs⟩

end

end Schema.Declared

namespace Grammar

open Grammar.Parser

variable {α β : Type} {fails : Prop} {l : Lexeme} {ls ms ns : List Lexeme} {a : α} {b : β}

/-! ### Lists with commas between or behind the items -/

/-- An item of a list: it is read in front of a comma and of the closing symbol, and does not begin
with that symbol. -/
structure ItemGives (fails : Prop) (close : Symbol) (item : Parser α) (a : α) (ls : List Lexeme) :
    Prop where
  /-- It is not empty, and does not begin with the closing symbol. -/
  head : ∃ l ls', ls = l :: ls' ∧ l ≠ .sym close
  /-- It is read. -/
  gives : ∀ ms, ms.head? = some (.sym .comma) ∨ ms.head? = some (.sym close) →
    Gives fails item (ls ++ ms) a ms

/-- The tokens of items with commas between them, or behind each of them. -/
inductive Listed (lss : List (List Lexeme)) : List Lexeme → Prop
  | between : Listed lss (separated (.sym .comma) lss)
  | behind : Listed lss (lss.flatMap fun ls => ls ++ [.sym .comma])

/-- If each list grows, all together are at least as long as their number, and as long as each of
them. -/
theorem length_le_flatMap {f : List Lexeme → List Lexeme} (lss : List (List Lexeme))
    (hf : ∀ ls, ls.length < (f ls).length) :
    lss.length ≤ (lss.flatMap f).length ∧ ∀ ls ∈ lss, ls.length ≤ (lss.flatMap f).length := by
  induction lss with
  | nil => exact ⟨Nat.le_refl _, List.forall_mem_nil _⟩
  | cons ls lss ih =>
      have hls := hf ls
      rw [List.flatMap_cons, List.length_append, List.length_cons]
      refine ⟨by omega, List.forall_mem_cons.mpr ⟨by omega, fun ls' hls' => ?_⟩⟩
      exact Nat.le_trans (ih.2 ls' hls') (Nat.le_add_left _ _)

/-- A list has about as many tokens as items, and no fewer than each of its items. -/
theorem Listed.length_le {lss : List (List Lexeme)} {body : List Lexeme} (h : Listed lss body) :
    lss.length ≤ body.length + 1 ∧ ∀ ls ∈ lss, ls.length ≤ body.length := by
  cases h with
  | behind =>
      obtain ⟨hcount, hitems⟩ := length_le_flatMap lss
        (f := fun ls => ls ++ [.sym .comma]) fun ls => by simp
      exact ⟨Nat.le_succ_of_le hcount, hitems⟩
  | between =>
      cases lss with
      | nil => exact ⟨Nat.zero_le _, List.forall_mem_nil _⟩
      | cons ls lss =>
          obtain ⟨hcount, hitems⟩ := length_le_flatMap lss
            (f := fun ls => .sym .comma :: ls) fun ls => by simp
          rw [separated, List.length_append, List.length_cons]
          refine ⟨by omega, List.forall_mem_cons.mpr ⟨Nat.le_add_right _ _, fun ls' hls' => ?_⟩⟩
          exact Nat.le_trans (hitems ls' hls') (Nat.le_add_left _ _)

variable {close : Symbol} {item : Parser α} {as : List α} {lss : List (List Lexeme)}

/-- Items with a comma behind each are read up to the closing symbol. -/
theorem gives_trailing_behind
    (h : List.Forall₂ (ItemGives fails close item) as lss) : ∀ count > lss.length,
    Gives fails (trailing close item count)
      ((lss.flatMap fun ls => ls ++ [.sym .comma]) ++ .sym close :: ms) as ms := by
  induction h with
  | nil =>
      intro count hcount
      obtain ⟨count, rfl⟩ := Nat.exists_eq_add_one_of_ne_zero (Nat.ne_zero_of_lt hcount)
      exact yields_eat.andThen yields_pure.gives
  | @cons a ls as lss ha has ih =>
      intro count hcount
      rw [List.length_cons] at hcount
      obtain ⟨count, rfl⟩ := Nat.exists_eq_add_one_of_ne_zero (Nat.ne_zero_of_lt hcount)
      obtain ⟨l, ls', rfl, hl⟩ := ha.head
      have hsplit :
          ((l :: ls') :: lss).flatMap (fun ls => ls ++ [.sym .comma]) ++ .sym close :: ms =
            (l :: ls') ++ .sym .comma ::
              ((lss.flatMap fun ls => ls ++ [.sym .comma]) ++ .sym close :: ms) := by
        simp
      rw [hsplit, trailing]
      refine (yields_eat_of_ne (by simpa using hl)).andThen ?_
      refine (ha.gives _ (.inl rfl)).bind (yields_eat.andThen ?_)
      exact (ih count (by omega)).bind yields_pure.gives

/-- Items with commas between them are read up to the closing symbol. -/
theorem gives_trailing_between (hclose : close ≠ .comma)
    (h : List.Forall₂ (ItemGives fails close item) as lss) : ∀ count > lss.length,
    Gives fails (trailing close item count)
      (separated (.sym .comma) lss ++ .sym close :: ms) as ms := by
  induction h with
  | nil =>
      intro count hcount
      obtain ⟨count, rfl⟩ := Nat.exists_eq_add_one_of_ne_zero (Nat.ne_zero_of_lt hcount)
      exact yields_eat.andThen yields_pure.gives
  | @cons a ls as lss ha has ih =>
      intro count hcount
      rw [List.length_cons] at hcount
      obtain ⟨count, rfl⟩ := Nat.exists_eq_add_one_of_ne_zero (Nat.ne_zero_of_lt hcount)
      obtain ⟨l, ls', rfl, hl⟩ := ha.head
      rw [trailing]
      -- The last item is followed by the closing symbol, any other by a comma.
      cases has with
      | nil =>
          rw [separated, List.flatMap_nil, List.append_nil]
          refine (yields_eat_of_ne (by simpa using hl)).andThen ?_
          refine (ha.gives _ (.inr rfl)).bind ?_
          refine (yields_eat_of_ne (by simpa using hclose)).andThen ?_
          exact yields_expect.andThen yields_pure.gives
      | @cons a' ls'' as lss ha' has =>
          have hsep : separated (.sym .comma) ((l :: ls') :: ls'' :: lss) ++ .sym close :: ms =
              (l :: ls') ++ .sym .comma ::
                (separated (.sym .comma) (ls'' :: lss) ++ .sym close :: ms) := by
            simp [separated]
          rw [hsep]
          refine (yields_eat_of_ne (by simpa using hl)).andThen ?_
          refine (ha.gives _ (.inl rfl)).bind (yields_eat.andThen ?_)
          exact (ih count (by omega)).bind yields_pure.gives

/-- A list is read, whether its last item has a comma behind it or not. -/
theorem gives_trailingUntil (hclose : close ≠ .comma)
    (h : List.Forall₂ (ItemGives fails close item) as lss) {body : List Lexeme}
    (hbody : Listed lss body) :
    Gives fails (trailingUntil close item) (body ++ .sym close :: ms) as ms := by
  have hcount : (body ++ .sym close :: ms).length + 1 > lss.length := by
    have hlength := hbody.length_le.1
    rw [List.length_append, List.length_cons]
    omega
  unfold trailingUntil
  refine yields_remaining.andThen ?_
  cases hbody with
  | between => exact gives_trailing_between hclose h _ hcount
  | behind => exact gives_trailing_behind h _ hcount

/-! ### Types -/

/-- What may stand behind a type: another type ends, or a field. -/
def endsType (l? : Option Lexeme) : Prop :=
  l? = some (.sym .comma) ∨ l? = some (.sym .closeBrace) ∨ l? = some (.sym .greater)

/-- Behind a type stands a comma, a brace or a greater sign, and no other symbol. -/
theorem ne_of_endsType {s : Symbol} (h : endsType ls.head?) (hcomma : s ≠ .comma)
    (hbrace : s ≠ .closeBrace) (hgreater : s ≠ .greater) : ls.head? ≠ some (.sym s) := by
  rcases h with h | h | h <;> rw [h] <;> simpa using Ne.symm ‹_›

/-- A name where a type is wanted; `Set` alone is complained about. -/
theorem gives_typeOfName {name : String} (hset : name = "Set" → fails) (hms : endsType ms.head?)
    (count : Nat) :
    Gives fails (schemaType (count + 1)) (Name.lexemes name ++ ms) (SchemaType.ofName name) ms := by
  obtain ⟨s, ss, -, hl⟩ := Name.lexemes_eq_cons name
  have hbrace : (Name.lexemes name ++ ms).head? ≠ some (.sym .openBrace) := by
    simp [hl]
  have hsep := ne_of_endsType (s := .pathSep) hms (by decide) (by decide) (by decide)
  unfold schemaType
  refine yields_peek.andThen ?_
  rw [if_neg hbrace]
  refine (yields_typeName hsep).andThen ?_
  by_cases hlong : name = "Long"
  · subst hlong
    exact yields_pure.gives
  by_cases hstring : name = "String"
  · subst hstring
    exact yields_pure.gives
  by_cases hbool : name = "Bool" ∨ name = "Boolean"
  · rw [if_pos hbool]
    rcases hbool with rfl | rfl <;> exact yields_pure.gives
  by_cases hset' : name = "Set"
  · -- An element type is wanted behind the word, but a name stands alone.
    subst hset'
    have hless := ne_of_endsType (s := .less) hms (by decide) (by decide) (by decide)
    exact gives_expect_of_ne (hset rfl) hless
  · rw [if_neg hbool, if_neg hlong, if_neg hstring, if_neg hset']
    have hbuiltIn : name ∉ SchemaType.builtIn := by
      simpa [SchemaType.builtIn, hlong, hstring, hset'] using hbool
    rw [SchemaType.ofName_of_not_mem hbuiltIn]
    exact yields_pure.gives

/-- The word of a built-in type. -/
theorem gives_typeOfWord {w : String} (hw : Name.isIdent w) (hset : w ≠ "Set") {count : Nat}
    (hcount : count ≥ [Lexeme.ident w].length) (hms : endsType ms.head?) :
    Gives fails (schemaType count) ([.ident w] ++ ms) (SchemaType.ofName w) ms := by
  obtain ⟨count, rfl⟩ := Nat.exists_eq_add_one_of_ne_zero (Nat.ne_zero_of_lt hcount)
  rw [← Name.lexemes_of_isIdent hw]
  exact gives_typeOfName (fun h => absurd h hset) hms count

/-- A field is read in a list of fields. -/
theorem itemGives_field (k : String) (required : Bool) {type : Parser SchemaType} {t : SchemaType}
    {ls : List Lexeme} (htype : ∀ ms, endsType ms.head? → Gives fails type (ls ++ ms) t ms) :
    ItemGives fails .closeBrace (schemaField type) (k, required, t)
      (SchemaType.fieldTokens k required ls) := by
  constructor
  · exact ⟨_, _, rfl, Expr.keyLexeme_ne_sym k _⟩
  · intro ms hms
    have hend : endsType ms.head? := hms.imp_right .inl
    unfold schemaField
    rw [SchemaType.fieldTokens]
    refine (yields_keyLexeme k).andThen ?_
    cases required with
    | true =>
        refine (yields_eat_of_ne (by simp)).andThen ?_
        exact yields_expect.andThen ((htype ms hend).bind yields_pure.gives)
    | false =>
        refine yields_eat.andThen ?_
        exact yields_expect.andThen ((htype ms hend).bind yields_pure.gives)

/-- Fields with ascending names are the attributes that they make. -/
theorem gives_attributesOf {fs : Attributes} : ∀ seen : Attributes,
    Ascending.Sorted (Ascending.keys (seen ++ fs)) →
      Gives fails (attributesOf fs seen) ms (seen ++ fs) ms := by
  induction fs with
  | nil =>
      intro seen _
      rw [List.append_nil]
      exact yields_pure.gives
  | cons f fs ih =>
      intro seen hsorted
      obtain ⟨k, required, t⟩ := f
      have hlt : ∀ m ∈ seen, compare m.1 k = .lt := by
        rw [Ascending.keys, List.map_append] at hsorted
        intro m hm
        exact (List.pairwise_append.mp hsorted).2.2 m.1 (List.mem_map_of_mem hm) k
          List.mem_cons_self
      have hnew : Ascending.hasKey k seen = false := by
        refine Bool.eq_false_iff.mpr fun hkey => ?_
        obtain ⟨v, hv⟩ := Option.isSome_iff_exists.mp hkey
        have hself : compare k k = .lt := hlt _ (Ascending.mem_of_get? hv)
        rw [Std.compare_self] at hself
        cases hself
      -- What was seen lies below what is to come, so that each field goes to the end.
      have hput : Ascending.put k (required, t) seen = seen ++ [(k, required, t)] :=
        Ascending.put_append_of_lt hlt
      rw [attributesOf, hnew, if_neg Bool.false_ne_true, hput]
      have hsplit : seen ++ (k, required, t) :: fs = (seen ++ [(k, required, t)]) ++ fs := by simp
      rw [hsplit] at hsorted ⊢
      exact ih _ hsorted

/-- The fields of a record are read. -/
theorem gives_recordType {type : Parser SchemaType} {fs : Attributes} {lss : List (List Lexeme)}
    (h : List.Forall₂ (ItemGives fails .closeBrace (schemaField type)) fs lss)
    (hsorted : Ascending.Sorted (Ascending.keys fs)) {body : List Lexeme}
    (hbody : Listed lss body) :
    Gives fails (recordType type) (.sym .openBrace :: (body ++ .sym .closeBrace :: ms)) fs ms := by
  unfold recordType
  refine yields_expect.andThen ((gives_trailingUntil (by decide) h hbody).bind ?_)
  exact gives_attributesOf [] hsorted

variable {space : String}

mutual

/-- **The text of a type** is read, unless an entity type in it is called `Set`. -/
theorem gives_schemaType : (t : SchemaType) → t.Ordered →
    ((∃ n ∈ t.names, Schema.relativeName space n = "Set") → fails) →
    ∀ count ≥ (t.lexemes space).length, ∀ ms, endsType ms.head? →
      Gives fails (schemaType count) (t.lexemes space ++ ms) (t.asRead space) ms
  | .bool, _, _ => fun count hcount ms hms =>
      gives_typeOfWord (w := "Bool") (by decide) (by decide) hcount hms
  | .long, _, _ => fun count hcount ms hms =>
      gives_typeOfWord (w := "Long") (by decide) (by decide) hcount hms
  | .string, _, _ => fun count hcount ms hms =>
      gives_typeOfWord (w := "String") (by decide) (by decide) hcount hms
  | .entity name, _, hset => by
      intro count hcount ms hms
      obtain ⟨s, ss, -, hl⟩ := Name.lexemes_eq_cons (Schema.relativeName space name)
      rw [SchemaType.lexemes, hl, List.length_cons] at hcount
      obtain ⟨count, rfl⟩ := Nat.exists_eq_add_one_of_ne_zero (Nat.ne_zero_of_lt hcount)
      exact gives_typeOfName (fun h => hset ⟨name, List.mem_cons_self, h⟩) hms count
  | .set element, h, hset => by
      intro count hcount ms hms
      have helement := gives_schemaType element h hset
      simp only [SchemaType.lexemes, List.length_cons, List.length_append,
        List.length_nil] at hcount
      obtain ⟨count, rfl⟩ := Nat.exists_eq_add_one_of_ne_zero (n := count) (by omega)
      have hls : (SchemaType.set element).lexemes space ++ ms = Name.lexemes "Set" ++
          .sym .less :: (element.lexemes space ++ .sym .greater :: ms) := by
        rw [Name.lexemes_of_isIdent (s := "Set") (by decide)]
        simp [SchemaType.lexemes]
      rw [hls, schemaType]
      -- The word `Set` is read as a type name before its element is looked for.
      refine yields_peek.andThen ?_
      rw [if_neg (by rw [Name.lexemes_of_isIdent (s := "Set") (by decide)]; nofun)]
      refine (yields_typeName (by simp)).andThen ?_
      refine yields_expect.andThen ?_
      refine (helement count (by omega) _ (.inr (.inr rfl))).bind ?_
      exact yields_expect.andThen yields_pure.gives
  | .record fields, h, hset => by
      intro count hcount ms hms
      simp only [SchemaType.lexemes, List.length_cons, List.length_append,
        List.length_nil] at hcount
      obtain ⟨count, rfl⟩ := Nat.exists_eq_add_one_of_ne_zero (n := count) (by omega)
      have hlisted : Listed (SchemaType.fieldLexemes space fields) _ := .between
      have hfields := gives_fieldLexemes fields h.2 hset count fun ls hls => by
        have hlength := hlisted.length_le.2 ls hls
        omega
      have hsorted : Ascending.Sorted (Ascending.keys (SchemaType.asReadFields space fields)) := by
        rw [SchemaType.keys_asReadFields]
        exact h.1
      have hls : (SchemaType.record fields).lexemes space ++ ms = .sym .openBrace ::
          (separated (.sym .comma) (SchemaType.fieldLexemes space fields) ++
            .sym .closeBrace :: ms) := by
        simp [SchemaType.lexemes]
      rw [hls, schemaType]
      refine yields_peek.andThen ?_
      exact (gives_recordType hfields hsorted hlisted).bind yields_pure.gives

/-- The texts of fields are read. -/
theorem gives_fieldLexemes : (fs : List (String × Bool × SchemaType)) →
    SchemaType.OrderedFields fs →
    ((∃ n ∈ SchemaType.namesOfFields fs, Schema.relativeName space n = "Set") → fails) →
    ∀ count, (∀ ls ∈ SchemaType.fieldLexemes space fs, ls.length ≤ count) →
      List.Forall₂ (ItemGives fails .closeBrace (schemaField (schemaType count)))
        (SchemaType.asReadFields space fs) (SchemaType.fieldLexemes space fs)
  | [], _, _, _, _ => .nil
  | (k, required, t) :: fs, h, hset, count, hcount => by
      obtain ⟨hlength, hcount⟩ := List.forall_mem_cons.mp hcount
      have hset' : ∀ n ∈ t.names ++ SchemaType.namesOfFields fs,
          Schema.relativeName space n = "Set" → fails := fun n hn heq => hset ⟨n, hn, heq⟩
      obtain ⟨ht, hfs⟩ := List.forall_mem_append.mp hset'
      have htype : (t.lexemes space).length ≤ count := by
        simp only [SchemaType.fieldTokens, List.length_cons, List.length_append] at hlength
        omega
      refine .cons (itemGives_field k required ?_) ?_
      · exact gives_schemaType t h.1 (fun ⟨n, hn, heq⟩ => ht n hn heq) count htype
      · exact gives_fieldLexemes fs h.2 (fun ⟨n, hn, heq⟩ => hfs n hn heq) count hcount

end

/-- Printed attributes are read as said. -/
theorem gives_recordFields {fields : Attributes} (h : fields.Ordered)
    (hset : (∃ n ∈ SchemaType.namesOfFields fields, Schema.relativeName space n = "Set") → fails) :
    Gives fails recordFields (Schema.fieldsLexemes space fields ++ ms)
      (SchemaType.asReadFields space fields) ms := by
  have hlisted : Listed (SchemaType.fieldLexemes space fields) _ := .behind
  have hsorted : Ascending.Sorted (Ascending.keys (SchemaType.asReadFields space fields)) := by
    rw [SchemaType.keys_asReadFields]
    exact h.1
  have hls : Schema.fieldsLexemes space fields ++ ms = .sym .openBrace ::
      ((SchemaType.fieldLexemes space fields).flatMap (fun ls => ls ++ [.sym .comma]) ++
        .sym .closeBrace :: ms) := by
    simp [Schema.fieldsLexemes]
  rw [hls]
  unfold recordFields
  refine yields_remaining.andThen ?_
  refine gives_recordType (gives_fieldLexemes fields h.2 hset _ fun ls hls => ?_) hsorted hlisted
  have hlength := hlisted.length_le.2 ls hls
  rw [List.length_cons, List.length_append]
  omega

/-! ### Declarations -/

/-- A printed list of type names is read in its relative form. -/
theorem gives_typeList (types : List String) :
    Gives fails typeList (Schema.typesLexemes space types ++ ms) (Schema.relativeNames space types)
      ms := by
  have hitems : List.Forall₂ (ItemGives fails .closeBracket typeName)
      (types.map (Schema.relativeName space))
      (types.map fun t => Name.lexemes (Schema.relativeName space t)) := by
    rw [List.forall₂_map_left_iff, List.forall₂_map_right_iff, List.forall₂_same]
    intro t _
    obtain ⟨s, ss, -, hl⟩ := Name.lexemes_eq_cons (Schema.relativeName space t)
    refine ⟨⟨_, _, hl, nofun⟩, fun ms hms => (yields_typeName ?_).gives⟩
    rcases hms with hms | hms <;> rw [hms] <;> nofun
  rw [Schema.typesLexemes, List.cons_append, List.cons_append, List.append_assoc]
  unfold typeList
  refine yields_eat.andThen ?_
  exact (gives_trailingUntil (by decide) hitems .between).bind yields_pure.gives

/-- One item without a comma behind it is read as a list of one. -/
theorem gives_commaSeparated {item : Parser α} (hitem : Gives fails item ls a ms)
    (hms : ms.head? ≠ some (.sym .comma)) (count : Nat) :
    Gives fails (commaSeparated item (count + 1)) ls [a] ms := by
  unfold commaSeparated
  refine hitem.bind ((yields_eat_of_ne hms).andThen yields_pure.gives)

/-- The declaration of an entity type is read. -/
theorem gives_entityDeclaration {name : String} {d : EntityDecl} (h : d.attributes.Ordered)
    (hset : (∃ n ∈ SchemaType.namesOfFields d.attributes, Schema.relativeName space n = "Set") →
      fails) :
    Gives fails entityDeclaration ((Schema.entityLexemes space name d).tail ++ ms)
      [(name, d.asRead space)] ms := by
  have hrest : ∀ memberOf : List String, Gives fails (do
      let attributes ← if (← peek) = some (.sym .openBrace) then recordFields else pure []
      expectSymbol .semicolon
      pure ([name].map (·, (⟨memberOf, attributes⟩ : EntityDecl))))
      ((if d.attributes.isEmpty then [] else Schema.fieldsLexemes space d.attributes) ++
        .sym .semicolon :: ms)
      [(name, ⟨memberOf, SchemaType.asReadFields space d.attributes⟩)] ms := by
    intro memberOf
    refine yields_peek.andThen ?_
    by_cases hempty : d.attributes.isEmpty
    · rw [if_pos hempty, List.isEmpty_iff.mp hempty]
      exact yields_pure.andThen (yields_expect.andThen yields_pure.gives)
    · rw [if_neg hempty]
      refine (gives_recordFields h hset).bind ?_
      exact yields_expect.andThen yields_pure.gives
  -- Whether an optional part is there is told by the token that comes next.
  have hhead : ∀ l, l ≠ .sym .openBrace → l ≠ .sym .semicolon →
      ((if d.attributes.isEmpty then [] else Schema.fieldsLexemes space d.attributes) ++
        .sym .semicolon :: ms).head? ≠ some l := by
    intro l hbrace hsemicolon
    by_cases hempty : d.attributes.isEmpty
    · rw [if_pos hempty]
      simpa using hsemicolon.symm
    · rw [if_neg hempty]
      simpa [Schema.fieldsLexemes] using hbrace.symm
  simp only [Schema.entityLexemes, List.tail_cons, List.cons_append, List.append_assoc,
    List.nil_append]
  unfold entityDeclaration
  refine yields_remaining.andThen ?_
  by_cases hempty : d.memberOf.isEmpty
  · rw [if_pos hempty, List.nil_append]
    have hcomma := hhead (.sym .comma) (by decide) (by decide)
    refine (gives_commaSeparated yields_ident.gives hcomma _).bind ?_
    refine (yields_eat_of_ne (hhead (.ident "in") (by decide) (by decide))).andThen ?_
    have hnames : Schema.relativeNames space d.memberOf = [] := by
      rw [List.isEmpty_iff.mp hempty]
      rfl
    rw [EntityDecl.asRead, EntityDecl.relative, hnames]
    exact yields_pure.andThen (hrest [])
  · rw [if_neg hempty]
    refine (gives_commaSeparated yields_ident.gives (by simp) _).bind ?_
    refine yields_eat.andThen ?_
    exact (gives_typeList d.memberOf).bind (hrest _)

/-! ### Actions -/

/-- A group is read. -/
theorem itemGives_actionGroup {g : Uid} (h : ∃ space', g.type = Name.qualify space' "Action") :
    ItemGives fails .closeBracket actionGroup (Schema.relativeGroup space g)
      (Schema.groupLexemes space g) := by
  unfold Schema.groupLexemes
  split
  · rename_i haction
    refine ⟨⟨_, _, rfl, nofun⟩, fun ms _ => ?_⟩
    unfold actionGroup
    refine yields_peek.andThen ?_
    refine (yields_quoted g.id).andThen ?_
    rw [Schema.relativeGroup, haction]
    exact yields_pure.gives
  · rename_i haction
    obtain ⟨s, ls, hl⟩ := g.lexemes_eq_cons
    -- Only the groups of the namespace itself have a relative form of their own.
    have hrelative : Schema.relativeGroup space g = g := by
      obtain ⟨space', htype⟩ := h
      rw [htype, Schema.relativeName_qualify Schema.isIdent_action] at haction
      rw [Schema.relativeGroup, htype, Schema.relativeName_qualify Schema.isIdent_action]
      split at haction
      · exact absurd rfl haction
      · rename_i hspace
        rw [if_neg hspace, ← htype]
    refine ⟨⟨_, _, hl, nofun⟩, fun ms _ => ?_⟩
    have hpath : Yields fails path (g.lexemes ++ ms) (.uid g) ms := yields_path_uid g
    rw [hl] at hpath ⊢
    rw [hrelative]
    unfold actionGroup
    refine yields_peek.andThen ?_
    exact hpath.andThen yields_pure.gives

/-- Groups are read, behind the opening bracket. -/
theorem gives_groups {groups : List Uid}
    (h : ∀ g ∈ groups, ∃ space', g.type = Name.qualify space' "Action") :
    Gives fails (trailingUntil .closeBracket actionGroup)
      ((Schema.groupsLexemes space groups).tail ++ ms)
      (groups.map (Schema.relativeGroup space)) ms := by
  have hitems : List.Forall₂ (ItemGives fails .closeBracket actionGroup)
      (groups.map (Schema.relativeGroup space)) (groups.map (Schema.groupLexemes space)) := by
    rw [List.forall₂_map_left_iff, List.forall₂_map_right_iff, List.forall₂_same]
    exact fun g hg => itemGives_actionGroup (h g hg)
  rw [Schema.groupsLexemes, List.cons_append, List.tail_cons, List.append_assoc]
  exact gives_trailingUntil (by decide) hitems .between

/-- What an action applies to is read, behind the opening brace. -/
theorem gives_appliesTo {d : ActionDecl} (h : d.context.Ordered)
    (hset : (∃ n ∈ SchemaType.namesOfFields d.context, Schema.relativeName space n = "Set") →
      fails) {groups : List Uid} {count : Nat} (hcount : count ≥ 4) :
    Gives fails (appliesTo count ⟨groups, [], [], []⟩)
      ((Schema.appliesToLexemes space d).tail.tail ++ ms)
      ⟨groups, Schema.relativeNames space d.principalTypes,
        Schema.relativeNames space d.resourceTypes,
        SchemaType.asReadFields space d.context⟩ ms := by
  obtain ⟨count, rfl⟩ := Nat.exists_eq_add_of_le' hcount
  simp only [Schema.appliesToLexemes, List.tail_cons, List.cons_append, List.append_assoc,
    List.nil_append]
  rw [appliesTo]
  refine (yields_eat_of_ne (by simp)).andThen (yields_ident.andThen (yields_expect.andThen ?_))
  refine (gives_typeList d.principalTypes).bind (yields_pure.andThen (yields_eat.andThen ?_))
  -- The three entries come in a fixed order; each is a round of the loop.
  change Gives fails (appliesTo (count + 3) _) _ _ _
  rw [appliesTo]
  refine (yields_eat_of_ne (by simp)).andThen (yields_ident.andThen (yields_expect.andThen ?_))
  refine (gives_typeList d.resourceTypes).bind (yields_pure.andThen (yields_eat.andThen ?_))
  change Gives fails (appliesTo (count + 2) _) _ _ _
  rw [appliesTo]
  refine (yields_eat_of_ne (by simp)).andThen (yields_ident.andThen (yields_expect.andThen ?_))
  refine (gives_recordFields h hset).bind (yields_pure.andThen ?_)
  refine (yields_eat_of_ne (by simp)).andThen (yields_peek.andThen ?_)
  change Gives fails (appliesTo (count + 1) _) _ _ _
  rw [appliesTo]
  exact yields_eat.andThen yields_pure.gives

/-- The declaration of an action is read. -/
theorem gives_actionDeclaration {name : String} {d : ActionDecl}
    (hgroups : ∀ g ∈ d.memberOf, ∃ space', g.type = Name.qualify space' "Action")
    (h : d.context.Ordered)
    (hset : (∃ n ∈ SchemaType.namesOfFields d.context, Schema.relativeName space n = "Set") →
      fails) :
    Gives fails actionDeclaration ((Schema.actionLexemes space name d).tail ++ ms)
      [(name, d.asRead space)] ms := by
  have hrest : ∀ groups : List Uid, Gives fails (do
      let d : ActionDecl := { ActionDecl.empty with memberOf := groups }
      let d ←
        if ← eatKeyword "appliesTo" then do
          expectSymbol .openBrace
          appliesTo ((← remaining) + 1) d
        else pure d
      expectSymbol .semicolon
      pure ([name].map (·, d)))
      ((if d.principalTypes.isEmpty && d.resourceTypes.isEmpty && d.context.isEmpty then []
        else Schema.appliesToLexemes space d) ++ .sym .semicolon :: ms)
      [(name, ⟨groups, Schema.relativeNames space d.principalTypes,
        Schema.relativeNames space d.resourceTypes,
        SchemaType.asReadFields space d.context⟩)] ms := by
    intro groups
    by_cases hempty : d.principalTypes.isEmpty && d.resourceTypes.isEmpty && d.context.isEmpty
    · rw [if_pos hempty]
      simp only [Bool.and_eq_true, List.isEmpty_iff] at hempty
      rw [hempty.1.1, hempty.1.2, hempty.2]
      refine (yields_eat_of_ne (by simp)).andThen ?_
      exact yields_pure.andThen (yields_expect.andThen yields_pure.gives)
    · rw [if_neg hempty]
      have hcount : ((Schema.appliesToLexemes space d).tail.tail ++
          .sym .semicolon :: ms).length + 1 ≥ 4 := by
        simp only [Schema.appliesToLexemes, List.tail_cons, List.length_append, List.length_cons]
        omega
      refine yields_eat.andThen ?_
      refine yields_expect.andThen (yields_remaining.andThen ?_)
      refine (gives_appliesTo h hset hcount).bind ?_
      exact yields_expect.andThen yields_pure.gives
  -- Whether an optional part is there is told by the token that comes next.
  have hhead : ∀ l, l ≠ .ident "appliesTo" → l ≠ .sym .semicolon →
      ((if d.principalTypes.isEmpty && d.resourceTypes.isEmpty && d.context.isEmpty then []
        else Schema.appliesToLexemes space d) ++ .sym .semicolon :: ms).head? ≠ some l := by
    intro l hword hsemicolon
    split
    · simpa using hsemicolon.symm
    · simpa [Schema.appliesToLexemes] using hword.symm
  simp only [Schema.actionLexemes, List.tail_cons, List.cons_append, List.append_assoc,
    List.nil_append]
  unfold actionDeclaration
  refine yields_remaining.andThen ?_
  by_cases hempty : d.memberOf.isEmpty
  · rw [if_pos hempty, List.nil_append]
    have hcomma := hhead (.sym .comma) (by decide) (by decide)
    refine (gives_commaSeparated (yields_keyLexeme name).gives hcomma _).bind ?_
    refine (yields_eat_of_ne (hhead (.ident "in") (by decide) (by decide))).andThen ?_
    rw [ActionDecl.asRead, ActionDecl.relative, List.isEmpty_iff.mp hempty]
    exact yields_pure.andThen (hrest [])
  · rw [if_neg hempty]
    refine (gives_commaSeparated (yields_keyLexeme name).gives (by simp) _).bind ?_
    refine yields_eat.andThen (yields_eat.andThen ?_)
    exact (gives_groups hgroups).bind (yields_pure.andThen (hrest _))

/-! ### Sections -/

/-- The tokens of a declaration: they begin with one of its two words, and reading them adds to a
section. -/
structure Declares (fails : Prop) (add : Section → Section) (ls : List Lexeme) : Prop where
  /-- They begin with a word that a declaration begins with. -/
  word : ∃ w ls', ls = .ident w :: ls' ∧ (w = "entity" ∨ w = "action")
  /-- They are read. -/
  gives : ∀ x ms, Gives fails (declaration x) (ls ++ ms) (add x) ms

/-- The tokens of an entity type add what it is read as. -/
theorem declares_entity {name : String} {d : EntityDecl} (h : d.attributes.Ordered)
    (hset : (∃ n ∈ SchemaType.namesOfFields d.attributes, Schema.relativeName space n = "Set") →
      fails) :
    Declares fails (·.addType (name, d.asRead space)) (Schema.entityLexemes space name d) := by
  refine ⟨⟨_, _, rfl, .inl rfl⟩, fun x ms => ?_⟩
  unfold declaration
  refine yields_eat.andThen ?_
  exact (gives_entityDeclaration h hset).bind yields_pure.gives

/-- The tokens of an action add what it is read as. -/
theorem declares_action {name : String} {d : ActionDecl}
    (hgroups : ∀ g ∈ d.memberOf, ∃ space', g.type = Name.qualify space' "Action")
    (h : d.context.Ordered)
    (hset : (∃ n ∈ SchemaType.namesOfFields d.context, Schema.relativeName space n = "Set") →
      fails) :
    Declares fails (·.addAction (name, d.asRead space)) (Schema.actionLexemes space name d) := by
  refine ⟨⟨_, _, rfl, .inr rfl⟩, fun x ms => ?_⟩
  have hword : (Schema.actionLexemes space name d ++ ms).head? ≠ some (.ident "entity") := by
    simp [Schema.actionLexemes]
  unfold declaration
  refine (yields_eat_of_ne hword).andThen (yields_eat.andThen ?_)
  exact (gives_actionDeclaration hgroups h hset).bind yields_pure.gives

/-- The reader goes on behind a declaration. -/
def Continues (fails : Prop) (body : Nat → Section → Parser β) : Prop :=
  ∀ ⦃count : Nat⦄ ⦃x y : Section⦄ ⦃w : String⦄ ⦃ls ms ns : List Lexeme⦄ ⦃b : β⦄,
    w = "entity" ∨ w = "action" → Gives fails (declaration x) (.ident w :: ls) y ms →
    Gives fails (body count y) ms b ns → Gives fails (body (count + 1) x) (.ident w :: ls) b ns

/-- The reader of a namespace goes on behind a declaration. -/
theorem continues_namespaceBody : Continues fails namespaceBody := by
  intro count x y w ls ms ns b _ hdeclaration hrest
  unfold namespaceBody
  exact (yields_eat_of_ne (by simp)).andThen (hdeclaration.bind hrest)

/-- The reader of a schema goes on behind a declaration in the global namespace. -/
theorem continues_schemaBody : Continues fails schemaBody := by
  intro count x y w ls ms ns b hw hdeclaration hrest
  have hnamespace : w ≠ "namespace" := by
    rcases hw with rfl | rfl <;> decide
  unfold schemaBody
  refine yields_peek.andThen ?_
  refine (yields_eat_of_ne (by simpa using hnamespace)).andThen ?_
  exact hdeclaration.bind hrest

/-- **Declarations are read one by one**, each of which adds to the section. -/
theorem Continues.each {body : Nat → Section → Parser β} (hbody : Continues fails body) {γ : Type}
    {tokens : γ → List Lexeme} {add : Section → γ → Section} {least : Nat} {ds : List γ}
    (hds : ∀ d ∈ ds, Declares fails (add · d) (tokens d)) :
    ∀ {x : Section}, (∀ count ≥ least, Gives fails (body count (ds.foldl add x)) ms b ns) →
      ∀ count ≥ least + ds.length, Gives fails (body count x) (ds.flatMap tokens ++ ms) b ns := by
  induction ds with
  | nil => exact fun hrest => hrest
  | cons d ds ih =>
      intro x hrest count hcount
      obtain ⟨hd, hds⟩ := List.forall_mem_cons.mp hds
      obtain ⟨w, ls, htokens, hw⟩ := hd.word
      rw [List.length_cons] at hcount
      obtain ⟨count, rfl⟩ := Nat.exists_eq_add_one_of_ne_zero (n := count) (by omega)
      have hread := hd.gives x (ds.flatMap tokens ++ ms)
      rw [List.flatMap_cons, List.append_assoc]
      rw [htokens] at hread ⊢
      exact hbody hw hread (ih hds hrest count (by omega))

end Grammar

end AccessPolicy
