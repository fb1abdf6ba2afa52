import AccessPolicy.Grammar.Parser
import AccessPolicy.Schema.Basic

/-!
# Schema text

The written form of schemas: `entity` and `action` declarations, alone or in a `namespace` block.
`Schema.text` writes every declaration in a canonical layout, one attribute on a line.
-/

namespace AccessPolicy

namespace Grammar

open Grammar.Parser

/-! ### Reading -/

/-- Items with commas between them; at least one. The count bounds the items. -/
def commaSeparated {α : Type} (item : Parser α) : (count : Nat) → Parser (List α)
  | 0 => pure []
  | count + 1 => do
    let x ← item
    if ← eatSymbol .comma then
      let xs ← commaSeparated item count
      pure (x :: xs)
    else pure [x]

/-- Items up to a closing symbol, each but the last with a comma behind it, the last with one or
without. The count bounds the items. -/
def trailing {α : Type} (close : Symbol) (item : Parser α) : (count : Nat) → Parser (List α)
  | 0 => unexpected (Lexeme.describe (some (.sym close)))
  | count + 1 => do
    if ← eatSymbol close then pure []
    else
      let x ← item
      if ← eatSymbol .comma then
        let xs ← trailing close item count
        pure (x :: xs)
      else
        expectSymbol close
        pure [x]

/-- Items up to a closing symbol. -/
def trailingUntil {α : Type} (close : Symbol) (item : Parser α) : Parser (List α) := do
  trailing close item ((← remaining) + 1)

/-- A type name or a list of them, ascending. -/
def typeList : Parser (List String) := do
  if ← eatSymbol .openBracket then
    let names ← trailingUntil .closeBracket typeName
    pure (Ascending.ofList names)
  else
    let name ← typeName
    pure [name]

/-- Fields as attributes; a name must not come twice. -/
def attributesOf : List (String × Bool × SchemaType) → Attributes → Parser Attributes
  | [], seen => pure seen
  | (k, v) :: fs, seen =>
    if Ascending.hasKey k seen then fail (.duplicateAttribute k)
    else attributesOf fs (Ascending.put k v seen)

/-- A field of a record, given a reader of types. -/
def schemaField (type : Parser SchemaType) : Parser (String × Bool × SchemaType) := do
  let k ← name
  let optional ← eatSymbol .question
  expectSymbol .colon
  let t ← type
  pure (k, !optional, t)

/-- The fields of a record, given a reader of types. -/
def recordType (type : Parser SchemaType) : Parser Attributes := do
  expectSymbol .openBrace
  let fields ← trailingUntil .closeBrace (schemaField type)
  attributesOf fields []

/-- A type. The count bounds how deep it nests. -/
def schemaType : (count : Nat) → Parser SchemaType
  | 0 => unexpected "an identifier"
  | count + 1 => do
    if (← peek) = some (.sym .openBrace) then
      let fields ← recordType (schemaType count)
      pure (.record fields)
    else
      let name ← typeName
      if name = "Bool" ∨ name = "Boolean" then pure .bool
      else if name = "Long" then pure .long
      else if name = "String" then pure .string
      else if name = "Set" then
        expectSymbol .less
        let element ← schemaType count
        expectSymbol .greater
        pure (.set element)
      else pure (.entity name)

/-- The fields of a record. -/
def recordFields : Parser Attributes := do
  recordType (schemaType ((← remaining) + 1))

/-- The declaration of entity types, behind its keyword. -/
def entityDeclaration : Parser (List (String × EntityDecl)) := do
  let names ← commaSeparated ident ((← remaining) + 1)
  let memberOf ← if ← eatKeyword "in" then typeList else pure []
  let attributes ← if (← peek) = some (.sym .openBrace) then recordFields else pure []
  expectSymbol .semicolon
  pure (names.map (·, ⟨memberOf, attributes⟩))

/-- A group of actions, by a name, a string or a uid. -/
def actionGroup : Parser Uid := do
  match ← peek with
  | some (.str _) =>
    let id ← string
    pure ⟨"Action", id⟩
  | _ =>
    match ← path with
    | .uid u => pure u
    | .type name =>
      if Schema.hasSeparator name.toList then fail (.actionWanted name)
      else pure ⟨"Action", name⟩

/-- What an action applies to, behind the opening brace. The count bounds the entries. -/
def appliesTo : (count : Nat) → ActionDecl → Parser ActionDecl
  | 0, d => pure d
  | count + 1, d => do
    if ← eatSymbol .closeBrace then pure d
    else
      let key ← ident
      expectSymbol .colon
      let d ←
        if key = "principal" then do
          let types ← typeList
          pure { d with principalTypes := types }
        else if key = "resource" then do
          let types ← typeList
          pure { d with resourceTypes := types }
        else if key = "context" then do
          let fields ← recordFields
          pure { d with context := fields }
        else
          fail (.expected "\x60principal\x60, \x60resource\x60 or \x60context\x60"
            (some (.ident key)))
      if ← eatSymbol .comma then appliesTo count d
      else if (← peek) = some (.sym .closeBrace) then appliesTo count d
      else unexpected "\x60,\x60 or \x60\x7d\x60"

/-- The declaration of actions, behind its keyword. -/
def actionDeclaration : Parser (List (String × ActionDecl)) := do
  let names ← commaSeparated name ((← remaining) + 1)
  let groups ←
    if ← eatKeyword "in" then do
      if ← eatSymbol .openBracket then
        let groups ← trailingUntil .closeBracket actionGroup
        pure (Ascending.ofList groups)
      else do
        let group ← actionGroup
        pure [group]
    else pure []
  let d : ActionDecl := { ActionDecl.empty with memberOf := groups }
  let d ←
    if ← eatKeyword "appliesTo" then do
      expectSymbol .openBrace
      appliesTo ((← remaining) + 1) d
    else pure d
  expectSymbol .semicolon
  pure (names.map (·, d))

/-- Add one declaration to a section. -/
def declaration (s : Section) : Parser Section := do
  if ← eatKeyword "entity" then
    let types ← entityDeclaration
    pure { s with entityTypes := s.entityTypes ++ types }
  else if ← eatKeyword "action" then
    let actions ← actionDeclaration
    pure { s with actions := s.actions ++ actions }
  else
    match ← peek with
    | none => fail .endInNamespace
    | found => fail (.expected "\x60entity\x60 or \x60action\x60" found)

/-- The declarations of a namespace, up to its closing brace. The count bounds them. -/
def namespaceBody : (count : Nat) → Section → Parser Section
  | 0, s => pure s
  | count + 1, s => do
    if ← eatSymbol .closeBrace then pure s
    else
      let s ← declaration s
      namespaceBody count s

/-- The namespaces of a text and its global declarations. The count bounds the declarations. -/
def schemaBody : (count : Nat) → (global : Section) → Parser (Section × List Section)
  | 0, global => pure (global, [])
  | count + 1, global => do
    if (← peek).isNone then pure (global, [])
    else if ← eatKeyword "namespace" then
      let name ← typeName
      expectSymbol .openBrace
      let s ← namespaceBody ((← remaining) + 1) ⟨name, [], []⟩
      let (global, rest) ← schemaBody count global
      pure (global, s :: rest)
    else
      let global ← declaration global
      schemaBody count global

/-- The sections of a text, the global one first if it has declarations. -/
def schemaSections : Parser (List Section) := do
  let (global, rest) ← schemaBody ((← remaining) + 1) ⟨"", [], []⟩
  if global.entityTypes.isEmpty && global.actions.isEmpty then pure rest else pure (global :: rest)

end Grammar

namespace Schema

open Grammar in
/-- The schema of a text. -/
def parse (text : String) : Except Error Schema := do
  ofSections (← readAll text "unexpected input after schema" schemaSections)

/-! ### Writing -/

/-- A name, in quotes where it needs them. -/
def nameText (name : String) : String :=
  if Name.isIdent name then name else Quoted.quote name

/-- A list of types. -/
def typesText (space : String) (types : List String) : String :=
  "[" ++ ", ".intercalate (types.map (relativeName space)) ++ "]"

/-- Fields between braces, one on a line and one level below `indent`. -/
def fieldsText (space indent : String) (fields : Attributes) : String :=
  if fields.isEmpty then "\x7b\x7d"
  else
    "\x7b\n" ++
    String.join (fields.map fun f =>
      indent ++ "  " ++
        SchemaType.fieldText (nameText f.1) f.2.1 (f.2.2.textWith nameText (relativeName space)) ++
        ",\n") ++
    indent ++ "\x7d"

/-- The declaration of an entity type. -/
def entityText (space indent : String) (name : String) (d : EntityDecl) : String :=
  indent ++ "entity " ++ name ++
    (if d.memberOf.isEmpty then "" else " in " ++ typesText space d.memberOf) ++
    (if d.attributes.isEmpty then "" else " " ++ fieldsText space indent d.attributes) ++ ";\n"

/-- A group of actions; one of the same namespace by its quoted id. -/
def groupText (space : String) (group : Uid) : String :=
  if relativeName space group.type = "Action" then Quoted.quote group.id else group.text

/-- What an action applies to. -/
def appliesToText (space indent : String) (d : ActionDecl) : String :=
  let inner := indent ++ "  "
  " appliesTo \x7b\n" ++ inner ++ "principal: " ++ typesText space d.principalTypes ++ ",\n" ++
    inner ++ "resource: " ++ typesText space d.resourceTypes ++ ",\n" ++
    inner ++ "context: " ++ fieldsText space inner d.context ++ "\n" ++ indent ++ "\x7d"

/-- The declaration of an action. -/
def actionText (space indent : String) (name : String) (d : ActionDecl) : String :=
  indent ++ "action " ++ nameText name ++
    (if d.memberOf.isEmpty then ""
     else " in [" ++ ", ".intercalate (d.memberOf.map (groupText space)) ++ "]") ++
    (if d.principalTypes.isEmpty && d.resourceTypes.isEmpty && d.context.isEmpty then ""
     else appliesToText space indent d) ++ ";\n"

/-- The declarations of a namespace. -/
def spaceText (s : Schema) (space : String) : String :=
  let indent := if space.isEmpty then "" else "  "
  let lines := String.join <|
    (s.typesIn space).map (fun t => entityText space indent t.1 t.2) ++
    (s.actionsIn space).map fun a => actionText space indent a.1 a.2
  if space.isEmpty then lines else "namespace " ++ space ++ " \x7b\n" ++ lines ++ "\x7d\n"

/-- The text of a schema. -/
def text (s : Schema) : String :=
  String.join (s.spaces.map s.spaceText)

end Schema

end AccessPolicy
