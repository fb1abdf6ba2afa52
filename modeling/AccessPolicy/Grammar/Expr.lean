import AccessPolicy.Grammar.Parser
import AccessPolicy.Expr.Basic

/-!
# The grammar of expressions

From the loosest to the tightest: `if`, `||`, `&&`, the relations, which do not chain, `+` and `-`,
`*`, the prefixes `!` and `-`, member access and method calls, and what stands alone. Chains of one
operator lean to the left.

Nesting is bounded twice. Each `if` or parenthesised expression and each prefix takes one of
`nestingLimit` levels while it is read, and each chain has at most `nestingLimit` operators; and
`bounded` refuses an expression whose tree is deeper than that. The readers recurse on the levels
that are left.
-/

namespace AccessPolicy.Grammar

open Grammar.Parser

/-- The words that cannot be attribute names without quotes. -/
def reservedWords : List String :=
  ["true", "false", "if", "then", "else", "in", "is", "like", "has"]

/-- Whether a name can stand behind a point or `has` without quotes. -/
def isBareAttr (name : String) : Bool :=
  Name.isIdent name && !reservedWords.contains name

/-! ### Chains -/

/-- Operands that follow `left`, each behind an operator. -/
def chain (operator : Option Lexeme → Option (Expr → Expr → Expr)) (operand : Parser Expr) :
    (links : Nat) → (left : Expr) → Parser Expr
  | 0, left => do
    match operator (← peek) with
    | none => pure left
    | some _ =>
      advance
      fail .nesting
  | links + 1, left => do
    match operator (← peek) with
    | none => pure left
    | some join =>
      advance
      let right ← operand
      chain operator operand links (join left right)

/-- A chain of operands. -/
def chained (operator : Option Lexeme → Option (Expr → Expr → Expr)) (operand : Parser Expr) :
    Parser Expr := do
  let first ← operand
  chain operator operand nestingLimit first

/-- The operator of products. -/
def productOperator : Option Lexeme → Option (Expr → Expr → Expr)
  | some (.sym .star) => some (.binary .mul)
  | _ => none

/-- The operators of sums. -/
def sumOperator : Option Lexeme → Option (Expr → Expr → Expr)
  | some (.sym .plus) => some (.binary .add)
  | some (.sym .minus) => some (.binary .sub)
  | _ => none

/-- The operator of conjunctions. -/
def andOperator : Option Lexeme → Option (Expr → Expr → Expr)
  | some (.sym .andAnd) => some .and
  | _ => none

/-- The operator of disjunctions. -/
def orOperator : Option Lexeme → Option (Expr → Expr → Expr)
  | some (.sym .orOr) => some .or
  | _ => none

/-! ### Relations -/

/-- The relation of a token. -/
def relationOp? : Option Lexeme → Option BinaryOp
  | some (.sym .eqEq) => some .eq
  | some (.sym .notEq) => some .notEq
  | some (.sym .less) => some .less
  | some (.sym .lessEq) => some .lessEq
  | some (.sym .greater) => some .greater
  | some (.sym .greaterEq) => some .greaterEq
  | some (.ident "in") => some .mem
  | _ => none

/-- A pattern in quotes. -/
def pattern : Parser (List Glob) := do
  match ← peek with
  | some (.str body) =>
    match Quoted.decodePattern body.toList with
    | .error e => fail (.escape e)
    | .ok globs =>
      advance
      pure globs
  | _ => unexpected "a pattern string"

/-- What may follow the left side of a relation, given a reader of sums. -/
def relationRest (sum : Parser Expr) (left : Expr) : Parser Expr := do
  let next ← peek
  match relationOp? next with
  | some op =>
    advance
    let right ← sum
    pure (.binary op left right)
  | none =>
    if next = some (.ident "has") then
      advance
      let attr ← name
      pure (.hasAttr left attr)
    else if next = some (.ident "like") then
      advance
      let globs ← pattern
      pure (.like left globs)
    else if next = some (.ident "is") then
      advance
      let type ← typeName
      if ← eatKeyword "in" then
        let group ← sum
        pure (.isMem left type group)
      else pure (.is left type)
    else pure left

/-- A relation. -/
def relation (sum : Parser Expr) : Parser Expr := do
  let left ← sum
  relationRest sum left

/-- A disjunction, given a reader of prefixed expressions. -/
def disjunction (unary : Parser Expr) : Parser Expr :=
  chained orOperator (chained andOperator (relation (chained sumOperator
    (chained productOperator unary))))

/-! ### Members -/

/-- The call of a method with the given arguments. -/
def call (receiver : Expr) (method : String) (args : List Expr) : Parser Expr :=
  if method = "isEmpty" then
    match args with
    | [] => pure (.unary .isEmpty receiver)
    | _ => fail .argumentOfIsEmpty
  else
    match (BinaryOp.ofSymbol? method).filter (·.isMethod) with
    | none => fail (.unknownMethod method)
    | some op =>
      match args with
      | [arg] => pure (.binary op receiver arg)
      | _ => fail (.argumentCount method)

/-- Attributes and method calls that follow `left`, given a reader of arguments. -/
def members (argument : Parser Expr) : (links : Nat) → (left : Expr) → Parser Expr
  | 0, left => do
    let next ← peek
    if next = some (.sym .dot) ∨ next = some (.sym .openBracket) then fail .nesting
    else pure left
  | links + 1, left => do
    let next ← peek
    if next = some (.sym .dot) then
      advance
      let attr ← ident
      if ← eatSymbol .openParen then
        let args ← listUntil .closeParen argument
        let called ← call left attr args
        members argument links called
      else members argument links (.getAttr left attr)
    else if next = some (.sym .openBracket) then
      match ← peekSecond with
      | some (.str _) =>
        advance
        let attr ← string
        expectSymbol .closeBracket
        members argument links (.getAttr left attr)
      | _ => pure left
    else pure left

/-! ### What stands alone -/

/-- The fields of a record behind its opening brace, none read yet or a comma just read. The keys
already read may not come again, and the count bounds the fields. -/
def fields (value : Parser Expr) : (count : Nat) → (seen : List String) →
    Parser (List (String × Expr))
  | 0, _ => unexpected "an identifier"
  | count + 1, seen => do
    let key ← name
    if seen.contains key then fail (.duplicateKey key)
    else
      expectSymbol .colon
      let e ← value
      if ← eatSymbol .closeBrace then pure [(key, e)]
      else
        expectSymbol .comma
        let rest ← fields value count (key :: seen)
        pure ((key, e) :: rest)

/-- The literal of an integer with a text, if it is in range. -/
def longLiteral (text : String) : Option Long → Parser Expr
  | some l => do
    advance
    pure (.lit (.long l))
  | none => fail (.outOfRange text)

/-- The literal of a natural number. -/
def natLiteral (n : Nat) : Parser Expr :=
  longLiteral (toString n) (Long.ofInt? n)

/-- The literal of a negated natural number, the minus sign just read. -/
def negLiteral (n : Nat) : Parser Expr :=
  longLiteral ("-" ++ toString n) (Long.ofInt? (-(n : Int)))

/-- A variable, a truth value or the literal of an entity. -/
def named (word : String) : Parser Expr := do
  if word = "true" then
    advance
    pure (.lit (.bool true))
  else if word = "false" then
    advance
    pure (.lit (.bool false))
  else
    let second ← peekSecond
    if second = some (.sym .pathSep) then
      match ← path with
      | .uid u => pure (.lit (.entity u))
      | .type name => fail (.extension name)
    else
      match Var.ofName? word with
      | some v =>
        advance
        pure (.var v)
      | none =>
        if second = some (.sym .openParen) then fail (.extension word)
        else fail (.unexpectedName word)

/-- A slot behind its question mark. -/
def slotName : Parser Expr := do
  let name ← ident
  match Slot.ofName? ("?" ++ name) with
  | some s => pure (.slot s)
  | none => fail (.unknownSlot name)

/-- What stands alone, given a reader of full expressions. -/
def primary (expr : Parser Expr) : Parser Expr := do
  match ← peek with
  | some (.int n) => natLiteral n
  | some (.str _) =>
    let s ← string
    pure (.lit (.string s))
  | some (.ident word) => named word
  | some (.sym .question) =>
    advance
    slotName
  | some (.sym .openParen) =>
    advance
    let e ← expr
    expectSymbol .closeParen
    pure e
  | some (.sym .openBracket) =>
    advance
    let items ← listUntil .closeBracket expr
    pure (.set items)
  | some (.sym .openBrace) =>
    advance
    if ← eatSymbol .closeBrace then pure (.record [])
    else
      let fs ← fields expr (← remaining) []
      pure (.record fs)
  | _ => unexpected "an expression"

/-! ### Expressions -/

mutual

/-- A full expression, with `room` levels left. -/
def expr : (room : Nat) → Parser Expr
  | 0 => fail .nesting
  | room + 1 => do
    if ← eatKeyword "if" then
      let cond ← expr room
      expectKeyword "then"
      let yes ← expr room
      expectKeyword "else"
      let no ← expr room
      pure (.ite cond yes no)
    else disjunction (unary room)

/-- A prefixed expression, with `room` levels left. -/
def unary : (room : Nat) → Parser Expr
  | 0 => fail .nesting
  | room + 1 => do
    match ← peek with
    | some (.sym .bang) =>
      advance
      let arg ← unary room
      pure (.unary .not arg)
    | some (.sym .minus) =>
      match ← peekSecond with
      | some (.int n) =>
        advance
        let base ← negLiteral n
        members (expr room) nestingLimit base
      | _ =>
        advance
        let arg ← unary room
        pure (.unary .neg arg)
    | _ =>
      let base ← primary (expr room)
      members (expr room) nestingLimit base

end

/-- An expression whose tree is not too deep. -/
def bounded : Parser Expr := do
  let e ← expr nestingLimit
  if nestingLimit < e.depth then fail .nesting else pure e

end AccessPolicy.Grammar

namespace AccessPolicy.Expr

open Grammar in
/-- The expression of a text. -/
def parse (text : String) : Except Error Expr :=
  readAll text "unexpected input after expression" bounded

end AccessPolicy.Expr
