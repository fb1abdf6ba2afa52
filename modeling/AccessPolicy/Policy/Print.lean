import AccessPolicy.Grammar.Policy
import AccessPolicy.Layout.Doc

/-!
# Printing policies

`Policy.print` writes a policy in a canonical layout: annotations and scopes on lines of their own,
each clause on one line where it fits. An expression gets parentheses exactly where it binds more
loosely than its place asks for, and around a number behind a minus sign, which would otherwise read
as one negative literal. Chains of `&&` or of `||` are one group that breaks behind each operator.

`Expr.docIn` prints an expression as the first operand of a chain whose other operands are already
printed; that way a chain, which leans to the left, is printed by recursion on the expression.
-/

namespace AccessPolicy

namespace Expr

/-! ### Binding -/

/-- How tightly an expression binds: `if`, `||`, `&&`, relations, sums, products, prefixes, members,
and what stands alone. -/
def binding : Expr → Nat
  | ite .. => 0
  | or .. => 1
  | and .. => 2
  | hasAttr .. | like .. | is .. | isMem .. => 3
  | binary op _ _ =>
    match op with
    | .add | .sub => 4
    | .mul => 5
    | .contains | .containsAll | .containsAny => 7
    | _ => 3
  | unary .isEmpty _ => 7
  | unary .. => 6
  | lit (.long n) => if n.toInt < 0 then 6 else 8
  | getAttr .. => 7
  | lit _ | var _ | slot _ | set _ | record _ => 8

/-- Whether the text of an expression starts with a digit. -/
def startsWithDigit : Expr → Bool
  | lit (.long n) => 0 ≤ n.toInt
  | getAttr e _ => startsWithDigit e
  | unary .isEmpty e => startsWithDigit e
  | binary op a _ => op.isMethod && startsWithDigit a
  | _ => false

/-! ### Parts -/

/-- The text of a literal. -/
def literalText (l : Literal) : String :=
  l.value.text

/-- A document in parentheses. -/
def parens (d : Doc) : Doc :=
  Doc.concat [.text "(", d, .text ")"]

/-- A document in parentheses, if its binding is below what its place asks for. -/
def wrap (binding least : Nat) (d : Doc) : Doc :=
  if binding < least then parens d else d

/-- Items between brackets, which are a group of their own. -/
def bracketed (indent : Nat) (opening : String) (items : List Doc) (closing : String) : Doc :=
  .group <| Doc.concat
    [.text opening,
     .nest indent (Doc.concat [.softLine, Doc.join (Doc.concat [.text ",", .line]) items]),
     .softLine, .text closing]

/-- A name behind a point, or in quotes and brackets where it needs quotes. -/
def accessText (name : String) : String :=
  if Grammar.isBareAttr name then "." ++ name else "[" ++ Quoted.quote name ++ "]"

/-- A name, in quotes where it needs them. -/
def attrText (name : String) : String :=
  if Grammar.isBareAttr name then name else Quoted.quote name

/-- A key of a record, in quotes where it needs them. -/
def keyText (name : String) : String :=
  if Name.isIdent name then name else Quoted.quote name

/-- What the operands of a binary operation have to bind like. -/
def operandBinding : BinaryOp → Nat × Nat
  | .add | .sub => (4, 5)
  | .mul => (5, 6)
  | _ => (4, 4)

/-- The other operands of a chain that an expression begins. -/
inductive Chain
  /-- The expression begins no chain. -/
  | none
  | and (operands : List Doc)
  | or (operands : List Doc)

/-- A chain as one group. -/
def chainDoc (symbol : String) (operands : List Doc) : Doc :=
  .group (Doc.join (Doc.concat [.text (" " ++ symbol), .line]) operands)

/-- The document of a chain, given the binding and the document of its first operand. -/
def Chain.finish (binding : Nat) (d : Doc) : Chain → Doc
  | none => d
  | and operands => chainDoc "&&" (wrap binding 2 d :: operands)
  | or operands => chainDoc "||" (wrap binding 1 d :: operands)

/-! ### Documents -/

mutual

/-- The document of an expression that begins a chain. -/
def docIn (indent : Nat) : Expr → Chain → Doc
  | and a b, .and ds => docIn indent a (.and (wrap b.binding 3 (docIn indent b .none) :: ds))
  | and a b, chain =>
    chain.finish 2 (docIn indent a (.and [wrap b.binding 3 (docIn indent b .none)]))
  | or a b, .or ds => docIn indent a (.or (wrap b.binding 2 (docIn indent b .none) :: ds))
  | or a b, chain =>
    chain.finish 1 (docIn indent a (.or [wrap b.binding 2 (docIn indent b .none)]))
  | lit l, chain => chain.finish (lit l).binding (.text (literalText l))
  | var v, chain => chain.finish 8 (.text v.name)
  | slot s, chain => chain.finish 8 (.text s.name)
  | ite c t e, chain =>
    chain.finish 0 <| .group <| Doc.concat
      [.text "if ", docIn indent c .none,
       .nest indent (Doc.concat
         [.line, .text "then ", docIn indent t .none, .line, .text "else ", docIn indent e .none])]
  | unary .not e, chain =>
    chain.finish 6 (Doc.concat [.text "!", wrap e.binding 6 (docIn indent e .none)])
  | unary .neg e, chain =>
    let d := docIn indent e .none
    chain.finish 6
      (Doc.concat [.text "-", if startsWithDigit e then parens d else wrap e.binding 6 d])
  | unary .isEmpty e, chain =>
    chain.finish 7 (Doc.concat [wrap e.binding 7 (docIn indent e .none), .text ".isEmpty()"])
  | binary op a b, chain =>
    if op.isMethod then
      chain.finish 7 (Doc.concat
        [wrap a.binding 7 (docIn indent a .none), .text ("." ++ op.symbol ++ "("),
         docIn indent b .none, .text ")"])
    else
      chain.finish (binding (binary op a b)) (Doc.concat
        [wrap a.binding (operandBinding op).1 (docIn indent a .none),
         .text (" " ++ op.symbol ++ " "),
         wrap b.binding (operandBinding op).2 (docIn indent b .none)])
  | getAttr e n, chain =>
    chain.finish 7 (Doc.concat [wrap e.binding 7 (docIn indent e .none), .text (accessText n)])
  | hasAttr e n, chain =>
    chain.finish 3
      (Doc.concat [wrap e.binding 4 (docIn indent e .none), .text (" has " ++ attrText n)])
  | like e p, chain =>
    chain.finish 3 (Doc.concat
      [wrap e.binding 4 (docIn indent e .none),
       .text (" like \"" ++ String.ofList (Quoted.encodePattern p) ++ "\"")])
  | is e t, chain =>
    chain.finish 3 (Doc.concat [wrap e.binding 4 (docIn indent e .none), .text (" is " ++ t)])
  | isMem e t g, chain =>
    chain.finish 3 (Doc.concat
      [wrap e.binding 4 (docIn indent e .none), .text (" is " ++ t), .text " in ",
       wrap g.binding 4 (docIn indent g .none)])
  | set items, chain => chain.finish 8 (bracketed indent "[" (docItems indent items) "]")
  | record fields, chain =>
    chain.finish 8 (bracketed indent "\x7b" (docFields indent fields) "\x7d")

/-- The documents of a list of expressions. -/
def docItems (indent : Nat) : List Expr → List Doc
  | [] => []
  | e :: es => docIn indent e .none :: docItems indent es

/-- The documents of a list of fields. -/
def docFields (indent : Nat) : List (String × Expr) → List Doc
  | [] => []
  | (k, e) :: fs =>
    Doc.concat [.text (keyText k ++ ": "), docIn indent e .none] :: docFields indent fs

end

/-- A variable is printed as its name. -/
theorem docIn_var (indent : Nat) (v : Var) (chain : Chain) :
    docIn indent (var v) chain = chain.finish 8 (.text v.name) := by
  rw [docIn]

/-- The document of an expression. -/
def doc (indent : Nat) (e : Expr) : Doc :=
  e.docIn indent .none

end Expr

/-! ### Policies -/

/-- The literal form. -/
def Reference.text : Reference → String
  | uid u => u.text
  | slot s => s.name

/-- The document of a scope. -/
def Scope.doc (indent : Nat) (variable_ : String) : Scope → Doc
  | any => .text variable_
  | eq r => .text (variable_ ++ " == " ++ r.text)
  | mem r => .text (variable_ ++ " in " ++ r.text)
  | is t => .text (variable_ ++ " is " ++ t)
  | isMem t r => .text (variable_ ++ " is " ++ t ++ " in " ++ r.text)
  | memAny us =>
    Doc.concat
      [.text (variable_ ++ " in "), Expr.bracketed indent "[" (us.map fun u => .text u.text) "]"]

/-- The document of a clause. -/
def Clause.doc (indent : Nat) (c : Clause) : Doc :=
  .group <| Doc.concat
    [.text (c.kind.name ++ " \x7b"), .nest indent (Doc.concat [.line, c.body.doc indent]), .line,
     .text "\x7d"]

namespace Policy

/-- The document of an annotation. -/
def annotationDoc (key value : String) : Doc :=
  Doc.concat [.text ("@" ++ key ++ "(" ++ Quoted.quote value ++ ")"), .hardLine]

/-- The document of a policy. The id is left out where the place gives it. -/
def doc (indent : Nat) (place : Nat) (p : Policy) : Doc :=
  Doc.concat <|
    (if p.id = defaultId place then [] else [annotationDoc "id" p.id]) ++
    p.annotations.map (fun a => annotationDoc a.1 a.2) ++
    [.text (p.effect.name ++ " ("),
     .nest indent (Doc.concat
       [.hardLine, p.principal.doc indent "principal", .text ",",
        .hardLine, p.action.doc indent "action", .text ",",
        .hardLine, p.resource.doc indent "resource"]),
     .hardLine, .text ")"] ++
    p.conditions.map (fun c => Doc.concat [.hardLine, c.doc indent]) ++
    [.text ";"]

/-- The text of a policy at a place of a text, with a newline at its end. -/
def printAt (p : Policy) (options : LayoutOptions) (place : Nat) : String :=
  (p.doc options.indentWidth place).render options.lineWidth ++ "\n"

/-- The text of a policy. -/
def print (p : Policy) (options : LayoutOptions) : String :=
  p.printAt options 0

/-- The text of a policy in the standard layout, without newlines at its end. -/
def text (p : Policy) : String :=
  String.ofList
    ((p.print .standard).toList.reverse.dropWhile (· == '\n')).reverse

end Policy

namespace PolicySet

/-- The texts of policies from a place on. -/
def printFrom (options : LayoutOptions) : (place : Nat) → List Policy → List String
  | _, [] => []
  | place, p :: ps => p.printAt options place :: printFrom options (place + 1) ps

/-- The text of a set, a blank line between policies: the static policies, then the templates. Links
have no text. -/
def print (s : PolicySet) (options : LayoutOptions) : String :=
  match printFrom options 0 (s.policies ++ s.templates) with
  | [] => "\n"
  | texts => "\n".intercalate texts

/-- The text of a set in the standard layout. -/
def text (s : PolicySet) : String :=
  s.print .standard

/-- The text of policies, printed in the canonical layout. -/
def format (text : String) (options : LayoutOptions) : Except Error String :=
  (PolicySet.parse text).map (·.print options)

end PolicySet

end AccessPolicy
