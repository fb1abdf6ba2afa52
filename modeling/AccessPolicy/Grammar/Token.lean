import AccessPolicy.Text.Name
import AccessPolicy.Text.Quoted
import AccessPolicy.Uid

/-!
# Tokens

Policies and schemas are texts of identifiers, strings, natural numbers and punctuation. Blanks and
comments, which start with two slashes and end with the line, may stand between any two of them.
`tokens` cuts a text; every token keeps the byte offset at which it starts.

`piece` takes one blank, comment or lexeme off the front of a text, the longest that starts there,
and returns it together with the rest.
-/

namespace AccessPolicy.Grammar

/-- Punctuation and operators. -/
inductive Symbol
  | openParen
  | closeParen
  | openBrace
  | closeBrace
  | openBracket
  | closeBracket
  | comma
  | semicolon
  | colon
  | pathSep
  | dot
  | sign
  | question
  | eqEq
  | notEq
  | less
  | lessEq
  | greater
  | greaterEq
  | andAnd
  | orOr
  | bang
  | plus
  | minus
  | star
deriving DecidableEq

/-- The characters of a symbol. -/
def Symbol.chars : Symbol → List Char
  | openParen => ['(']
  | closeParen => [')']
  | openBrace => ['\x7b']
  | closeBrace => ['\x7d']
  | openBracket => ['[']
  | closeBracket => [']']
  | comma => [',']
  | semicolon => [';']
  | colon => [':']
  | pathSep => [':', ':']
  | dot => ['.']
  | sign => ['@']
  | question => ['?']
  | eqEq => ['=', '=']
  | notEq => ['!', '=']
  | less => ['<']
  | lessEq => ['<', '=']
  | greater => ['>']
  | greaterEq => ['>', '=']
  | andAnd => ['&', '&']
  | orOr => ['|', '|']
  | bang => ['!']
  | plus => ['+']
  | minus => ['-']
  | star => ['*']

/-- A token without its place. -/
inductive Lexeme
  | ident (name : String)
  /-- A string by its body, the escapes as they stand. -/
  | str (body : String)
  /-- A number below 2⁶⁴. -/
  | int (n : Nat)
  | sym (s : Symbol)
deriving DecidableEq

/-- How error messages name a token; no token is the end of the text. -/
def Lexeme.describe : Option Lexeme → String
  | none => "end of input"
  | some (ident name) => s!"\x60{name}\x60"
  | some (str body) => s!"string \"{body}\""
  | some (int n) => s!"integer {n}"
  | some (sym s) => "\x60" ++ String.ofList s.chars ++ "\x60"

/-- A token. -/
structure Token where
  /-- The byte offset of its first character. -/
  start : Nat
  /-- The token itself. -/
  lexeme : Lexeme
deriving DecidableEq

/-- What is wrong at a place of a text. -/
inductive Complaint
  /-- Something else was to come. -/
  | expected (wanted : String) (found : Option Lexeme)
  /-- The text goes on behind what was read. -/
  | leftOver (lead : String) (found : Option Lexeme)
  | unterminated
  | tooLarge (digits : String)
  | unexpectedChar (c : Char)
  | escape (fault : EscapeFault)
  | typeWanted (found : Uid)
  | uidWanted (name : String)
  | annotatedTwice (key : String)
  | duplicateKey (key : String)
  | duplicateAttribute (name : String)
  | slotMisplaced (wanted found : String)
  | unknownSlot (name : String)
  | actionType
  | nesting
  | outOfRange (literal : String)
  | argumentOfIsEmpty
  | argumentCount (method : String)
  | unknownMethod (name : String)
  | extension (name : String)
  | unexpectedName (name : String)
  | actionWanted (path : String)
  | endInNamespace
deriving DecidableEq

/-- How deep expressions nest. -/
def nestingLimit : Nat := 256

/-- The wording of a complaint. -/
def Complaint.message : Complaint → String
  | expected wanted found => s!"expected {wanted}, found " ++ Lexeme.describe found
  | leftOver lead found => s!"{lead}, found " ++ Lexeme.describe found
  | unterminated => "unterminated string literal"
  | tooLarge digits => s!"integer literal {digits} is too large"
  | unexpectedChar c => "unexpected character \x60" ++ String.singleton c ++ "\x60"
  | escape fault => fault.message
  | typeWanted found => "expected an entity type, found entity " ++ found.text
  | uidWanted name => s!"expected an entity uid like {name}::\"id\""
  | annotatedTwice key => s!"duplicate annotation \x60@{key}\x60"
  | duplicateKey key => s!"duplicate record key \x60{key}\x60"
  | duplicateAttribute name => s!"duplicate attribute \x60{name}\x60"
  | slotMisplaced wanted found => s!"expected slot {wanted} here, found {found}"
  | unknownSlot name => s!"unknown slot \x60?{name}\x60"
  | actionType => "\x60is\x60 is not allowed in the action scope"
  | nesting => s!"expression nesting exceeds the limit of {nestingLimit}"
  | outOfRange literal => s!"integer literal {literal} is out of range"
  | argumentOfIsEmpty => "\x60isEmpty\x60 takes no arguments"
  | argumentCount method => s!"\x60{method}\x60 takes exactly one argument"
  | unknownMethod name => s!"unknown method \x60{name}\x60"
  | extension name => s!"extension function \x60{name}\x60 is not supported"
  | unexpectedName name => s!"unexpected identifier \x60{name}\x60"
  | actionWanted path => s!"expected an action name or uid, found type \x60{path}\x60"
  | endInNamespace => "unexpected end of input, expected \x60\x7d\x60"

/-- A complaint and the byte offset of its place. -/
structure Fault where
  /-- The byte offset. -/
  offset : Nat
  /-- What is wrong there. -/
  complaint : Complaint
deriving DecidableEq

/-! ### One piece -/

/-- What stands at the front of a text. -/
structure Piece where
  /-- The token; nothing for a blank or a comment. -/
  lexeme? : Option Lexeme
  /-- The characters of the piece. -/
  taken : List Char
  /-- The characters behind it. -/
  rest : List Char

/-- Whether a character may stand between tokens. -/
def isSpace (c : Char) : Bool :=
  c == ' ' || c == '\t' || c == '\n' || c == '\x0c' || c == '\r'

/-- The body of a string behind its opening quote, and the rest behind its closing quote. A
backslash takes the next character along, whatever it is. -/
def stringBody : List Char → Option (List Char × List Char)
  | [] => none
  | '"' :: cs => some ([], cs)
  | '\\' :: c :: cs => (stringBody cs).map fun r => ('\\' :: c :: r.1, r.2)
  | ['\\'] => none
  | c :: cs => (stringBody cs).map fun r => (c :: r.1, r.2)

/-- The symbol that two characters make. -/
def pairSymbol? (c d : Char) : Option Symbol :=
  if c = ':' ∧ d = ':' then some .pathSep
  else if c = '=' ∧ d = '=' then some .eqEq
  else if c = '!' ∧ d = '=' then some .notEq
  else if c = '<' ∧ d = '=' then some .lessEq
  else if c = '>' ∧ d = '=' then some .greaterEq
  else if c = '&' ∧ d = '&' then some .andAnd
  else if c = '|' ∧ d = '|' then some .orOr
  else none

/-- The symbol that one character makes. -/
def charSymbol? (c : Char) : Option Symbol :=
  if c = '(' then some .openParen
  else if c = ')' then some .closeParen
  else if c = '\x7b' then some .openBrace
  else if c = '\x7d' then some .closeBrace
  else if c = '[' then some .openBracket
  else if c = ']' then some .closeBracket
  else if c = ',' then some .comma
  else if c = ';' then some .semicolon
  else if c = ':' then some .colon
  else if c = '.' then some .dot
  else if c = '@' then some .sign
  else if c = '?' then some .question
  else if c = '<' then some .less
  else if c = '>' then some .greater
  else if c = '!' then some .bang
  else if c = '+' then some .plus
  else if c = '-' then some .minus
  else if c = '*' then some .star
  else none

/-- The longest symbol at the front of a text that starts with `c`, and its characters. -/
def symbol? (c : Char) : List Char → Option (Symbol × List Char × List Char)
  | [] => (charSymbol? c).map (·, [c], [])
  | d :: cs =>
    match pairSymbol? c d with
    | some s => some (s, [c, d], cs)
    | none => (charSymbol? c).map (·, [c], d :: cs)

/-- The number that decimal digits write. -/
def number (digits : List Char) : Nat :=
  digits.foldl (fun n c => 10 * n + (c.toNat - '0'.toNat)) 0

/-- The piece at the front of a text that starts with `c`. -/
def piece (c : Char) (cs : List Char) : Except Complaint Piece :=
  if isSpace c then .ok ⟨none, [c], cs⟩
  else if c = '/' ∧ cs.head? = some '/' then
    .ok ⟨none, c :: cs.takeWhile (· ≠ '\n'), cs.dropWhile (· ≠ '\n')⟩
  else if c = '"' then
    match stringBody cs with
    | none => .error .unterminated
    | some (body, rest) => .ok ⟨some (.str (String.ofList body)), c :: body ++ ['"'], rest⟩
  else if c.isDigit then
    let digits := c :: cs.takeWhile Char.isDigit
    let n := number digits
    if n < 18446744073709551616 then .ok ⟨some (.int n), digits, cs.dropWhile Char.isDigit⟩
    else .error (.tooLarge (String.ofList digits))
  else if Name.isStart c then
    let name := c :: cs.takeWhile Name.isRest
    .ok ⟨some (.ident (String.ofList name)), name, cs.dropWhile Name.isRest⟩
  else
    match symbol? c cs with
    | some (s, taken, rest) => .ok ⟨some (.sym s), taken, rest⟩
    | none => .error (.unexpectedChar c)

/-! ### Whole texts -/

/-- How many bytes characters take. -/
def byteCount (cs : List Char) : Nat :=
  cs.foldl (fun n c => n + c.utf8Size) 0

/-- The tokens of a text that starts at a byte offset. The count bounds the pieces. -/
def tokensFrom : (count offset : Nat) → List Char → Except Fault (List Token)
  | 0, _, _ => .ok []
  | _ + 1, _, [] => .ok []
  | count + 1, offset, c :: cs =>
    match piece c cs with
    | .error e => .error ⟨offset, e⟩
    | .ok p =>
      match tokensFrom count (offset + byteCount p.taken) p.rest with
      | .error e => .error e
      | .ok ts =>
        match p.lexeme? with
        | none => .ok ts
        | some l => .ok (⟨offset, l⟩ :: ts)

/-- The tokens of a text. -/
def tokens (text : String) : Except Fault (List Token) :=
  let cs := text.toList
  tokensFrom cs.length 0 cs

end AccessPolicy.Grammar
