import AccessPolicy.Grammar.Token
import AccessPolicy.Error

/-!
# Reading tokens

A `Parser` is the tree of the steps that a reader of tokens takes: it looks at tokens, leaves them
out and counts those that are left, until it gives a result or complains about the place where it
stands. `Parser.run` takes the steps on a stream of tokens. This module holds the readers that
policies, expressions and schemas share.
-/

namespace AccessPolicy.Grammar

/-- The tokens still to be read. -/
structure Stream where
  /-- The tokens. -/
  tokens : List Token
  /-- The byte length of the text, which is where its end stands. -/
  stop : Nat

/-- The byte offset of the next token or of the end. -/
def Stream.offset (s : Stream) : Nat :=
  match s.tokens with
  | [] => s.stop
  | t :: _ => t.start

/-- A reader of tokens, as the tree of its steps. What comes after a step may depend on what the
step found. -/
inductive Parser (α : Type) : Type
  /-- Give a result. -/
  | protected give (a : α)
  /-- Complain about the current place. -/
  | fail (c : Complaint)
  /-- Look at the token so many places behind the next one. -/
  | protected look (ahead : Nat) (next : Option Lexeme → Parser α)
  /-- Leave out the next token. -/
  | protected skip (next : Parser α)
  /-- Count the tokens that are left. -/
  | protected count (next : Nat → Parser α)

namespace Parser

variable {α β : Type}

/-- One reader and then another one, made of the result of the first. -/
protected def bind : Parser α → (α → Parser β) → Parser β
  | .give a, f => f a
  | .fail c, _ => .fail c
  | .look ahead next, f => .look ahead fun found => (next found).bind f
  | .skip next, f => .skip (next.bind f)
  | .count next, f => .count fun left => (next left).bind f

instance : Monad Parser where
  pure := Parser.give
  bind := Parser.bind

/-- Take the steps of a reader on a stream. -/
def run : Parser α → Stream → Except Fault (α × Stream)
  | .give a, s => .ok (a, s)
  | .fail c, s => .error ⟨s.offset, c⟩
  | .look ahead next, s => (next ((s.tokens.drop ahead).head?.map (·.lexeme))).run s
  | .skip next, s => next.run { s with tokens := s.tokens.tail }
  | .count next, s => (next s.tokens.length).run s

instance : CoeFun (Parser α) fun _ => Stream → Except Fault (α × Stream) where
  coe := run

/-- The second reader goes on where the first one ends. -/
theorem run_bind (p : Parser α) (f : α → Parser β) (s : Stream) :
    (p >>= f) s = (do
      let (a, s) ← p s
      f a s) := by
  induction p generalizing s with
  | give a => rfl
  | fail c => rfl
  | look ahead next ih => exact ih _ s
  | skip next ih => exact ih _
  | count next ih => exact ih _ s

/-! ### Looking and moving -/

/-- The next token. -/
def peek : Parser (Option Lexeme) :=
  .look 0 pure

/-- The token after the next. -/
def peekSecond : Parser (Option Lexeme) :=
  .look 1 pure

/-- Leave out the next token. -/
def advance : Parser Unit :=
  .skip (pure ())

/-- How many tokens are left. -/
def remaining : Parser Nat :=
  .count pure

/-- Complain that something else was to come. -/
def unexpected (wanted : String) : Parser α := do
  fail (.expected wanted (← peek))

/-! ### Single tokens -/

/-- Take a token if it comes next, and tell whether it did. -/
def eat (l : Lexeme) : Parser Bool := do
  if (← peek) = some l then
    advance
    pure true
  else pure false

/-- Take a token that has to come next. -/
def expect (l : Lexeme) : Parser Unit := do
  if ← eat l then pure () else unexpected (Lexeme.describe (some l))

/-- Take a symbol if it comes next. -/
def eatSymbol (s : Symbol) : Parser Bool :=
  eat (.sym s)

/-- Take a symbol that has to come next. -/
def expectSymbol (s : Symbol) : Parser Unit :=
  expect (.sym s)

/-- Take a keyword if it comes next. -/
def eatKeyword (word : String) : Parser Bool :=
  eat (.ident word)

/-- Take a keyword that has to come next. -/
def expectKeyword (word : String) : Parser Unit :=
  expect (.ident word)

/-- The text has to end here. -/
def expectEnd (lead : String) : Parser Unit := do
  match ← peek with
  | none => pure ()
  | found => fail (.leftOver lead found)

/-- An identifier. -/
def ident : Parser String := do
  match ← peek with
  | some (.ident name) =>
    advance
    pure name
  | _ => unexpected "an identifier"

/-- A string, with its escapes decoded. -/
def string : Parser String := do
  match ← peek with
  | some (.str body) =>
    match Quoted.decode body.toList with
    | .error e => fail (.escape e)
    | .ok s =>
      advance
      pure (String.ofList s)
  | _ => unexpected "a string literal"

/-- An identifier or a string. -/
def name : Parser String := do
  match ← peek with
  | some (.str _) => string
  | _ => ident

/-! ### Paths -/

/-- A type name or, where the path ends in a string, a uid. -/
inductive Path
  | type (name : String)
  | uid (u : Uid)

/-- The segments of a path after the first. The count bounds the segments. -/
def pathRest : (count : Nat) → (soFar : String) → Parser Path
  | 0, soFar => pure (.type soFar)
  | count + 1, soFar => do
    if (← peek) = some (.sym .pathSep) then
      match ← peekSecond with
      | some (.ident segment) =>
        advance
        advance
        pathRest count (soFar ++ "::" ++ segment)
      | some (.str _) =>
        advance
        pure (.uid ⟨soFar, ← string⟩)
      | _ =>
        advance
        unexpected "an identifier or entity id"
    else pure (.type soFar)

/-- A type name or a uid. -/
def path : Parser Path := do
  let first ← ident
  pathRest (← remaining) first

/-- A type name. -/
def typeName : Parser String := do
  match ← path with
  | .type name => pure name
  | .uid u => fail (.typeWanted u)

/-- A uid. -/
def uid : Parser Uid := do
  match ← path with
  | .uid u => pure u
  | .type name => fail (.uidWanted name)

/-! ### Lists -/

/-- Items with commas between them, up to a closing symbol; at least one. The count bounds the
items. -/
def itemsUntil (close : Symbol) (item : Parser α) : (count : Nat) → Parser (List α)
  | 0 => unexpected (Lexeme.describe (some (.sym close)))
  | count + 1 => do
    let x ← item
    if ← eatSymbol close then pure [x]
    else
      expectSymbol .comma
      let xs ← itemsUntil close item count
      pure (x :: xs)

/-- Items with commas between them, up to a closing symbol; perhaps none. -/
def listUntil (close : Symbol) (item : Parser α) : Parser (List α) := do
  if ← eatSymbol close then pure []
  else itemsUntil close item ((← remaining) + 1)

end Parser

/-! ### Whole texts -/

/-- The error of a fault in a text. -/
def Fault.toError (text : String) (f : Fault) : Error :=
  .syntaxError f.complaint.message (Position.ofOffset text f.offset)

/-- What a reader that gives a result or an error makes of the tokens of a text. -/
def readTokens {α : Type} (text : String) (p : Parser (Except Error α)) (ts : List Token) :
    Except Error α :=
  match p ⟨ts, text.utf8ByteSize⟩ with
  | .error e => .error (e.toError text)
  | .ok (r, _) => r

/-- Read a whole text with a reader that gives a result or an error. -/
def readText {α : Type} (text : String) (p : Parser (Except Error α)) : Except Error α :=
  match tokens text with
  | .error e => .error (e.toError text)
  | .ok ts => readTokens text p ts

/-- A reader up to the end of a text, with what is made of its result. -/
def Parser.upToEnd {α β : Type} (lead : String) (p : Parser α) (f : α → Except Error β) :
    Parser (Except Error β) := do
  let a ← p
  expectEnd lead
  pure (f a)

/-- Read a whole text up to its end. -/
def readAll {α : Type} (text : String) (lead : String) (p : Parser α) : Except Error α :=
  readText text (p.upToEnd lead .ok)

end AccessPolicy.Grammar

namespace AccessPolicy.Uid

open Grammar in
/-- The uid of a literal. -/
def parse (text : String) : Except Error Uid :=
  readAll text "unexpected input after entity uid" Parser.uid

end AccessPolicy.Uid
