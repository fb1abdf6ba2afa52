import AccessPolicy.Json.Basic
import AccessPolicy.Uid

/-!
# Errors and their positions

What can go wrong, by cause. `EvalError` is a failure of one condition, which never ends an
authorization; `RequestError` a request that does not fit its action's declaration; `Error` is what
the operations of the library fail with. Errors travel as JSON, so their details are texts; each
type has one function `message` for its wording. An error of the grammar has the `Position` in the
text where it was found.
-/

namespace AccessPolicy

/-! ### Positions in a text

An offset counts bytes of the text's UTF-8 form; lines and columns count from one, and columns
count characters. `Position.ofOffset` turns the first into the second. An offset past the end means
the end, and an offset inside a character means the place right after it. -/

/-- A place in a text. -/
structure Position where
  /-- Bytes before the place. -/
  offset : Nat
  /-- The line, counted from one. -/
  line : Nat
  /-- The column, counted in characters from one. -/
  column : Nat
deriving DecidableEq

namespace Position

/-- Line and column after the characters that start within the next `left` bytes, when the first of
them stands at line `line` and column `column`. -/
def advance : List Char → (left line column : Nat) → Nat × Nat
  | [], _, line, column => (line, column)
  | _ :: _, 0, line, column => (line, column)
  | c :: cs, left + 1, line, column =>
    if c = '\n' then advance cs (left + 1 - c.utf8Size) (line + 1) 1
    else advance cs (left + 1 - c.utf8Size) line (column + 1)

/-- The place of a byte offset. -/
def ofOffset (text : String) (offset : Nat) : Position :=
  let (line, column) := advance text.toList offset 1 1
  ⟨min offset text.utf8ByteSize, line, column⟩

/-- The written form, as error messages have it. -/
def text (p : Position) : String :=
  s!"line {p.line}, column {p.column}"

end Position

/-! ### Causes -/

/-- Why a condition cannot be evaluated. -/
inductive EvalError
  | typeMismatch (expected found : String)
  | attributeNotFound (target name : String)
  | unknownEntity (uid : Uid)
  | integerOverflow (op : String)
  | recursionLimit (limit : Nat)
  | unlinkedSlot (slot : String)
deriving DecidableEq

/-- The wording of the error. -/
def EvalError.message : EvalError → String
  | typeMismatch expected found => s!"type mismatch: expected {expected}, found {found}"
  | attributeNotFound target name =>
    s!"attribute \x60{name}\x60 not found on {target}"
  | unknownEntity uid => "entity " ++ uid.text ++ " does not exist"
  | integerOverflow op => s!"integer overflow while evaluating \x60{op}\x60"
  | recursionLimit limit => s!"expression nesting exceeds the limit of {limit}"
  | unlinkedSlot slot => s!"template slot {slot} is not linked"

/-- Why a request does not fit the declaration of its action. -/
inductive RequestError
  | unknownAction (action : Uid)
  | undeclaredEntityType (type : String)
  | principalNotApplicable (action : Uid) (type : String)
  | resourceNotApplicable (action : Uid) (type : String)
  | missingContextAttribute (action : Uid) (name : String)
  | unexpectedContextAttribute (action : Uid) (name : String)
  | contextTypeMismatch (action : Uid) (name expected found : String)
deriving DecidableEq

/-- The wording of the error. -/
def RequestError.message : RequestError → String
  | unknownAction action => "action " ++ action.text ++ " is not declared in the schema"
  | undeclaredEntityType type => s!"entity type \x60{type}\x60 is not declared in the schema"
  | principalNotApplicable action type =>
    s!"principal type \x60{type}\x60 is not applicable to action " ++ action.text
  | resourceNotApplicable action type =>
    s!"resource type \x60{type}\x60 is not applicable to action " ++ action.text
  | missingContextAttribute action name =>
    "context for action " ++ action.text ++ s!" is missing required attribute \x60{name}\x60"
  | unexpectedContextAttribute action name =>
    "context for action " ++ action.text ++ s!" has undeclared attribute \x60{name}\x60"
  | contextTypeMismatch action name expected found =>
    s!"context attribute \x60{name}\x60 for action " ++ action.text ++
      s!": expected {expected}, found {found}"

/-- Why an operation of the library fails. -/
inductive Error
  /-- A text breaks the grammar at a place. -/
  | syntaxError (detail : String) (position : Position)
  /-- A policy tree has the wrong shape at a path. -/
  | schemaMismatch (path detail : String)
  | duplicateId (id : String)
  | duplicateEntity (uid : String)
  | requestValidation (cause : RequestError)
  | entityValidation (detail : String)
  | policyValidation (detail : String)
  | templateLink (detail : String)
  | evaluation (cause : EvalError)
  /-- Data does not have the expected form. -/
  | invalidFormat (detail : String)
  /-- Data that should be JSON is not. -/
  | notJson
  | poisonedLock (detail : String)
deriving DecidableEq

/-- The wording of the error. -/
def Error.message : Error → String
  | syntaxError detail position => "syntax error at " ++ position.text ++ ": " ++ detail
  | schemaMismatch path detail =>
    s!"structured input does not match the expected shape at \x60{path}\x60: {detail}"
  | duplicateId id => s!"duplicate policy id: {id}"
  | duplicateEntity uid => s!"duplicate entity: {uid}"
  | requestValidation cause => "request validation error: " ++ cause.message
  | entityValidation detail => s!"entity validation error: {detail}"
  | policyValidation detail => s!"policy validation failed: {detail}"
  | templateLink detail => s!"template link error: {detail}"
  | evaluation cause => "evaluation error: " ++ cause.message
  | invalidFormat detail => s!"Invalid format: {detail}"
  | notJson => "Invalid format: the text is not JSON"
  | poisonedLock detail => s!"Poisoned lock error: {detail}"

/-- The failure of finding a wrong shape at a path. -/
def mismatch {α : Type} (path : Json.Path) (detail : String) : Except Error α :=
  .error (.schemaMismatch path.text detail)

end AccessPolicy
