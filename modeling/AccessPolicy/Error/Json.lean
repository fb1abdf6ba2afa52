import AccessPolicy.Error
import AccessPolicy.Json.Shape
import AccessPolicy.Value.Decode

/-!
# Errors as JSON

Each cause is an object with the name of the cause as its only key. Causes with several details have
an object of them, causes with one detail the detail itself.
-/

namespace AccessPolicy

/-! ### Records of details -/

/-- The details of a cause, as far as they are read. -/
structure Details where
  /-- The action. -/
  action : Uid
  /-- The texts by the names of their members. -/
  texts : List (String × String)
  /-- The number. -/
  number : Nat
  /-- The place. -/
  position : Position

namespace Details

/-- The details before anything is read. -/
def start : Details :=
  ⟨⟨"", ""⟩, [], 0, ⟨0, 0, 0⟩⟩

/-- The text of a member. -/
def text (d : Details) (name : String) : String :=
  (Json.find? name d.texts).getD ""

/-- A member that is a text. -/
def textField (name : String) : Json.Field Details :=
  ⟨name, true, fun v d => (Json.asString v).map fun t => { d with texts := (name, t) :: d.texts }⟩

/-- The member `action`. -/
def actionField : Json.Field Details :=
  ⟨"action", true, fun v d => (Uid.decode v).map fun u => { d with action := u }⟩

/-- A member that is a number. -/
def numberField (name : String) : Json.Field Details :=
  ⟨name, true, fun v d => (Json.asSize v).map fun n => { d with number := n }⟩

/-- Decode the details with the given members. -/
def read (fields : List (Json.Field Details)) (content : Option Json) :
    Except Json.Fault Details := do
  Json.readRecord ⟨false, false⟩ fields start (← Json.caseRecord content)

end Details

/-- The JSON form of a cause. -/
def causeToJson (name : String) (content : Json) : Json :=
  .obj [(name, content)]

/-- Decode the content of a cause. -/
def decodeContent {α : Type} (read : Json → Except Json.Fault α) (content : Option Json) :
    Except Json.Fault α := do
  read (← Json.caseContent content)

/-! ### Positions -/

namespace Position

/-- The fields of the JSON form. -/
def fields : List (Json.Field Position) :=
  [⟨"offset", true, fun v p => (Json.asSize v).map fun n => { p with offset := n }⟩,
   ⟨"line", true, fun v p => (Json.asSize v).map fun n => { p with line := n }⟩,
   ⟨"column", true, fun v p => (Json.asSize v).map fun n => { p with column := n }⟩]

/-- Decode the JSON form. -/
def decode (v : Json) : Except Json.Fault Position :=
  Json.readRecord ⟨false, false⟩ fields ⟨0, 0, 0⟩ v

/-- The JSON form. -/
def toJson (p : Position) : Json :=
  .obj [("offset", .int p.offset), ("line", .int p.line), ("column", .int p.column)]

end Position

/-! ### Failures of conditions -/

namespace EvalError

/-- The JSON form. -/
def toJson : EvalError → Json
  | typeMismatch expected found =>
    causeToJson "TypeMismatch" (.obj [("expected", .str expected), ("found", .str found)])
  | attributeNotFound target name =>
    causeToJson "AttributeNotFound" (.obj [("target", .str target), ("attribute", .str name)])
  | unknownEntity u => causeToJson "UnknownEntity" u.toJson
  | integerOverflow op => causeToJson "IntegerOverflow" (.obj [("op", .str op)])
  | recursionLimit limit => causeToJson "RecursionLimit" (.obj [("limit", .int limit)])
  | unlinkedSlot slot => causeToJson "UnlinkedSlot" (.str slot)

/-- Decode the JSON form. -/
def decode (v : Json) : Except Json.Fault EvalError := do
  let (name, content) ← Json.readVariant v
  match name with
  | "TypeMismatch" =>
    let d ← Details.read [Details.textField "expected", Details.textField "found"] content
    pure (typeMismatch (d.text "expected") (d.text "found"))
  | "AttributeNotFound" =>
    let d ← Details.read [Details.textField "target", Details.textField "attribute"] content
    pure (attributeNotFound (d.text "target") (d.text "attribute"))
  | "UnknownEntity" =>
    let u ← decodeContent Uid.decode content
    pure (unknownEntity u)
  | "IntegerOverflow" =>
    let d ← Details.read [Details.textField "op"] content
    pure (integerOverflow (d.text "op"))
  | "RecursionLimit" =>
    let d ← Details.read [Details.numberField "limit"] content
    pure (recursionLimit d.number)
  | "UnlinkedSlot" =>
    let s ← decodeContent Json.asString content
    pure (unlinkedSlot s)
  | _ => throw (.unknownVariant name)

end EvalError

/-! ### Requests that do not fit -/

namespace RequestError

/-- The JSON form. -/
def toJson : RequestError → Json
  | unknownAction action => causeToJson "UnknownAction" action.toJson
  | undeclaredEntityType type => causeToJson "UndeclaredEntityType" (.str type)
  | principalNotApplicable action type =>
    causeToJson "PrincipalNotApplicable"
      (.obj [("action", action.toJson), ("principal_type", .str type)])
  | resourceNotApplicable action type =>
    causeToJson "ResourceNotApplicable"
      (.obj [("action", action.toJson), ("resource_type", .str type)])
  | missingContextAttribute action name =>
    causeToJson "MissingContextAttribute"
      (.obj [("action", action.toJson), ("attribute", .str name)])
  | unexpectedContextAttribute action name =>
    causeToJson "UnexpectedContextAttribute"
      (.obj [("action", action.toJson), ("attribute", .str name)])
  | contextTypeMismatch action name expected found =>
    causeToJson "ContextTypeMismatch"
      (.obj [("action", action.toJson), ("attribute", .str name), ("expected", .str expected),
        ("found", .str found)])

/-- Decode the details that are an action and texts. -/
def details (names : List String) (content : Option Json) : Except Json.Fault Details :=
  Details.read (Details.actionField :: names.map Details.textField) content

/-- Decode the JSON form. -/
def decode (v : Json) : Except Json.Fault RequestError := do
  let (name, content) ← Json.readVariant v
  match name with
  | "UnknownAction" =>
    let u ← decodeContent Uid.decode content
    pure (unknownAction u)
  | "UndeclaredEntityType" =>
    let t ← decodeContent Json.asString content
    pure (undeclaredEntityType t)
  | "PrincipalNotApplicable" =>
    let d ← details ["principal_type"] content
    pure (principalNotApplicable d.action (d.text "principal_type"))
  | "ResourceNotApplicable" =>
    let d ← details ["resource_type"] content
    pure (resourceNotApplicable d.action (d.text "resource_type"))
  | "MissingContextAttribute" =>
    let d ← details ["attribute"] content
    pure (missingContextAttribute d.action (d.text "attribute"))
  | "UnexpectedContextAttribute" =>
    let d ← details ["attribute"] content
    pure (unexpectedContextAttribute d.action (d.text "attribute"))
  | "ContextTypeMismatch" =>
    let d ← details ["attribute", "expected", "found"] content
    pure (contextTypeMismatch d.action (d.text "attribute") (d.text "expected") (d.text "found"))
  | _ => throw (.unknownVariant name)

end RequestError

/-! ### Failures of operations -/

namespace Error

/-- The JSON form. -/
def toJson : Error → Json
  | syntaxError detail position =>
    causeToJson "SyntaxError" (.obj [("message", .str detail), ("position", position.toJson)])
  | schemaMismatch path detail =>
    causeToJson "SchemaMismatch" (.obj [("path", .str path), ("message", .str detail)])
  | duplicateId id => causeToJson "DuplicateId" (.str id)
  | duplicateEntity uid => causeToJson "DuplicateEntity" (.str uid)
  | requestValidation cause => causeToJson "RequestValidation" cause.toJson
  | entityValidation detail => causeToJson "EntityValidation" (.str detail)
  | policyValidation detail => causeToJson "PolicyValidation" (.str detail)
  | templateLink detail => causeToJson "TemplateLink" (.str detail)
  | evaluation cause => causeToJson "Evaluation" cause.toJson
  | invalidFormat detail => causeToJson "InvalidFormat" (.str detail)
  | notJson => causeToJson "InvalidFormat" (.str "the text is not JSON")
  | poisonedLock detail => causeToJson "PoisonedLockError" (.str detail)

/-- The member `position`. -/
def positionField : Json.Field Details :=
  ⟨"position", true, fun v d => (Position.decode v).map fun p => { d with position := p }⟩

/-- Decode the JSON form. -/
def decode (v : Json) : Except Json.Fault Error := do
  let (name, content) ← Json.readVariant v
  match name with
  | "SyntaxError" =>
    let d ← Details.read [Details.textField "message", positionField] content
    pure (syntaxError (d.text "message") d.position)
  | "SchemaMismatch" =>
    let d ← Details.read [Details.textField "path", Details.textField "message"] content
    pure (schemaMismatch (d.text "path") (d.text "message"))
  | "DuplicateId" =>
    let t ← decodeContent Json.asString content
    pure (duplicateId t)
  | "DuplicateEntity" =>
    let t ← decodeContent Json.asString content
    pure (duplicateEntity t)
  | "RequestValidation" =>
    let e ← decodeContent RequestError.decode content
    pure (requestValidation e)
  | "EntityValidation" =>
    let t ← decodeContent Json.asString content
    pure (entityValidation t)
  | "PolicyValidation" =>
    let t ← decodeContent Json.asString content
    pure (policyValidation t)
  | "TemplateLink" =>
    let t ← decodeContent Json.asString content
    pure (templateLink t)
  | "Evaluation" =>
    let e ← decodeContent EvalError.decode content
    pure (evaluation e)
  | "InvalidFormat" =>
    let t ← decodeContent Json.asString content
    pure (invalidFormat t)
  | "PoisonedLockError" =>
    let t ← decodeContent Json.asString content
    pure (poisonedLock t)
  | _ => throw (.unknownVariant name)

end Error

end AccessPolicy
