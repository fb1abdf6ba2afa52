import AccessPolicy.Json.Skim
import AccessPolicy.Value.Decode

/-!
# Requests

A request asks whether a principal may take an action on a resource in a context, which is a record.
It may carry a token that the response repeats.

A context is read in two ways: by itself as a value, which has to be a record, and as a part of a
request, member by member.
-/

namespace AccessPolicy

/-- The attributes of a request's circumstances, by ascending name. -/
abbrev Context : Type :=
  List (String × Value)

namespace Context

/-- The context as a value. -/
def toValue (c : Context) : Value :=
  .record c

/-- The context of a JSON value. -/
def ofJson (v : Json) : Except Error Context :=
  match Value.ofJsonAt v (.root "context") with
  | .error e => .error e
  | .ok (.record fields) => .ok fields
  | .ok v => .error (.invalidFormat ("context must be a record, found " ++ v.kind.name))

/-- The values of the members of a context. -/
def decodeMembers : List (String × Json) → Except Json.Fault Context
  | [] => .ok []
  | (k, v) :: ms =>
    match Value.ofJson v.merge with
    | .error e => .error (.content e.message)
    | .ok x => (decodeMembers ms).map ((k, x) :: ·)

/-- The context that a part of a request stands for. -/
def decode (v : Json) : Except Json.Fault Context := do
  (decodeMembers (← Json.asObject v)).map Ascending.ofPairs

end Context

/-- A request. -/
structure Request where
  /-- Who asks. -/
  principal : Uid
  /-- What is to be done. -/
  action : Uid
  /-- What it is to be done to. -/
  resource : Uid
  /-- The circumstances. -/
  context : Context
  /-- A token of the caller. -/
  correlationId : Option String
deriving DecidableEq

namespace Request

/-- A request without context and token. -/
def ofUids (principal action resource : Uid) : Request :=
  ⟨principal, action, resource, [], none⟩

/-- Give the request a context. -/
def withContext (r : Request) (c : Context) : Request :=
  { r with context := c }

/-- Give the request a token. -/
def withCorrelationId (r : Request) (token : String) : Request :=
  { r with correlationId := some token }

/-! ### JSON -/

/-- The JSON form. -/
def toJson (r : Request) : Json :=
  .obj <|
    [("principal", r.principal.toJson), ("action", r.action.toJson),
      ("resource", r.resource.toJson), ("context", r.context.toValue.toJson)] ++
    match r.correlationId with
    | none => []
    | some token => [("correlation_id", .str token)]

/-- A request of which some fields are read. -/
structure Draft where
  /-- The principal, if read. -/
  principal : Option Uid
  /-- The action, if read. -/
  action : Option Uid
  /-- The resource, if read. -/
  resource : Option Uid
  /-- The context. -/
  context : Context
  /-- The token. -/
  correlationId : Option String

/-- A uid in either form. -/
def decodeUid (v : Json) : Except Json.Fault Uid :=
  (Uid.ofJson v.merge).mapError fun e => .content e.message

/-- The fields of the JSON form. -/
def fields : List (Json.Field Draft) :=
  [⟨"principal", true, fun v d => (decodeUid v).map fun u => { d with principal := some u }⟩,
   ⟨"action", true, fun v d => (decodeUid v).map fun u => { d with action := some u }⟩,
   ⟨"resource", true, fun v d => (decodeUid v).map fun u => { d with resource := some u }⟩,
   ⟨"context", false, fun v d => (Context.decode v).map fun c => { d with context := c }⟩,
   ⟨"correlation_id", false, fun v d =>
     (Json.asOption Json.asString v).map fun t => { d with correlationId := t }⟩]

/-- The request of a draft that has all fields it needs. -/
def Draft.finish (d : Draft) : Except Json.Fault Request :=
  match d.principal, d.action, d.resource with
  | some p, some a, some r => .ok ⟨p, a, r, d.context, d.correlationId⟩
  | none, _, _ => .error (.missingField "principal")
  | _, none, _ => .error (.missingField "action")
  | _, _, none => .error (.missingField "resource")

/-- Decode the JSON form. Where it is read from a text, objects have every member of the text. -/
def decodeAs (fromText : Bool) (v : Json) : Except Json.Fault Request := do
  let d ← Json.readRecord ⟨false, fromText⟩ fields ⟨none, none, none, [], none⟩ v
  d.finish

/-- Decode the JSON form. -/
def decode (v : Json) : Except Json.Fault Request :=
  decodeAs false v

/-- The request of a JSON text. Members that are no fields of a request are passed over, so a text
that is no JSON value as a whole may hold one; a text that is refused and is no JSON value is
reported as such. -/
def ofText (text : String) : Except Error Request :=
  match Json.skim? (fields.map (·.name)) text with
  | none => .error .notJson
  | some v =>
    (decodeAs true v).mapError fun e =>
      if (Json.read? text).isSome then .invalidFormat e.message else .notJson

end Request

end AccessPolicy
