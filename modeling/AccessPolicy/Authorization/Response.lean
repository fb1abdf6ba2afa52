import AccessPolicy.Ascending
import AccessPolicy.Error
import AccessPolicy.Json.Shape

/-!
# Responses

A response is a decision together with the ids of the policies that brought it about and of those
that could not be evaluated.
-/

namespace AccessPolicy

/-- A decision. -/
inductive Decision
  | allow
  | deny
deriving DecidableEq

namespace Decision

/-- The name of a decision. -/
def name : Decision → String
  | allow => "allow"
  | deny => "deny"

/-- The decision of a name. -/
def ofName? (s : String) : Option Decision :=
  [allow, deny].find? (·.name = s)

end Decision

/-- The answer to a request. -/
structure Response where
  /-- The decision. -/
  decision : Decision
  /-- The token of the request. -/
  correlationId : Option String
  /-- The ids of the policies that brought the decision about, ascending. -/
  reasons : List String
  /-- The ids of the policies that could not be evaluated, ascending. -/
  errors : List String
  /-- Why they could not, by ascending id. -/
  details : List (String × EvalError)
deriving DecidableEq

namespace Response

/-- Whether the request is allowed. -/
def isAllowed (r : Response) : Bool :=
  r.decision = .allow

/-- The decision and the reasons. -/
def text (r : Response) : String :=
  r.decision.name ++ "(" ++ ", ".intercalate r.reasons ++ ")"

/-! ### JSON -/

/-- The JSON form, which leaves the details out. -/
def toJson (r : Response) : Json :=
  .obj
    [("decision", .str r.decision.name),
     ("correlation_id", match r.correlationId with | none => .null | some t => .str t),
     ("diagnostics",
       .obj [("reasons", .arr (r.reasons.map .str)), ("errors", .arr (r.errors.map .str))])]

/-- Decode a set of ids. -/
def decodeIds (v : Json) : Except Json.Fault (List String) :=
  (Json.asList Json.asString v).map Ascending.ofList

/-- The fields of the diagnostics: the reasons and the errors. -/
def diagnosticFields : List (Json.Field (List String × List String)) :=
  [⟨"reasons", true, fun v s => (decodeIds v).map fun ids => (ids, s.2)⟩,
   ⟨"errors", true, fun v s => (decodeIds v).map fun ids => (s.1, ids)⟩]

/-- The fields of the JSON form. -/
def fields : List (Json.Field Response) :=
  [⟨"decision", true, fun v r =>
     (Json.readCase Decision.ofName? v).map fun d => { r with decision := d }⟩,
   ⟨"correlation_id", false, fun v r =>
     (Json.asOption Json.asString v).map fun t => { r with correlationId := t }⟩,
   ⟨"diagnostics", true, fun v r =>
     (Json.readRecord ⟨false, false⟩ diagnosticFields ([], []) v).map fun d =>
       { r with reasons := d.1, errors := d.2 }⟩]

/-- Decode the JSON form. -/
def decode (v : Json) : Except Json.Fault Response :=
  Json.readRecord ⟨false, false⟩ fields ⟨.deny, none, [], [], []⟩ v

end Response

end AccessPolicy
