import AccessPolicy.Grammar.Token
import AccessPolicy.Json.Basic
import AccessPolicy.Json.Reader
import AccessPolicy.Tree.Encode
import AccessPolicy.Value.Decode

/-!
# Policies from trees

Every fault is reported with the path at which it is found. A node is read by its key from the
readers of its members and items: `Expr.partsOf` prepares one reader for each, and the key decides
which of them are run.
-/

namespace AccessPolicy

namespace Tree

open Json (Path)

/-! ### Members and single values -/

/-- The members of an object. -/
def object (v : Json) (path : Path) : Except Error (List (String × Json)) :=
  match v with
  | .obj members => .ok members
  | _ => mismatch path "expected an object"

/-- The items of an array. -/
def array (v : Json) (path : Path) : Except Error (List Json) :=
  match v with
  | .arr items => .ok items
  | _ => mismatch path "expected an array"

/-- A text. -/
def string (v : Json) (path : Path) : Except Error String :=
  match v with
  | .str s => .ok s
  | _ => mismatch path "expected a string"

/-- A member that has to be present. -/
def field (members : List (String × Json)) (key : String) (path : Path) : Except Error Json :=
  match Json.find? key members with
  | some v => .ok v
  | none => mismatch path s!"missing \x60{key}\x60"

/-- Run a reader on each item, with the path of the item. -/
def eachItem {α : Type} (read : Json → Path → Except Error α) :
    List Json → (index : Nat) → Path → Except Error (List α)
  | [], _, _ => .ok []
  | v :: vs, i, path =>
    match read v (path.item i) with
    | .error e => .error e
    | .ok x => (eachItem read vs (i + 1) path).map (x :: ·)

/-- A type name. -/
def typeName (members : List (String × Json)) (path : Path) : Except Error String := do
  let at_ := path.member "entity_type"
  let type ← string (← field members "entity_type" path) at_
  if Name.isTypeName type then pure type else mismatch at_ "invalid entity type name"

/-- A uid, given by its members or by an object with them under `Value.entityKey`. -/
def uid (v : Json) (path : Path) : Except Error Uid := do
  let outer ← object v path
  let members ←
    match Json.find? Value.entityKey outer with
    | some inner => object inner (path.member Value.entityKey)
    | none => pure outer
  let type ← string (← field members "type" path) (path.member "type")
  let id ← string (← field members "id" path) (path.member "id")
  match Uid.ofParts type id with
  | .ok u => pure u
  | .error e => mismatch (path.member "type") e.message

end Tree

namespace Expr

open AccessPolicy.Tree
open Json (Path)

/-! ### Literals -/

mutual

/-- The expression of a literal; arrays and objects become sets and records. -/
def ofLiteral : Json → Path → Except Error Expr
  | .bool b, _ => .ok (lit (.bool b))
  | .int n, path =>
    match Long.ofInt? n with
    | some l => .ok (lit (.long l))
    | none => mismatch path "expected a 64-bit integer"
  | .float _, path => mismatch path "expected a 64-bit integer"
  | .str s, _ => .ok (lit (.string s))
  | .arr items, path => (ofLiteralItems items 0 path).map set
  | .obj members, path =>
    if Json.hasKey Value.entityKey members then
      (Tree.uid (.obj members) path).map fun u => lit (.entity u)
    else (ofLiteralFields members path).map record
  | .null, path => mismatch path "null is not a valid value"

/-- The expressions of the items of an array, of which the first has the given index. -/
def ofLiteralItems : List Json → Nat → Path → Except Error (List Expr)
  | [], _, _ => .ok []
  | v :: vs, i, path =>
    match ofLiteral v (path.item i) with
    | .error e => .error e
    | .ok x => (ofLiteralItems vs (i + 1) path).map (x :: ·)

/-- The fields of the members of an object. -/
def ofLiteralFields : List (String × Json) → Path → Except Error (List (String × Expr))
  | [], _ => .ok []
  | (k, v) :: ms, path =>
    match ofLiteral v (path.member k) with
    | .error e => .error e
    | .ok x => (ofLiteralFields ms path).map ((k, x) :: ·)

end

/-! ### Patterns -/

/-- One place of a pattern. -/
def glob (v : Json) (path : Path) : Except Error Glob :=
  match v with
  | .str "Wildcard" => .ok .wildcard
  | .obj members => do
    let s ← string (← field members "Literal" path) (path.member "Literal")
    match s.toList with
    | [c] => pure (.char c)
    | _ => mismatch path "pattern literal must be a single character"
  | _ => mismatch path "expected \x60Wildcard\x60 or \x7b\"Literal\": ...\x7d"

/-! ### Nodes -/

/-- Readers for the parts of a node's body, each waiting for its path. -/
structure Parts where
  /-- A reader for each member of an object. -/
  members : List (String × (Path → Except Error Expr))
  /-- A reader for each item of an array. -/
  items : List (Path → Except Error Expr)

/-- Run the reader of a member that has to be present. -/
def Parts.sub (parts : Parts) (body : Json) (path : Path) (key : String) : Except Error Expr := do
  let _ ← object body path
  match parts.members.find? (·.1 = key) with
  | some m => m.2 (path.member key)
  | none => mismatch path s!"missing \x60{key}\x60"

/-- Run the readers of the items in order. -/
def runItems : List (Path → Except Error Expr) → (index : Nat) → Path → Except Error (List Expr)
  | [], _, _ => .ok []
  | f :: fs, i, path =>
    match f (path.item i) with
    | .error e => .error e
    | .ok x => (runItems fs (i + 1) path).map (x :: ·)

/-- Run the readers of the members in order. -/
def runMembers :
    List (String × (Path → Except Error Expr)) → Path → Except Error (List (String × Expr))
  | [], _ => .ok []
  | (k, f) :: fs, path =>
    match f (path.member k) with
    | .error e => .error e
    | .ok x => (runMembers fs path).map ((k, x) :: ·)

/-- The name of an attribute. -/
def attrName (body : Json) (path : Path) : Except Error String := do
  let members ← object body path
  string (← field members "attr" path) (path.member "attr")

/-- The unary operation of a key. -/
def unaryOp? (key : String) : Option UnaryOp :=
  [UnaryOp.not, .neg, .isEmpty].find? (·.key = key)

/-- The expression of a node. -/
def ofNode (key : String) (body : Json) (parts : Parts) (path : Path) : Except Error Expr :=
  let here := path.member key
  let sub := parts.sub body here
  match unaryOp? key with
  | some op => do
    let e ← sub "arg"
    pure (unary op e)
  | none =>
    match key with
    | "Value" => ofLiteral body here
    | "Var" => do
      let name ← string body here
      match Var.ofName? name with
      | some v => pure (var v)
      | none => mismatch here s!"unknown variable \x60{name}\x60"
    | "Slot" => do
      let name ← string body here
      match Slot.ofName? name with
      | some s => pure (slot s)
      | none => mismatch here s!"unknown slot \x60{name}\x60"
    | "&&" => do
      let a ← sub "left"
      let b ← sub "right"
      pure (and a b)
    | "||" => do
      let a ← sub "left"
      let b ← sub "right"
      pure (or a b)
    | "." => do
      let e ← sub "left"
      let n ← attrName body here
      pure (getAttr e n)
    | "has" => do
      let e ← sub "left"
      let n ← attrName body here
      pure (hasAttr e n)
    | "like" => do
      let members ← object body here
      let items ← array (← field members "pattern" here) (here.member "pattern")
      let globs ← eachItem glob items 0 (here.member "pattern")
      let e ← sub "left"
      pure (like e globs)
    | "is" => do
      let members ← object body here
      let type ← Tree.typeName members here
      let e ← sub "left"
      if Json.hasKey "in" members then
        let g ← sub "in"
        pure (isMem e type g)
      else pure (is e type)
    | "if-then-else" => do
      let c ← sub "if"
      let t ← sub "then"
      let e ← sub "else"
      pure (ite c t e)
    | "Set" => do
      let _ ← array body here
      let items ← runItems parts.items 0 here
      pure (set items)
    | "Record" => do
      let _ ← object body here
      let fields ← runMembers parts.members here
      pure (record fields)
    | _ =>
      match BinaryOp.ofSymbol? key with
      | some op => do
        let a ← sub "left"
        let b ← sub "right"
        pure (binary op a b)
      | none => mismatch path s!"unknown operator \x60{key}\x60"

mutual

/-- The expression of a tree. -/
def ofTree : Json → Path → Except Error Expr
  | .obj [(key, body)], path => ofNode key body (partsOf body) path
  | .obj _, path => mismatch path "expression node must have exactly one key"
  | _, path => mismatch path "expected an object"

/-- The readers for the parts of a body. -/
def partsOf : Json → Parts
  | .obj members => ⟨memberReaders members, []⟩
  | .arr items => ⟨[], itemReaders items⟩
  | _ => ⟨[], []⟩

/-- A reader for each item. -/
def itemReaders : List Json → List (Path → Except Error Expr)
  | [] => []
  | v :: vs => ofTree v :: itemReaders vs

/-- A reader for each member. -/
def memberReaders : List (String × Json) → List (String × (Path → Except Error Expr))
  | [] => []
  | (k, v) :: ms => (k, ofTree v) :: memberReaders ms

end

end Expr

namespace Tree

open Json (Path)

/-! ### Policies -/

/-- A uid or the slot that belongs to the scope. -/
def reference (members : List (String × Json)) (slot : Option Slot) (path : Path) :
    Except Error Reference :=
  match Json.find? "entity" members with
  | some v => (uid v (path.member "entity")).map .uid
  | none =>
    match Json.find? "slot" members with
    | some v => do
      let here := path.member "slot"
      match Slot.ofName? (← string v here) with
      | none => mismatch here "unknown slot"
      | some s =>
        if slot = some s then pure (.slot s)
        else mismatch here ("slot " ++ s.name ++ " is not allowed here")
    | none => mismatch path "missing \x60entity\x60 or \x60slot\x60"

/-- A scope; the scope of the action is the one without a slot. -/
def scope (v : Json) (slot : Option Slot) (path : Path) : Except Error Scope := do
  let members ← object v path
  let op ← string (← field members "op" path) (path.member "op")
  if op = "All" then pure .any
  else if op = "==" then
    let r ← reference members slot path
    pure (.eq r)
  else if op = "in" then
    match Json.find? "entities" members with
    | none =>
      let r ← reference members slot path
      pure (.mem r)
    | some list =>
      let here := path.member "entities"
      match list, slot with
      | .arr items, none =>
        let us ← eachItem uid items 0 here
        pure (.memAny us)
      | _, _ => mismatch here "entity lists are only allowed in the action scope"
  else if op = "is" ∧ slot.isSome then
    let type ← typeName members path
    match Json.find? "in" members with
    | none => pure (.is type)
    | some inner =>
      let here := path.member "in"
      let r ← reference (← object inner here) slot here
      pure (.isMem type r)
  else mismatch (path.member "op") s!"unknown scope operator \x60{op}\x60"

/-- A clause. -/
def clause (v : Json) (path : Path) : Except Error Clause := do
  let members ← object v path
  let kindPath := path.member "kind"
  match ClauseKind.ofName? (← string (← field members "kind" path) kindPath) with
  | none => mismatch kindPath "expected \x60when\x60 or \x60unless\x60"
  | some kind =>
    let bodyPath := path.member "body"
    let body ← Expr.ofTree (← field members "body" path) bodyPath
    if Grammar.nestingLimit < body.depth then
      mismatch bodyPath s!"expression nesting exceeds the limit of {Grammar.nestingLimit}"
    else pure ⟨kind, body⟩

/-- The annotations of a policy, by ascending key. -/
def annotations (members : List (String × Json)) (path : Path) :
    Except Error (List (String × String)) :=
  match members with
  | [] => .ok []
  | (k, v) :: ms => do
    let here := path.member k
    if Name.isIdent k then
      let value ← string v here
      let rest ← annotations ms path
      pure (Ascending.put k value rest)
    else mismatch here "annotation key must be an identifier"

/-- The clauses among the members of a policy, which may be missing. -/
def conditions (members : List (String × Json)) (path : Path) : Except Error (List Clause) :=
  match Json.find? "conditions" members with
  | none => .ok []
  | some list => do
    let here := path.member "conditions"
    eachItem clause (← array list here) 0 here

/-- The annotations among the members of a policy, which may be missing. -/
def notes (members : List (String × Json)) (path : Path) : Except Error (List (String × String)) :=
  match Json.find? "annotations" members with
  | none => .ok []
  | some raw => do
    let here := path.member "annotations"
    annotations (← object raw here) here

/-- A policy, with an id to take if it has no annotation `id`. -/
def policy (v : Json) (id : String) (path : Path) : Except Error Policy := do
  let members ← object v path
  let effectPath := path.member "effect"
  match Effect.ofName? (← string (← field members "effect" path) effectPath) with
  | none => mismatch effectPath "expected \x60permit\x60 or \x60forbid\x60"
  | some effect =>
    let principal ←
      scope (← field members "principal" path) (some .principal) (path.member "principal")
    let action ← scope (← field members "action" path) none (path.member "action")
    let resource ←
      scope (← field members "resource" path) (some .resource) (path.member "resource")
    let conditions ← conditions members path
    let notes ← notes members path
    let id := (Ascending.get? "id" notes).getD id
    pure ⟨id, effect, principal, action, resource, conditions, notes.filter (·.1 ≠ "id")⟩

/-! ### Policy sets -/

/-- Add the members of a section, which holds either templates or static policies. -/
def addSection (templates : Bool) (path : Path) :
    List (String × Json) → PolicySet → Except Error PolicySet
  | [], set => .ok set
  | (id, v) :: ms, set => do
    let here := path.member id
    let p ← policy v id here
    if p.isTemplate ∧ ¬templates then mismatch here "static policy contains template slots"
    else if ¬p.isTemplate ∧ templates then mismatch here "template has no slots"
    else
      let set ← set.add p
      addSection templates path ms set

/-- Add a section that may be missing. -/
def addOptional (templates : Bool) (members : List (String × Json)) (set : PolicySet) :
    Except Error PolicySet :=
  let key := if templates then "templates" else "staticPolicies"
  match Json.find? key members with
  | none => .ok set
  | some v => do
    let here := (Path.root "$").member key
    addSection templates here (← object v here) set

/-- The values of a link, by ascending slot. -/
def linkValues (path : Path) : List (String × Json) → Except Error (List (Slot × Uid))
  | [] => .ok []
  | (k, v) :: ms =>
    match Slot.ofName? k with
    | none => mismatch path s!"unknown slot \x60{k}\x60"
    | some s => do
      let u ← uid v (path.member k)
      let rest ← linkValues path ms
      pure (Ascending.put s u rest)

/-- Add links, of which the first has the given index. -/
def addLinks : List Json → (index : Nat) → PolicySet → Except Error PolicySet
  | [], _, set => .ok set
  | v :: vs, i, set => do
    let path := ((Path.root "$").member "templateLinks").item i
    let members ← object v path
    let template ← string (← field members "templateId" path) path
    let id ← string (← field members "newId" path) path
    let here := path.member "values"
    let values ← linkValues here (← object (← field members "values" path) here)
    let set ← set.link template id values
    addLinks vs (i + 1) set

end Tree

open Json (Path)

/-- The policy of a tree. The annotation `id` comes before `id`, which comes before the id of the
first place. -/
def Policy.ofTree (v : Json) (id : Option String) : Except Error Policy :=
  Tree.policy v (id.getD (Policy.defaultId 0)) (.root "$")

/-- The policy set of a tree: first the static policies, then the templates, then the links. -/
def PolicySet.ofTree (v : Json) : Except Error PolicySet := do
  let members ← Tree.object v (.root "$")
  let set ← Tree.addOptional false members .empty
  let set ← Tree.addOptional true members set
  match Json.find? "templateLinks" members with
  | none => pure set
  | some list =>
    Tree.addLinks (← Tree.array list ((Path.root "$").member "templateLinks")) 0 set

/-- The policy set of a text that holds a tree. -/
def PolicySet.ofTreeText (text : String) : Except Error PolicySet :=
  match Json.parse? text with
  | none => .error .notJson
  | some v => PolicySet.ofTree v

end AccessPolicy
