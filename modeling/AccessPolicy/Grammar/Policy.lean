import AccessPolicy.Grammar.Expr
import AccessPolicy.Policy.Set

/-!
# The grammar of policies

A policy is a list of annotations, `permit` or `forbid`, three scopes in parentheses and any number
of clauses, with a semicolon at its end. The annotation `@id` gives the id; without it the id comes
from the place of the policy in the text.
-/

namespace AccessPolicy.Grammar

open Grammar.Parser

/-! ### Annotations -/

/-- The id and the other annotations. -/
structure Header where
  /-- The id, the last one given. -/
  id : String
  /-- The other annotations, by ascending key. -/
  annotations : List (String × String)

/-- The annotations in front of a policy. The count bounds them. -/
def header : (count : Nat) → Header → Parser Header
  | 0, h => pure h
  | count + 1, h => do
    if ← eatSymbol .sign then
      let key ← ident
      expectSymbol .openParen
      let value ← string
      expectSymbol .closeParen
      if key = "id" then header count { h with id := value }
      else if Ascending.hasKey key h.annotations then fail (.annotatedTwice key)
      else header count { h with annotations := Ascending.put key value h.annotations }
    else pure h

/-- The effect of a policy. -/
def effect : Parser Effect := do
  match ← peek with
  | some (.ident word) =>
    match Effect.ofName? word with
    | some e =>
      advance
      pure e
    | none => unexpected "\x60permit\x60 or \x60forbid\x60"
  | _ => unexpected "\x60permit\x60 or \x60forbid\x60"

/-! ### Scopes -/

/-- A uid, or the slot that belongs to the scope. -/
def reference (slot : Slot) : Parser Reference := do
  if ← eatSymbol .question then
    let name ← ident
    let found := "?" ++ name
    if found = slot.name then pure (.slot slot) else fail (.slotMisplaced slot.name found)
  else
    let u ← uid
    pure (.uid u)

/-- The scope of the principal or the resource. -/
def entityScope (var : Var) (slot : Slot) : Parser Scope := do
  expectKeyword var.name
  if ← eatSymbol .eqEq then
    let r ← reference slot
    pure (.eq r)
  else if ← eatKeyword "in" then
    let r ← reference slot
    pure (.mem r)
  else if ← eatKeyword "is" then
    let type ← typeName
    if ← eatKeyword "in" then
      let r ← reference slot
      pure (.isMem type r)
    else pure (.is type)
  else pure .any

/-- The scope of the action. -/
def actionScope : Parser Scope := do
  expectKeyword "action"
  if ← eatSymbol .eqEq then
    let u ← uid
    pure (.eq (.uid u))
  else if ← eatKeyword "in" then
    if ← eatSymbol .openBracket then
      let us ← listUntil .closeBracket uid
      pure (.memAny us)
    else
      let u ← uid
      pure (.mem (.uid u))
  else if (← peek) = some (.ident "is") then fail .actionType
  else pure .any

/-! ### Clauses and policies -/

/-- The kind of a clause that starts here. -/
def clauseKind? : Parser (Option ClauseKind) := do
  if ← eatKeyword "when" then pure (some .whenTrue)
  else if ← eatKeyword "unless" then pure (some .unlessTrue)
  else pure none

/-- The clauses of a policy. The count bounds them. -/
def clauses : (count : Nat) → Parser (List Clause)
  | 0 => pure []
  | count + 1 => do
    match ← clauseKind? with
    | none => pure []
    | some kind =>
      expectSymbol .openBrace
      let body ← bounded
      expectSymbol .closeBrace
      let rest ← clauses count
      pure (⟨kind, body⟩ :: rest)

/-- A policy, with an id to take if it has none of its own. -/
def policy (id : String) : Parser Policy := do
  let h ← header (← remaining) ⟨id, []⟩
  let e ← effect
  expectSymbol .openParen
  let principal ← entityScope .principal .principal
  expectSymbol .comma
  let action ← actionScope
  expectSymbol .comma
  let resource ← entityScope .resource .resource
  expectSymbol .closeParen
  let conditions ← clauses (← remaining)
  expectSymbol .semicolon
  pure ⟨h.id, e, principal, action, resource, conditions, h.annotations⟩

/-- Add policies up to the end of a text to a set that was made of the first `place` of them. A
policy that cannot be added ends it with the error. The count bounds the policies. -/
def policies : (count place : Nat) → PolicySet → Parser (Except Error PolicySet)
  | 0, _, set => pure (.ok set)
  | count + 1, place, set => do
    if (← peek).isNone then pure (.ok set)
    else
      let p ← policy (Policy.defaultId place)
      match set.add p with
      | .error e => pure (.error e)
      | .ok set => policies count (place + 1) set

/-- The set of all policies of a text. -/
def policySet : Parser (Except Error PolicySet) := do
  policies ((← remaining) + 1) 0 .empty

end AccessPolicy.Grammar

namespace AccessPolicy

open Grammar

/-- The one policy of a text. An id in the text comes before `id`, which comes before the id of the
first place. -/
def Policy.parse (text : String) (id : Option String) : Except Error Policy :=
  readAll text "expected exactly one policy" (policy (id.getD (Policy.defaultId 0)))

/-- The policies of a text, in order. -/
def PolicySet.parse (text : String) : Except Error PolicySet :=
  readText text policySet

end AccessPolicy
