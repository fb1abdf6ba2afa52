/-!
# Identifiers and type names

An identifier is an ASCII letter or underscore followed by ASCII letters, digits and underscores. A
type name is a path of identifiers joined by `::`; everything before its last segment is its
namespace.
-/

namespace AccessPolicy.Name

/-- Whether a character can begin an identifier. -/
def isStart (c : Char) : Bool :=
  c == '_' || c.isAlpha

/-- Whether a character can continue an identifier. -/
def isRest (c : Char) : Bool :=
  c == '_' || c.isAlphanum

/-- Whether the characters spell an identifier. -/
def isIdentChars : List Char → Bool
  | [] => false
  | c :: cs => isStart c && cs.all isRest

/-- Whether a text is an identifier. -/
def isIdent (s : String) : Bool :=
  isIdentChars s.toList

/-- Cut a path at every `::`, from the left. The first piece continues `piece`, whose characters
stand in reverse. -/
def segmentsFrom (piece : List Char) : List Char → List (List Char)
  | [] => [piece.reverse]
  | [c] => [(c :: piece).reverse]
  | c :: d :: cs =>
    if c = ':' ∧ d = ':' then piece.reverse :: segmentsFrom [] cs
    else segmentsFrom (c :: piece) (d :: cs)

/-- The segments of a path; the empty text is one empty segment. -/
def segments (path : String) : List String :=
  (segmentsFrom [] path.toList).map String.ofList

/-- Whether a text is a type name. -/
def isTypeName (name : String) : Bool :=
  (segmentsFrom [] name.toList).all isIdentChars

/-- The segments before the last. -/
def namespaceOf (name : String) : List String :=
  (segments name).dropLast

/-- A type name in a namespace, and the name itself where there is none. -/
def qualify (space : String) (name : String) : String :=
  if space.isEmpty then name else space ++ "::" ++ name

end AccessPolicy.Name
