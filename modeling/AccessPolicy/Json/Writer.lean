import AccessPolicy.Json.Basic

/-!
# Compact JSON text

`Json.text` writes a value without any white space. Strings are written as they are, except that a
quote, a backslash and the control characters below U+0020 are escaped, five of them by a letter and
the others by four lower-case hexadecimal digits.
-/

namespace AccessPolicy.Json

/-- One character of a string. -/
def escapeChar (c : Char) : List Char :=
  if c = '"' then ['\\', '"']
  else if c = '\\' then ['\\', '\\']
  else if c = '\x08' then ['\\', 'b']
  else if c = '\t' then ['\\', 't']
  else if c = '\n' then ['\\', 'n']
  else if c = '\x0c' then ['\\', 'f']
  else if c = '\r' then ['\\', 'r']
  else if c.toNat < 0x20 then
    ['\\', 'u', '0', '0', Nat.digitChar (c.toNat / 16), Nat.digitChar (c.toNat % 16)]
  else [c]

/-- A string in quotes. -/
def stringChars (s : String) : List Char :=
  '"' :: s.toList.flatMap escapeChar ++ ['"']

mutual

/-- The text of a value, as characters. -/
def chars : Json → List Char
  | null => ['n', 'u', 'l', 'l']
  | bool true => ['t', 'r', 'u', 'e']
  | bool false => ['f', 'a', 'l', 's', 'e']
  | int n => (toString n).toList
  | float bits => (Decimal.floatText bits).toList
  | str s => stringChars s
  | arr [] => ['[', ']']
  | arr (v :: vs) => '[' :: chars v ++ restItems vs
  | obj [] => ['\x7b', '\x7d']
  | obj ((k, v) :: ms) => '\x7b' :: stringChars k ++ ':' :: chars v ++ restMembers ms

/-- The items after the first, each behind a comma, and the closing bracket. -/
def restItems : List Json → List Char
  | [] => [']']
  | v :: vs => ',' :: chars v ++ restItems vs

/-- The members after the first, each behind a comma, and the closing brace. -/
def restMembers : List (String × Json) → List Char
  | [] => ['\x7d']
  | (k, v) :: ms => ',' :: stringChars k ++ ':' :: chars v ++ restMembers ms

end

/-- The compact text of a value. -/
def text (v : Json) : String :=
  String.ofList (chars v)

end AccessPolicy.Json
