/-!
# Quoted text

A text between double quotes is written with escapes: a backslash before a quote or another
backslash, `\n`, `\r`, `\t` and `\0`, and `\u` with the code point in braces, in lower-case
hexadecimal, for every other control character. Reading also takes `\'` and any code point of up to
six hexadecimal digits.

Patterns are written the same way, except that a bare star is a wildcard and an escaped star is the
star itself. Both readings are one scan, `scan`, which is told what a bare character and an escaped
one stand for.
-/

namespace AccessPolicy

/-- One place of a glob pattern. -/
inductive Glob
  /-- Exactly this character. -/
  | char (c : Char)
  /-- Any run of characters, the empty one included. -/
  | wildcard
deriving DecidableEq

/-- Why an escape cannot be read. -/
inductive EscapeFault
  /-- `\u` stands without an opening brace. -/
  | braceMissing
  /-- Something other than up to six hexadecimal digits stands in the braces. -/
  | malformed
  /-- The digits name no Unicode scalar value. -/
  | notScalar (digits : String)
  /-- No escape begins with this character. -/
  | unknown (c : Char)
  /-- The backslash is the last character. -/
  | dangling
deriving DecidableEq

namespace EscapeFault

/-- The wording of the fault. -/
def message : EscapeFault → String
  | braceMissing => "expected \x60\x7b\x60 after \x60\\u\x60"
  | malformed => "malformed unicode escape"
  | notScalar digits => "invalid unicode scalar \\u\x7b" ++ digits ++ "\x7d"
  | unknown c => "unknown escape sequence \x60\\" ++ String.singleton c ++ "\x60"
  | dangling => "dangling \x60\\\x60 at end of string"

end EscapeFault

namespace Quoted

/-! ### Digits -/

/-- The value of a hexadecimal digit. -/
def hexValue? (c : Char) : Option Nat :=
  if c.isDigit then some (c.toNat - '0'.toNat)
  else if 'a' ≤ c ∧ c ≤ 'f' then some (c.toNat - 'a'.toNat + 10)
  else if 'A' ≤ c ∧ c ≤ 'F' then some (c.toNat - 'A'.toNat + 10)
  else none

/-- The number that hexadecimal digits write; other characters count as zero. -/
def hexNumber (digits : List Char) : Nat :=
  digits.foldl (fun n c => 16 * n + (hexValue? c).getD 0) 0

/-- The scalar value that hexadecimal digits name. -/
def scalar? (digits : List Char) : Option Char :=
  if digits.isEmpty then none
  else
    let n := hexNumber digits
    if n.isValidChar then some (Char.ofNat n) else none

/-! ### Reading -/

/-- The character that a one-letter escape stands for. -/
def letter? (c : Char) : Option Char :=
  if c = 'n' then some '\n'
  else if c = 'r' then some '\r'
  else if c = 't' then some '\t'
  else if c = '0' then some '\x00'
  else if c = '\\' ∨ c = '"' ∨ c = '\x27' then some c
  else none

/-- Where a scan stands. -/
inductive Place
  /-- Between characters. -/
  | plain
  /-- After a backslash. -/
  | escape
  /-- After `\u`. -/
  | brace
  /-- In the braces, after these digits, which stand in reverse. -/
  | digits (seen : List Char)
deriving DecidableEq

/-- Read a quoted body to its end. An unescaped character `c` stands for `bare c`, an escape for
the character `c` for `coded c`, and `star` says whether the star can be escaped. -/
def scan {α : Type} (bare coded : Char → α) (star : Bool) :
    Place → List Char → Except EscapeFault (List α)
  | .plain, [] => .ok []
  | .plain, c :: cs =>
    if c = '\\' then scan bare coded star .escape cs
    else (scan bare coded star .plain cs).map (bare c :: ·)
  | .escape, [] => .error .dangling
  | .escape, c :: cs =>
    if c = 'u' then scan bare coded star .brace cs
    else if c = '*' ∧ star then (scan bare coded star .plain cs).map (coded c :: ·)
    else
      match letter? c with
      | some d => (scan bare coded star .plain cs).map (coded d :: ·)
      | none => .error (.unknown c)
  | .brace, [] => .error .braceMissing
  | .brace, c :: cs =>
    if c = '\x7b' then scan bare coded star (.digits []) cs else .error .braceMissing
  | .digits _, [] => .error .malformed
  | .digits seen, c :: cs =>
    if c = '\x7d' then
      match scalar? seen.reverse with
      | some d => (scan bare coded star .plain cs).map (coded d :: ·)
      | none => .error (.notScalar (String.ofList seen.reverse))
    else if (hexValue? c).isSome ∧ seen.length < 6 then
      scan bare coded star (.digits (c :: seen)) cs
    else .error .malformed

/-- The text that a quoted body stands for. -/
def decode (body : List Char) : Except EscapeFault (List Char) :=
  scan id id false .plain body

/-- What a bare character stands for in a pattern. -/
def bareGlob (c : Char) : Glob :=
  if c = '*' then .wildcard else .char c

/-- The pattern that a quoted body stands for. -/
def decodePattern (body : List Char) : Except EscapeFault (List Glob) :=
  scan bareGlob .char true .plain body

/-! ### Writing -/

/-- Whether a character is a control character: U+0000 to U+001F and U+007F to U+009F. -/
def isControl (c : Char) : Bool :=
  c.toNat < 0x20 || (0x7F ≤ c.toNat && c.toNat < 0xA0)

/-- One character inside quotes. -/
def encodeChar (c : Char) : List Char :=
  if c = '"' then ['\\', '"']
  else if c = '\\' then ['\\', '\\']
  else if c = '\n' then ['\\', 'n']
  else if c = '\r' then ['\\', 'r']
  else if c = '\t' then ['\\', 't']
  else if c = '\x00' then ['\\', '0']
  else if isControl c then '\\' :: 'u' :: '\x7b' :: Nat.toDigits 16 c.toNat ++ ['\x7d']
  else [c]

/-- One place of a pattern inside quotes. -/
def encodeGlob : Glob → List Char
  | .wildcard => ['*']
  | .char c => if c = '*' then ['\\', '*'] else encodeChar c

/-- The body that stands for a text. -/
def encode (s : List Char) : List Char :=
  s.flatMap encodeChar

/-- The body that stands for a pattern. -/
def encodePattern (globs : List Glob) : List Char :=
  globs.flatMap encodeGlob

/-- A text in quotes. -/
def quote (s : String) : String :=
  "\"" ++ String.ofList (encode s.toList) ++ "\""

end Quoted

end AccessPolicy
