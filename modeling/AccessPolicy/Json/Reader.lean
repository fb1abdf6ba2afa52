import AccessPolicy.Json.Basic
import AccessPolicy.Text.Quoted

/-!
# Reading JSON text

`Json.read?` reads a whole text. Arrays and objects nest at most `maxLevels` deep. A surrogate must
be half of a pair, and a number must have a binary64 form; an integer that fits 64 bits, signed or
not, is kept exactly. `Json.parse?` also merges repeated keys.

Each reader takes characters off the front of a list and returns the rest. The grammar is stated
once, by `value?`, for every `Reading` of the parts.
-/

namespace AccessPolicy.Json

/-! ### Blanks and words -/

/-- Whether a character may stand between tokens. -/
def isSpace (c : Char) : Bool :=
  c == ' ' || c == '\n' || c == '\t' || c == '\r'

/-- The characters after leading blanks. -/
def trim (cs : List Char) : List Char :=
  cs.dropWhile isSpace

/-- The rest behind a word. -/
def word? : (word : List Char) → List Char → Option (List Char)
  | [], cs => some cs
  | _ :: _, [] => none
  | w :: ws, c :: cs => if w = c then word? ws cs else none

/-! ### Strings -/

/-- The number of four hexadecimal digits. -/
def unit? (a b c d : Char) : Option Nat :=
  if [a, b, c, d].all (fun x => (Quoted.hexValue? x).isSome) then
    some (Quoted.hexNumber [a, b, c, d])
  else none

/-- The character that a one-letter escape stands for. -/
def shortEscape? (c : Char) : Option Char :=
  if c = '"' ∨ c = '\\' ∨ c = '/' then some c
  else if c = 'b' then some '\x08'
  else if c = 'f' then some '\x0c'
  else if c = 'n' then some '\n'
  else if c = 'r' then some '\r'
  else if c = 't' then some '\t'
  else none

/-- Put a character in front of what was read. -/
def push (c : Char) (r : List Char × List Char) : List Char × List Char :=
  (c :: r.1, r.2)

/-- The body of a string, behind its opening quote, and the rest behind its closing quote. -/
def body? : List Char → Option (List Char × List Char)
  | [] => none
  | c :: cs =>
    if c = '"' then some ([], cs)
    else if c = '\\' then
      match cs with
      | [] => none
      | e :: cs =>
        if e = 'u' then
          match cs with
          | d₁ :: d₂ :: d₃ :: d₄ :: cs =>
            match unit? d₁ d₂ d₃ d₄ with
            | none => none
            | some n =>
              if 0xDC00 ≤ n ∧ n < 0xE000 then none
              else if 0xD800 ≤ n ∧ n < 0xDC00 then
                match cs with
                | '\\' :: 'u' :: e₁ :: e₂ :: e₃ :: e₄ :: cs =>
                  match unit? e₁ e₂ e₃ e₄ with
                  | none => none
                  | some m =>
                    if 0xDC00 ≤ m ∧ m < 0xE000 then
                      (body? cs).map
                        (push (Char.ofNat (0x10000 + (n - 0xD800) * 0x400 + (m - 0xDC00))))
                    else none
                | _ => none
              else (body? cs).map (push (Char.ofNat n))
          | _ => none
        else
          match shortEscape? e with
          | none => none
          | some d => (body? cs).map (push d)
    else if c.toNat < 0x20 then none
    else (body? cs).map (push c)

/-! ### Numbers -/

/-- The greatest significand that is kept. -/
def maxSignificand : Nat := 18446744073709551615

/-- The value of a decimal digit. -/
def digitValue (c : Char) : Nat :=
  c.toNat - '0'.toNat

/-- Take up digits while the significand stays in range; the flag tells whether it did. -/
def accumulate : (significand : Nat) → List Char → Nat × List Char
  | n, [] => (n, [])
  | n, c :: cs =>
    let n' := 10 * n + digitValue c
    if n' ≤ maxSignificand then accumulate n' cs else (n, c :: cs)

/-- The power of ten, rounded to binary64. -/
def powerOfTen (n : Nat) : Float :=
  Float.ofScientific 1 false n

/-- Scale a binary64 number by a power of ten, in steps of at most `10 ^ 308`; `none` if it leaves
the range. -/
def scaleFloat : (steps : Nat) → Float → Int → Option Float
  | 0, f, _ => some f
  | steps + 1, f, e =>
    if e.natAbs ≤ 308 then
      if 0 ≤ e then
        let g := f * powerOfTen e.natAbs
        if g.isInf then none else some g
      else some (f / powerOfTen e.natAbs)
    else if f == 0.0 then some f
    else if 0 ≤ e then none
    else scaleFloat steps (f / powerOfTen 308) (e + 308)

/-- The number `significand * 10 ^ exponent`, negated if `negative`, as a binary64 value. -/
def floatValue (negative : Bool) (significand : Nat) (exponent : Int) : Option Json :=
  (scaleFloat (exponent.natAbs / 308 + 1) significand.toUInt64.toFloat exponent).map fun f =>
    .float (if negative then -f else f).toBits

/-- The greatest exponent that is told apart from overflow. -/
def maxExponent : Nat := 2147483647

/-- Keep a number in the range of signed 32-bit integers. -/
def clampExponent (e : Int) : Int :=
  max (-2147483648) (min maxExponent e)

/-- The value of a number with an exponent part, given the exponent so far. -/
def exponentValue (negative : Bool) (significand : Nat) (soFar : Int) (down : Bool)
    (digits : List Char) : Option Json :=
  let e := digits.foldl (fun n c => 10 * n + digitValue c) 0
  if maxExponent < e then
    if significand ≠ 0 ∧ ¬down then none
    else some (.float (if negative then (-0.0 : Float) else 0.0).toBits)
  else
    let e : Int := if down then -(e : Int) else e
    floatValue negative significand (clampExponent (soFar + e))

/-- The value of an integer without a fraction or an exponent. -/
def integerValue (negative : Bool) (significand : Nat) : Json :=
  if negative then
    if 1 ≤ significand ∧ significand ≤ 9223372036854775808 then .int (-(significand : Int))
    else .float (-significand.toUInt64.toFloat).toBits
  else .int significand

/-- A run of decimal digits and the rest. -/
def digitRun (cs : List Char) : List Char × List Char :=
  (cs.takeWhile Char.isDigit, cs.dropWhile Char.isDigit)

/-- The exponent part, behind its letter. -/
def exponentPart (negative : Bool) (significand : Nat) (soFar : Int) (cs : List Char) :
    Option (Json × List Char) :=
  let (down, cs) :=
    match cs with
    | '+' :: cs => (false, cs)
    | '-' :: cs => (true, cs)
    | cs => (false, cs)
  let (digits, rest) := digitRun cs
  if digits.isEmpty then none
  else (exponentValue negative significand soFar down digits).map (·, rest)

/-- What follows the digits before the point, of which `significand` was kept and `dropped` were
not. -/
def afterInteger (negative : Bool) (significand : Nat) (dropped : Nat) :
    List Char → Option (Json × List Char)
  | '.' :: cs =>
    let (digits, rest) := digitRun cs
    if digits.isEmpty then none
    else
      let (significand, left) := accumulate significand digits
      let soFar : Int := dropped - (digits.length - left.length : Nat)
      match rest with
      | 'e' :: rest => exponentPart negative significand soFar rest
      | 'E' :: rest => exponentPart negative significand soFar rest
      | rest => (floatValue negative significand soFar).map (·, rest)
  | 'e' :: cs => exponentPart negative significand dropped cs
  | 'E' :: cs => exponentPart negative significand dropped cs
  | cs =>
    if dropped = 0 then some (integerValue negative significand, cs)
    else (floatValue negative significand dropped).map (·, cs)

/-- A number, behind its sign. -/
def number? (negative : Bool) (cs : List Char) : Option (Json × List Char) :=
  match digitRun cs with
  | ([], _) => none
  | (d :: ds, rest) =>
    if d = '0' ∧ ds ≠ [] then none
    else
      let (significand, left) := accumulate 0 (d :: ds)
      afterInteger negative significand left.length rest

/-! ### The grammar -/

/-- A reader: what stands at the front and the rest. -/
abbrev Reader (α : Type) : Type :=
  List Char → Option (α × List Char)

variable {κ α : Type}

/-- The items of an array behind its opening bracket or a comma. The count bounds the items. -/
def items? (item : Reader α) : (count : Nat) → Reader (List α)
  | 0, _ => none
  | count + 1, cs =>
    match item (trim cs) with
    | none => none
    | some (v, cs) =>
      match trim cs with
      | ',' :: cs => (items? item count cs).map fun r => (v :: r.1, r.2)
      | ']' :: cs => some ([v], cs)
      | _ => none

/-- The members of an object behind its opening brace or a comma, the value of each read as its key
asks. The count bounds the members. -/
def members? (key : Reader κ) (item : κ → Reader α) : (count : Nat) → Reader (List (κ × α))
  | 0, _ => none
  | count + 1, cs =>
    match trim cs with
    | '"' :: cs =>
      match key cs with
      | none => none
      | some (k, cs) =>
        match trim cs with
        | ':' :: cs =>
          match item k (trim cs) with
          | none => none
          | some (v, cs) =>
            match trim cs with
            | ',' :: cs => (members? key item count cs).map fun r => ((k, v) :: r.1, r.2)
            | '\x7d' :: cs => some ([(k, v)], cs)
            | _ => none
        | _ => none
    | _ => none

/-- An array of at most `size` items behind its opening bracket. -/
def array? (item : Reader α) (size : Nat) (cs : List Char) : Option (List α × List Char) :=
  match trim cs with
  | ']' :: cs => some ([], cs)
  | cs => items? item size cs

/-- An object of at most `size` members behind its opening brace. -/
def object? (key : Reader κ) (item : κ → Reader α) (size : Nat) (cs : List Char) :
    Option (List (κ × α) × List Char) :=
  match trim cs with
  | '\x7d' :: cs => some ([], cs)
  | cs => members? key item size cs

/-- What is made of the parts of a text. -/
structure Reading (κ α : Type) where
  /-- A value that does not start with a bracket or a brace. -/
  scalar : Reader α
  /-- A key, behind its opening quote. -/
  key : Reader κ
  /-- An array of these items. -/
  array : List α → α
  /-- An object of these members. -/
  object : List (κ × α) → α

/-- A value with at most `room` levels, each array and object of at most `size` parts. -/
def value? (m : Reading κ α) (size : Nat) : (room : Nat) → Reader α
  | 0, cs => m.scalar cs
  | room + 1, cs =>
    match cs with
    | '[' :: cs => (array? (value? m size room) size cs).map fun r => (m.array r.1, r.2)
    | '\x7b' :: cs =>
      (object? m.key (fun _ => value? m size room) size cs).map fun r => (m.object r.1, r.2)
    | cs => m.scalar cs

/-- What a list of characters holds apart from blanks around it. The reader is given their number,
which no array or object exceeds. -/
def whole? (read : (size : Nat) → Reader α) (cs : List Char) : Option α :=
  match read cs.length (trim cs) with
  | some (v, rest) => if (trim rest).isEmpty then some v else none
  | none => none

/-! ### Values -/

/-- How deep arrays and objects may nest. -/
def maxLevels : Nat := 127

/-- A text, behind its opening quote. -/
def text? (cs : List Char) : Option (String × List Char) :=
  (body? cs).map fun r => (String.ofList r.1, r.2)

/-- A value that does not start with a bracket or a brace. -/
def scalar? : Reader Json
  | 'n' :: cs => (word? ['u', 'l', 'l'] cs).map (.null, ·)
  | 't' :: cs => (word? ['r', 'u', 'e'] cs).map (.bool true, ·)
  | 'f' :: cs => (word? ['a', 'l', 's', 'e'] cs).map (.bool false, ·)
  | '"' :: cs => (text? cs).map fun r => (.str r.1, r.2)
  | '-' :: cs => number? true cs
  | cs => number? false cs

/-- Reading that keeps all of a value, objects with every member of the text. -/
def inFull : Reading String Json :=
  ⟨scalar?, text?, .arr, .obj⟩

/-- The value of a text, objects with every member of the text. -/
def read? (s : String) : Option Json :=
  whole? (value? inFull · maxLevels) s.toList

/-- The value of a text, each key of an object once. -/
def parse? (s : String) : Option Json :=
  (read? s).map merge

end AccessPolicy.Json
