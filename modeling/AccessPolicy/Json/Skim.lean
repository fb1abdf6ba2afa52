import AccessPolicy.Json.Reader

/-!
# Reading some members of an object

`Json.skim?` reads the members of an object that have the given names and passes over the values of
the others. A value that is passed over has to keep to the grammar, and no more is asked of it: it
may nest at any depth, its strings may hold half a pair of surrogates, and its numbers may lie
outside the range of binary64.
-/

namespace AccessPolicy.Json

/-! ### Passing over a value -/

/-- Pass over the body of a string, behind its opening quote. -/
def passBody? : List Char → Option (Unit × List Char)
  | [] => none
  | c :: cs =>
    if c = '"' then some ((), cs)
    else if c = '\\' then
      match cs with
      | [] => none
      | e :: cs =>
        if e = 'u' then
          match cs with
          | d₁ :: d₂ :: d₃ :: d₄ :: cs =>
            if (unit? d₁ d₂ d₃ d₄).isSome then passBody? cs else none
          | _ => none
        else if (shortEscape? e).isSome then passBody? cs
        else none
    else if c.toNat < 0x20 then none
    else passBody? cs

/-- Pass over decimal digits, of which there is at least one. -/
def passDigits? (cs : List Char) : Option (Unit × List Char) :=
  match digitRun cs with
  | ([], _) => none
  | (_ :: _, rest) => some ((), rest)

/-- Pass over the digits of an exponent and their sign, if they have one. -/
def passSigned? : Reader Unit
  | '+' :: cs => passDigits? cs
  | '-' :: cs => passDigits? cs
  | cs => passDigits? cs

/-- Pass over an exponent part, if there is one. -/
def passExponent? : Reader Unit
  | 'e' :: cs => passSigned? cs
  | 'E' :: cs => passSigned? cs
  | cs => some ((), cs)

/-- Pass over a number, behind its sign. -/
def passNumber? (cs : List Char) : Option (Unit × List Char) :=
  match digitRun cs with
  | ([], _) => none
  | (d :: ds, rest) =>
    if d = '0' ∧ ds ≠ [] then none
    else
      match rest with
      | '.' :: cs => (passDigits? cs).bind fun r => passExponent? r.2
      | rest => passExponent? rest

/-- Pass over a value that does not start with a bracket or a brace. -/
def passScalar? : Reader Unit
  | 'n' :: cs => (word? ['u', 'l', 'l'] cs).map ((), ·)
  | 't' :: cs => (word? ['r', 'u', 'e'] cs).map ((), ·)
  | 'f' :: cs => (word? ['a', 'l', 's', 'e'] cs).map ((), ·)
  | '"' :: cs => passBody? cs
  | '-' :: cs => passNumber? cs
  | cs => passNumber? cs

/-- Reading that keeps nothing. -/
def inPassing : Reading Unit Unit :=
  ⟨passScalar?, passBody?, fun _ => (), fun _ => ()⟩

/-- Pass over a value that is part of a text of `size` characters, which bounds its levels too. -/
def pass? (size : Nat) : Reader Unit :=
  value? inPassing size size

/-! ### Members by name -/

/-- The value of a member inside an object, null if its name is not one of `names`. -/
def skimMember? (names : List String) (size : Nat) (k : String) : Reader Json := fun cs =>
  if k ∈ names then value? inFull size (maxLevels - 1) cs
  else (pass? size cs).map fun r => (.null, r.2)

/-- A value. If it is an object, the members with other names than `names` are null. -/
def skimValue? (names : List String) (size : Nat) : Reader Json
  | '\x7b' :: cs =>
    (object? text? (skimMember? names size) size cs).map fun r => (.obj r.1, r.2)
  | cs => value? inFull size maxLevels cs

/-- The value of a text, objects with every member of the text. If it is an object, the members with
other names than `names` are null. -/
def skim? (names : List String) (s : String) : Option Json :=
  whole? (skimValue? names) s.toList

end AccessPolicy.Json
