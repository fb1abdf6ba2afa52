/-!
# The shortest decimal of a binary64 number

A positive number `m * 2 ^ q` stands for every real that rounds to it. `Shortest.digits` finds the
least count of decimal digits with which some decimal lies in that interval, and of the decimals
with that many digits the one nearest to the number. All arithmetic is exact, on natural numbers.
-/

namespace AccessPolicy.Decimal

/-- The magnitude of a finite binary64 number: `mantissa * 2 ^ (exponent - 1074)`. -/
structure Binary where
  /-- The significand, below `2 ^ 53`. -/
  mantissa : Nat
  /-- The exponent above the least one. -/
  exponent : Nat
deriving DecidableEq

/-- The magnitude that the bits of a finite number give. -/
def Binary.ofBits (bits : UInt64) : Binary :=
  let fraction := bits.toNat % Nat.pow 2 52
  let biased := bits.toNat / Nat.pow 2 52 % Nat.pow 2 11
  if biased = 0 then ⟨fraction, 0⟩ else ⟨Nat.pow 2 52 + fraction, biased - 1⟩

/-- Whether the sign bit is set. -/
def isNegative (bits : UInt64) : Bool :=
  Nat.pow 2 63 ≤ bits.toNat

/-- A magnitude and the reals that round to it, over one denominator. -/
structure Interval where
  /-- The least numerator. -/
  low : Nat
  /-- The numerator of the number itself. -/
  middle : Nat
  /-- The greatest numerator. -/
  high : Nat
  /-- The common denominator. -/
  denominator : Nat
  /-- Whether the ends belong to the interval. -/
  closed : Bool

/-- The reals that round to a magnitude. Below a power of two the neighbour is half as far. -/
def Binary.interval (b : Binary) : Interval :=
  let scale := Nat.pow 2 b.exponent
  let below := if b.mantissa = Nat.pow 2 52 ∧ 0 < b.exponent then 1 else 2
  ⟨(4 * b.mantissa - below) * scale, 4 * b.mantissa * scale, (4 * b.mantissa + 2) * scale,
    Nat.pow 2 1076, b.mantissa % 2 == 0⟩

/-- Whether `n / d` lies in the interval. -/
def Interval.contains (i : Interval) (n d : Nat) : Bool :=
  let x := n * i.denominator
  let low := i.low * d
  let high := i.high * d
  if i.closed then low ≤ x && x ≤ high else low < x && x < high

/-- A decimal: the number `digits * 10 ^ exponent`. -/
structure Scaled where
  /-- The digits, as a number. -/
  digits : Nat
  /-- The power of ten. -/
  exponent : Int
deriving DecidableEq

/-- A decimal as numerator and denominator. -/
def Scaled.ratio (d : Scaled) : Nat × Nat :=
  match d.exponent with
  | .ofNat e => (d.digits * Nat.pow 10 e, 1)
  | .negSucc e => (d.digits, Nat.pow 10 (e + 1))

/-- The exponent of the leading decimal digit of `n / d`, searched downwards from `start`. -/
def leading (n d : Nat) : (steps : Nat) → (start : Int) → Int
  | 0, e => e
  | steps + 1, e =>
    let reached : Bool := match e with
      | .ofNat e => d * Nat.pow 10 e ≤ n
      | .negSucc e => d ≤ n * Nat.pow 10 (e + 1)
    if reached then e else leading n d steps (e - 1)

/-- The neighbours of the middle of an interval among the multiples of `10 ^ unit`. -/
def Interval.neighbours (i : Interval) (unit : Int) : Scaled × Scaled :=
  let below := match unit with
    | .ofNat e => i.middle / (i.denominator * Nat.pow 10 e)
    | .negSucc e => i.middle * Nat.pow 10 (e + 1) / i.denominator
  (⟨below, unit⟩, ⟨below + 1, unit⟩)

/-- The distance between a decimal and the middle of an interval, over the product of the two
denominators. -/
def Interval.distance (i : Interval) (d : Scaled) : Nat :=
  let (n, m) := d.ratio
  let x := n * i.denominator
  let y := i.middle * m
  max x y - min x y

/-- The decimal of the interval that lies nearest to its middle among the multiples of `10 ^ unit`;
of two equally near ones the even one. -/
def Interval.nearest? (i : Interval) (unit : Int) : Option Scaled :=
  let (a, b) := i.neighbours unit
  let inside := fun (d : Scaled) => let (n, m) := d.ratio; i.contains n m
  if inside a then
    if inside b then
      if i.distance a < i.distance b ∨ (i.distance a = i.distance b ∧ a.digits % 2 = 0) then some a
      else some b
    else some a
  else if inside b then some b
  else none

/-- The first hit on the grids with `unit`, `unit - 1`, … . -/
def Interval.search (i : Interval) : (steps : Nat) → (unit : Int) → Scaled
  | 0, unit => (i.neighbours unit).1
  | steps + 1, unit =>
    match i.nearest? unit with
    | some d => d
    | none => i.search steps (unit - 1)

/-- A decimal without trailing zeros. -/
def Scaled.trim : (steps : Nat) → Scaled → Scaled
  | 0, d => d
  | steps + 1, d =>
    if d.digits % 10 = 0 then Scaled.trim steps ⟨d.digits / 10, d.exponent + 1⟩ else d

/-- The decimal with the fewest digits that reads back as the magnitude. -/
def Binary.shortest (b : Binary) : Scaled :=
  if b.mantissa = 0 then ⟨0, 0⟩
  else
    let i := b.interval
    let top := leading i.middle i.denominator 700 309
    (i.search 17 top).trim 20

/-- The text of a decimal. The number is written positionally while its leading digit stands for
`10 ^ -5` to `10 ^ 15`, with at least one digit on either side of the point; else one digit stands
before the point, and the exponent follows `e` and its sign. -/
def Scaled.text (d : Scaled) : String :=
  let digits := (toString d.digits).toList
  let count := digits.length
  let point : Int := count + d.exponent
  let zeros := fun n => List.replicate n '0'
  String.ofList <|
    if d.digits = 0 then ['0', '.', '0']
    else if 0 < point ∧ point ≤ 16 then
      if count ≤ point.toNat then digits ++ zeros (point.toNat - count) ++ ['.', '0']
      else digits.take point.toNat ++ '.' :: digits.drop point.toNat
    else if -5 < point ∧ point ≤ 0 then '0' :: '.' :: zeros (-point).toNat ++ digits
    else
      let head := digits.take 1
      let tail := digits.drop 1
      let mantissa := if tail.isEmpty then head else head ++ '.' :: tail
      let sign := if 0 < point then '+' else '-'
      mantissa ++ 'e' :: sign :: (toString (point - 1).natAbs).toList

/-- The text of the finite number with the given bits. -/
def floatText (bits : UInt64) : String :=
  (if isNegative bits then "-" else "") ++ (Binary.ofBits bits).shortest.text

end AccessPolicy.Decimal
