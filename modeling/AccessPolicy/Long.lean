/-!
# Signed 64-bit integers

`Long` is the integer type of policies and entity data. Arithmetic on it is exact: a result outside
the range is no `Long`, so each operation goes through the integers and `Long.ofInt?`.
-/

namespace AccessPolicy

/-- An integer of 64 bits, sign included. -/
structure Long where
  /-- The integer. -/
  toInt : Int
  /-- It is not below the least one. -/
  le_toInt : -9223372036854775808 ≤ toInt
  /-- It is below the greatest one. -/
  toInt_lt : toInt < 9223372036854775808
deriving DecidableEq

namespace Long

/-- Two 64-bit integers are equal when they are the same integer; the proof that one fits plays no
part. -/
@[ext] theorem ext {a b : Long} (h : a.toInt = b.toInt) : a = b := by
  cases a; cases b; cases h; rfl

/-- The integer as a `Long`, if it is in range. -/
def ofInt? (n : Int) : Option Long :=
  if h : -9223372036854775808 ≤ n ∧ n < 9223372036854775808 then some ⟨n, h.1, h.2⟩ else none

/-- An integer is taken as it is, or not at all: nothing is cut off to make it fit. -/
theorem ofInt?_eq_some_iff {n : Int} {a : Long} : ofInt? n = some a ↔ a.toInt = n := by
  unfold ofInt?
  constructor
  · intro h
    split at h
    · cases h; rfl
    · cases h
  · rintro rfl
    rw [dif_pos ⟨a.le_toInt, a.toInt_lt⟩]

/-- What came from a 64-bit integer fits. -/
@[simp] theorem ofInt?_toInt (a : Long) : ofInt? a.toInt = some a :=
  ofInt?_eq_some_iff.2 rfl

instance : Ord Long := ⟨fun a b => compare a.toInt b.toInt⟩

/-- The sum, if it is in range. -/
def add? (a b : Long) : Option Long := ofInt? (a.toInt + b.toInt)

/-- The difference, if it is in range. -/
def sub? (a b : Long) : Option Long := ofInt? (a.toInt - b.toInt)

/-- The product, if it is in range. -/
def mul? (a b : Long) : Option Long := ofInt? (a.toInt * b.toInt)

/-- The opposite, if it is in range. -/
def neg? (a : Long) : Option Long := ofInt? (-a.toInt)

/-- The decimal digits behind a minus sign where there is one. -/
def text (a : Long) : String := toString a.toInt

end Long

end AccessPolicy
