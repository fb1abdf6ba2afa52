import AccessPolicy.Layout.Doc

/-!
# What a measurement says

* **More room** (`Doc.measureAll_narrower`): with more columns a measurement goes the same way,
  unless it ran out of them.
* `Doc.fits_iff` — a document fits if there is room and the measurement of all that is to come does
  not run out of it.
-/

namespace AccessPolicy.Doc

variable {mode : Mode} {d : Doc} {r r' : Room} {tasks : List (Mode × Doc)} {m n : Int}

/-- Once the columns have run out they stay so. -/
@[simp] theorem measure_exceeded : measure mode d .exceeded = .exceeded := by
  cases d <;> rfl

/-- Behind a line that is broken nothing is measured. -/
@[simp] theorem measure_ended : measure mode d .ended = .ended := by
  cases d <;> rfl

/-- The empty document takes no columns. -/
@[simp] theorem measure_empty : measure mode empty r = r := by
  cases r <;> rfl

/-- Documents one after the other take columns one after the other. -/
@[simp] theorem measure_append (a b : Doc) :
    measure mode (append a b) r = measure mode b (measure mode a r) := by
  cases r with
  | left n => rfl
  | exceeded => simp
  | ended => simp

/-- Indentation does not count before the line that it is for. -/
@[simp] theorem measure_nest (k : Nat) : measure mode (nest k d) r = measure mode d r := by
  cases r <;> simp [measure]

/-- A group inside of what is measured is measured in the mode around it. -/
@[simp] theorem measure_group : measure mode (group d) r = measure mode d r := by
  cases r <;> simp [measure]

/-- Nothing behind it brings columns back. -/
@[simp] theorem measureAll_exceeded : measureAll tasks .exceeded = .exceeded := by
  induction tasks with
  | nil => rfl
  | cons task tasks ih => simpa [measureAll] using ih

/-- What comes behind a broken line is on another line. -/
@[simp] theorem measureAll_ended : measureAll tasks .ended = .ended := by
  induction tasks with
  | nil => rfl
  | cons task tasks ih => simpa [measureAll] using ih

/-- **A document fits** if its columns and those of what follows it, up to the next broken line, do
not run out. -/
theorem fits_iff : fits n d tasks ↔
    0 ≤ n ∧ measureAll ((.flat, d) :: tasks) (.left n) ≠ .exceeded := by
  unfold fits
  by_cases h : n < 0
  · simp only [h, if_true, Bool.false_eq_true, false_iff, not_and]
    omega
  · rw [if_neg h]
    have h0 : 0 ≤ n := by omega
    generalize measureAll ((.flat, d) :: tasks) (.left n) = r
    cases r <;> simp [h0]

/-! ### More room -/

/-- The same way of a measurement, with more columns in the second. -/
inductive Room.Narrower : Room → Room → Prop
  | exceeded (r : Room) : Room.Narrower .exceeded r
  | ended : Room.Narrower .ended .ended
  | left {m n : Int} (h : m ≤ n) : Room.Narrower (.left m) (.left n)

/-- Every room is as narrow as itself. -/
theorem Room.Narrower.refl (r : Room) : Room.Narrower r r := by
  cases r with
  | left n => exact .left (Int.le_refl n)
  | exceeded => exact .exceeded _
  | ended => exact .ended

/-- To take the same columns from both keeps the order. -/
theorem Room.Narrower.take (h : m ≤ n) (k : Int) :
    Room.Narrower (Room.take m k) (Room.take n k) := by
  unfold Room.take
  by_cases hm : m - k < 0
  · rw [if_pos hm]
    exact .exceeded _
  · have hn : ¬ n - k < 0 := by omega
    rw [if_neg hm, if_neg hn]
    exact .left (Int.sub_le_sub_right h k)

/-- Where the columns last in the narrower room, they last in the wider one. -/
theorem Room.Narrower.ne_exceeded (h : Room.Narrower r r') (hr : r ≠ .exceeded) :
    r' ≠ .exceeded := by
  cases h with
  | exceeded => exact absurd rfl hr
  | ended => exact hr
  | left h => exact nofun

/-- Only from columns there is something to show. -/
theorem Room.Narrower.measure (h : Room.Narrower r r')
    (hleft : ∀ {m n : Int}, m ≤ n →
      Room.Narrower (measure mode d (.left m)) (measure mode d (.left n))) :
    Room.Narrower (measure mode d r) (measure mode d r') := by
  cases h with
  | exceeded r =>
      rw [measure_exceeded]
      exact .exceeded _
  | ended => exact .refl _
  | left h => exact hleft h

/-- To measure the same document in both keeps the order, by induction on the document. -/
theorem measure_narrower (d : Doc) (h : Room.Narrower r r') :
    Room.Narrower (measure mode d r) (measure mode d r') := by
  induction d generalizing r r' mode with
  | empty => simpa using h
  | text s => exact h.measure fun hmn => .take hmn s.length
  | line =>
      cases mode with
      | flat => exact h.measure fun hmn => .take hmn 1
      | broken => exact h.measure fun _ => .ended
  | softLine =>
      cases mode with
      | flat => exact h.measure fun hmn => .left hmn
      | broken => exact h.measure fun _ => .ended
  | hardLine =>
      cases mode with
      | flat => exact h.measure fun _ => .exceeded _
      | broken => exact h.measure fun _ => .ended
  | append a b iha ihb =>
      rw [measure_append, measure_append]
      exact ihb (iha h)
  | nest k d ih =>
      rw [measure_nest, measure_nest]
      exact ih h
  | group d ih =>
      rw [measure_group, measure_group]
      exact ih h

/-- **More room**. -/
theorem measureAll_narrower (tasks : List (Mode × Doc)) (h : Room.Narrower r r') :
    Room.Narrower (measureAll tasks r) (measureAll tasks r') := by
  induction tasks generalizing r r' with
  | nil => exact h
  | cons task tasks ih => exact ih (measure_narrower task.2 h)

end AccessPolicy.Doc
