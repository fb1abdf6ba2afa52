import AccessPolicy.Error
import AccessPolicy.Proofs.Text.Lines
import AccessPolicy.Proofs.Text.Slice

/-!
# Positions are exact

* `Position.At text pos` — a position is that of a character boundary: its line is one more than the
  newlines before the boundary, and its column one more than the characters behind the last of them.
* **The position of a boundary is exact** (`Position.at_ofOffset`).
-/

namespace AccessPolicy.Position

open Grammar (byteCount)
open Text (lastLine byteCount_cons)

/-- The position of the boundary behind the characters `pre`. -/
structure Behind (pre : List Char) (pos : Position) : Prop where
  offset : pos.offset = byteCount pre
  line : pos.line = 1 + pre.count '\n'
  column : pos.column = 1 + (lastLine pre).length

/-- The position of a character boundary of a text. -/
def At (text : String) (pos : Position) : Prop :=
  ∃ pre post, text.toList = pre ++ post ∧ Behind pre pos

variable {text : String} {pre post : List Char}

/-- Counting on from behind `done` counts the characters that start within the bytes given. -/
theorem advance_eq (pre post : List Char) : ∀ done : List Char,
    advance (pre ++ post) (byteCount pre) (1 + done.count '\n') (1 + (lastLine done).length) =
      (1 + (done ++ pre).count '\n', 1 + (lastLine (done ++ pre)).length) := by
  induction pre with
  | nil =>
      intro done
      rw [List.append_nil]
      cases post <;> rfl
  | cons c pre ih =>
      intro done
      have hbytes : byteCount (c :: pre) = (c.utf8Size - 1 + byteCount pre) + 1 := by
        have := c.utf8Size_pos
        rw [byteCount_cons]
        omega
      have hleft : c.utf8Size - 1 + byteCount pre + 1 - c.utf8Size = byteCount pre := by
        have := c.utf8Size_pos
        omega
      have happend : done ++ c :: pre = (done ++ [c]) ++ pre := by
        rw [List.append_assoc, List.singleton_append]
      rw [List.cons_append, hbytes, advance, hleft, happend, ← ih]
      -- A newline begins a line, and anything else lengthens the last one.
      split
      · rename_i hnewline
        rw [hnewline, Text.lastLine_append_newline, List.count_append, List.count_singleton_self]
        rfl
      · rename_i hother
        have hnot : '\n' ∉ [c] := fun hmem => hother (List.mem_singleton.mp hmem).symm
        rw [Text.lastLine_append_of_not_mem hnot, List.count_append, List.count_eq_zero_of_not_mem hnot,
          List.length_append]
        rfl

/-- **The position of a boundary is exact.** -/
theorem behind_ofOffset (htext : text.toList = pre ++ post) :
    Behind pre (ofOffset text (byteCount pre)) := by
  have hadvance : advance text.toList (byteCount pre) 1 1 =
      (1 + pre.count '\n', 1 + (lastLine pre).length) := by
    rw [htext]
    exact advance_eq pre post []
  have hle : byteCount pre ≤ text.utf8ByteSize := by
    rw [← Text.byteCount_toList, htext, Text.byteCount_append]
    exact Nat.le_add_right _ _
  unfold ofOffset
  rw [hadvance]
  exact ⟨Nat.min_eq_left hle, rfl, rfl⟩

/-- At a boundary, the offset of a position is kept and the position is exact. -/
theorem at_ofOffset {n : Nat} (h : String.Pos.Raw.IsValid text ⟨n⟩) :
    (ofOffset text n).offset = n ∧ At text (ofOffset text n) := by
  obtain ⟨pre, post, htext, rfl⟩ := Text.isValid_iff.mp h
  have hbehind := behind_ofOffset htext
  exact ⟨hbehind.offset, pre, post, htext, hbehind⟩

end AccessPolicy.Position
