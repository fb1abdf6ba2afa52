import Mathlib.Data.List.TakeWhile

/-!
# Lines of a text

* `Text.lines cs` — what stands between the newlines of a text; `Text.lastLine cs` — what stands
  behind the last of them.
* **Writing on** (`Text.getElem?_lines_append`): what is written behind a text continues its last
  line, up to the first newline. Lines before the last one are complete
  (`Text.getElem?_lines_append_of_lt`).
-/

namespace AccessPolicy.Text

/-- What stands between the newlines. -/
def lines (cs : List Char) : List (List Char) :=
  cs.splitOn '\n'

/-- What stands behind the last newline. -/
def lastLine (cs : List Char) : List Char :=
  (cs.reverse.takeWhile (· ≠ '\n')).reverse

variable {a b cs : List Char} {k : Nat}

/-- A newline ends a line and begins another one. -/
theorem lines_append_newline (a b : List Char) : lines (a ++ '\n' :: b) = lines a ++ lines b :=
  List.splitOnP_append_cons a b rfl

/-- Without a newline there is one line. -/
theorem lines_of_not_mem (h : '\n' ∉ cs) : lines cs = [cs] :=
  List.splitOn_eq_singleton h

/-! ### The last line -/

/-- Without a newline the whole text is the last line. -/
theorem lastLine_of_not_mem (h : '\n' ∉ cs) : lastLine cs = cs := by
  have hall : ∀ c ∈ cs.reverse, decide (c ≠ '\n') = true := by
    intro c hc
    refine decide_eq_true fun heq => h ?_
    exact heq ▸ List.mem_reverse.mp hc
  rw [lastLine, List.takeWhile_eq_self_iff.mpr hall, List.reverse_reverse]

/-- The last line is looked for behind the last newline. -/
theorem lastLine_append_newline (a b : List Char) : lastLine (a ++ '\n' :: b) = lastLine b := by
  unfold lastLine
  rw [List.reverse_append, List.reverse_cons, List.append_assoc, List.singleton_append,
    List.takeWhile_append]
  split
  · rw [List.takeWhile_cons_of_neg (by simp), List.append_nil]
    rename_i hlength
    exact congrArg _ (List.takeWhile_prefix _ |>.eq_of_length hlength).symm
  · rfl

/-- There is no newline in a line. -/
theorem not_mem_lastLine (cs : List Char) : '\n' ∉ lastLine cs := by
  intro h
  have := List.mem_takeWhile_imp (List.mem_reverse.mp h)
  simp at this

/-- A text is on one line, or it has a last newline. -/
theorem eq_lastLine_or (cs : List Char) :
    '\n' ∉ cs ∨ ∃ front, cs = front ++ '\n' :: lastLine cs := by
  by_cases h : '\n' ∈ cs
  · obtain ⟨back, front, hsplit, hnew⟩ := List.eq_append_cons_of_mem (List.mem_reverse.mpr h)
    have hcs : cs = front.reverse ++ '\n' :: back.reverse := by
      rw [← List.reverse_reverse cs, hsplit]
      simp
    have hback : lastLine cs = back.reverse := by
      rw [hcs, lastLine_append_newline]
      exact lastLine_of_not_mem fun hmem => hnew (List.mem_reverse.mp hmem)
    exact .inr ⟨front.reverse, hback ▸ hcs⟩
  · exact .inl h

/-- What is written without a newline continues the last line. -/
theorem lastLine_append_of_not_mem (h : '\n' ∉ b) : lastLine (a ++ b) = lastLine a ++ b := by
  rcases eq_lastLine_or a with ha | ⟨front, ha⟩
  · rw [lastLine_of_not_mem ha]
    exact lastLine_of_not_mem fun hmem => (List.mem_append.mp hmem).elim ha h
  · have hlast : '\n' ∉ lastLine a ++ b := fun hmem =>
      (List.mem_append.mp hmem).elim (not_mem_lastLine a) h
    rw [ha, List.append_assoc, List.cons_append, lastLine_append_newline, lastLine_append_newline,
      lastLine_of_not_mem hlast, lastLine_of_not_mem (not_mem_lastLine a)]

/-- Writing on makes the last line longer by what is written at most. -/
theorem length_lastLine_append_le (a b : List Char) :
    (lastLine (a ++ b)).length ≤ (lastLine a).length + b.length := by
  rcases eq_lastLine_or b with hb | ⟨front, hb⟩
  · rw [lastLine_append_of_not_mem hb]
    exact List.length_append.le
  · have hlast : lastLine (a ++ b) = lastLine b := by
      rw [hb, ← List.append_assoc, lastLine_append_newline, lastLine_append_newline]
    have hlength := congrArg List.length hb
    rw [List.length_append, List.length_cons] at hlength
    rw [hlast]
    omega

/-! ### Lines by number -/

/-- There is one line more than there are newlines. -/
theorem length_lines (cs : List Char) : (lines cs).length = cs.count '\n' + 1 := by
  generalize hn : cs.count '\n' = n
  induction n generalizing cs with
  | zero =>
      rw [lines_of_not_mem (List.count_eq_zero.mp hn)]
      rfl
  | succ n ih =>
      have hmem : '\n' ∈ cs := List.count_pos_iff.mp (by omega)
      obtain ⟨front, back, rfl, hnew⟩ := List.eq_append_cons_of_mem hmem
      have hback : back.count '\n' = n := by
        rw [List.count_append, List.count_cons_self, List.count_eq_zero.mpr hnew] at hn
        omega
      rw [lines_append_newline, List.length_append, lines_of_not_mem hnew, ih back hback,
        List.length_singleton]
      omega

/-- The first line of a text that begins with a piece of a line. -/
theorem getElem?_zero_lines_append {a : List Char} (h : '\n' ∉ a) (b : List Char) :
    (lines (a ++ b))[0]? = some (a ++ b.takeWhile (· ≠ '\n')) := by
  by_cases hb : '\n' ∈ b
  · obtain ⟨front, back, rfl, hnew⟩ := List.eq_append_cons_of_mem hb
    have hfront : ∀ c ∈ front, decide (c ≠ '\n') = true := fun c hc =>
      decide_eq_true fun heq => hnew (heq ▸ hc)
    have hline : '\n' ∉ a ++ front := fun hmem => (List.mem_append.mp hmem).elim h hnew
    rw [← List.append_assoc, lines_append_newline, lines_of_not_mem hline,
      List.takeWhile_append_of_pos hfront, List.takeWhile_cons_of_neg (by simp), List.append_nil]
    rfl
  · have hall : ∀ c ∈ b, decide (c ≠ '\n') = true := fun c hc =>
      decide_eq_true fun heq => hb (heq ▸ hc)
    rw [List.takeWhile_eq_self_iff.mpr hall,
      lines_of_not_mem fun hmem => (List.mem_append.mp hmem).elim h hb]
    rfl

/-- **Writing on** continues the last line. -/
theorem getElem?_lines_append (a b : List Char) :
    (lines (a ++ b))[a.count '\n']? = some (lastLine a ++ b.takeWhile (· ≠ '\n')) := by
  rcases eq_lastLine_or a with ha | ⟨front, ha⟩
  · rw [lastLine_of_not_mem ha, List.count_eq_zero.mpr ha]
    exact getElem?_zero_lines_append ha b
  · have hcount : a.count '\n' = (lines front).length := by
      rw [length_lines, ha, List.count_append, List.count_cons_self,
        List.count_eq_zero.mpr (not_mem_lastLine a)]
    have happend : a ++ b = front ++ '\n' :: (lastLine a ++ b) :=
      (congrArg (· ++ b) ha).trans (List.append_assoc front ('\n' :: lastLine a) b)
    rw [happend, lines_append_newline, hcount, List.getElem?_append_right (Nat.le_refl _),
      Nat.sub_self]
    exact getElem?_zero_lines_append (not_mem_lastLine a) b

/-- So the last line is the one whose number is that of the newlines. -/
theorem getElem?_lines_count (cs : List Char) :
    (lines cs)[cs.count '\n']? = some (lastLine cs) := by
  have h := getElem?_lines_append cs []
  rwa [List.append_nil, List.takeWhile_nil, List.append_nil] at h

/-- Lines before the last one are complete. -/
theorem getElem?_lines_append_of_lt (h : k < a.count '\n') (b : List Char) :
    (lines (a ++ b))[k]? = (lines a)[k]? := by
  rcases eq_lastLine_or a with ha | ⟨front, ha⟩
  · rw [List.count_eq_zero.mpr ha] at h
    exact absurd h (Nat.not_lt_zero k)
  · have hk : k < (lines front).length := by
      rw [ha, List.count_append, List.count_cons_self,
        List.count_eq_zero.mpr (not_mem_lastLine a)] at h
      rw [length_lines]
      omega
    have happend : a ++ b = front ++ '\n' :: (lastLine a ++ b) :=
      (congrArg (· ++ b) ha).trans (List.append_assoc front ('\n' :: lastLine a) b)
    have hfront : lines a = lines front ++ lines (lastLine a) :=
      (congrArg lines ha).trans (lines_append_newline front (lastLine a))
    rw [happend, lines_append_newline, hfront, List.getElem?_append_left hk,
      List.getElem?_append_left hk]

end AccessPolicy.Text
