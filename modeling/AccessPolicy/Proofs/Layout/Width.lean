import AccessPolicy.Proofs.Layout.Measure
import AccessPolicy.Proofs.Layout.Turns
import AccessPolicy.Proofs.Text.Lines

/-!
# Flat groups and the width of their lines

The look-ahead of a group goes to the next line that is broken, or that may be: a line in a later
group is taken for a break although that group may be laid out flat.

* **Step** (`Doc.Keeps.turn`): what a flat decision promises about its line — what is measured ahead
  of the page fits up to a bound — survives every turn. A later group on the same line that is laid
  out flat has been measured by itself, and renews the promise.
* **Run** (`Doc.Turns.keeps`), and from it `Doc.flatGroup_withinWidth`: the line on which a flat
  group starts is not longer than the width, or than it was already.
-/

namespace AccessPolicy.Doc

open Text

/-! ### Newlines on a page -/

/-- The page without the blanks at its end. -/
def Page.trimmed (p : Page) : List Char :=
  (p.written.dropWhile (· == ' ')).reverse

/-- A newline drops the blanks at the end of its line. -/
theorem Page.text_newline (p : Page) (indent : Nat) :
    (p.newline indent).text = p.trimmed ++ '\n' :: List.replicate indent ' ' := by
  simp [Page.text, Page.newline, Page.trimmed]

/-- The text of a page is its trimmed text with blanks, none of which is a newline. -/
theorem Page.text_eq_trimmed (p : Page) :
    ∃ blanks, '\n' ∉ blanks ∧ p.text = p.trimmed ++ blanks := by
  refine ⟨(p.written.takeWhile (· == ' ')).reverse, ?_, ?_⟩
  · intro h
    have := List.mem_takeWhile_imp (List.mem_reverse.mp h)
    simp at this
  · rw [Page.trimmed, ← List.reverse_append, List.takeWhile_append_dropWhile, Page.text]

/-- A newline ends the last line and leaves the lines before it alone. -/
theorem Page.lines_newline (p : Page) (indent : Nat) :
    (p.newline indent).text.count '\n' = p.text.count '\n' + 1 ∧
      (∀ k < p.text.count '\n', (lines (p.newline indent).text)[k]? = (lines p.text)[k]?) ∧
      ∃ line, (lines (p.newline indent).text)[p.text.count '\n']? = some line ∧
        line.length ≤ (lastLine p.text).length := by
  obtain ⟨blanks, hblanks, htext⟩ := p.text_eq_trimmed
  have hindent : '\n' ∉ List.replicate indent ' ' := fun h =>
    absurd (List.eq_of_mem_replicate h) (by decide)
  have hcount : p.text.count '\n' = p.trimmed.count '\n' := by
    rw [htext, List.count_append, List.count_eq_zero.mpr hblanks, Nat.add_zero]
  rw [text_newline, hcount]
  refine ⟨?_, fun k hk => ?_, lastLine p.trimmed, ?_, ?_⟩
  · rw [List.count_append, List.count_cons_self, List.count_eq_zero.mpr hindent]
  · rw [getElem?_lines_append_of_lt hk, htext, getElem?_lines_append_of_lt hk]
  · rw [getElem?_lines_append, List.takeWhile_cons_of_neg (by simp), List.append_nil]
  · rw [htext, lastLine_append_of_not_mem hblanks, List.length_append]
    exact Nat.le_add_right _ _

/-- The columns that are counted are enough for the last line. -/
def Page.Counted (p : Page) : Prop :=
  (lastLine p.text).length ≤ p.column

variable {k bound width indent : Nat} {stack rest : List Task} {p : Page} {d g : Doc} {s t : State}

/-- Writing a word keeps the column in step with the text. -/
theorem Page.Counted.write (h : p.Counted) (w : String) : (p.write w).Counted := by
  have hlast := length_lastLine_append_le p.text w.toList
  unfold Page.Counted
  rw [Page.text_write]
  exact hlast.trans (Nat.add_le_add h (Nat.le_of_eq String.length_toList))

/-- Behind a newline the column is the indentation. -/
theorem Page.counted_newline (p : Page) (indent : Nat) : (p.newline indent).Counted := by
  have hindent : '\n' ∉ List.replicate indent ' ' := fun h =>
    absurd (List.eq_of_mem_replicate h) (by decide)
  unfold Page.Counted
  rw [text_newline, lastLine_append_newline, lastLine_of_not_mem hindent, List.length_replicate]
  exact Nat.le_refl indent

/-! ### What a turn does -/

/-- What is measured ahead of the page. -/
def State.ahead (s : State) (r : Room) : Room :=
  measureAll (s.stack.map Task.ahead) r

/-- A turn writes a text for which the measurement takes the columns, or a newline, or nothing; then
the measurement stays the same, or the group that is decided on fits. -/
theorem turn_cases (ht : turn? width s = some t) :
    (∃ w, t.page = s.page.write w ∧ ∀ n, s.ahead (.left n) = t.ahead (Room.take n w.length)) ∨
    (∃ indent, t.page = s.page.newline indent) ∨
    (t.page = s.page ∧ ∀ r, s.ahead r = t.ahead r) ∨
    (t.page = s.page ∧ ∃ indent g rest, t.stack = ⟨indent, .flat, g⟩ :: rest ∧
      fits (columnsLeft width s.page.column) g (rest.map Task.ahead)) := by
  obtain ⟨_ | ⟨⟨indent, mode, d⟩, rest⟩, p⟩ := s
  · exact nomatch ht
  · cases d with
    | empty =>
        cases ht
        exact .inr (.inr (.inl ⟨rfl, fun r => by simp [State.ahead, measureAll, Task.ahead]⟩))
    | text w =>
        cases ht
        exact .inl ⟨w, rfl, fun n => rfl⟩
    | line =>
        cases mode with
        | flat =>
            cases ht
            exact .inl ⟨" ", rfl, fun n => rfl⟩
        | broken =>
            cases ht
            exact .inr (.inl ⟨indent, rfl⟩)
    | softLine =>
        cases mode with
        | flat =>
            cases ht
            refine .inr (.inr (.inl ⟨rfl, fun r => ?_⟩))
            cases r <;> simp [State.ahead, measureAll, Task.ahead, measure]
        | broken =>
            cases ht
            exact .inr (.inl ⟨indent, rfl⟩)
    | hardLine =>
        cases ht
        exact .inr (.inl ⟨indent, rfl⟩)
    | append a b =>
        cases ht
        exact .inr (.inr (.inl ⟨rfl, fun r => by simp [State.ahead, measureAll, Task.ahead]⟩))
    | nest n d =>
        cases ht
        exact .inr (.inr (.inl ⟨rfl, fun r => by simp [State.ahead, measureAll, Task.ahead]⟩))
    | group g =>
        cases ht
        -- Inside of what is flat a group is flat without being measured.
        unfold groupMode
        split
        · rename_i hflat
          rcases hflat with rfl | hfits
          · exact .inr (.inr (.inl ⟨rfl, fun r => by simp [State.ahead, measureAll, Task.ahead]⟩))
          · exact .inr (.inr (.inr ⟨rfl, indent, g, rest, rfl, hfits⟩))
        · rename_i hbroken
          cases mode with
          | flat => exact absurd (.inl rfl) hbroken
          | broken =>
              exact .inr (.inr (.inl ⟨rfl, fun r => by simp [State.ahead, measureAll, Task.ahead]⟩))

/-- The column of a page stays in step with the text through all turns. -/
theorem Turns.counted (h : Turns width (.start d) s) : s.page.Counted := by
  induction h with
  | refl => exact Nat.le_refl 0
  | tail _ ht ih =>
      rcases turn_cases ht with ⟨w, heq, -⟩ | ⟨indent, heq⟩ | ⟨heq, -⟩ | ⟨heq, -⟩
      · exact heq ▸ ih.write w
      · exact heq ▸ Page.counted_newline _ indent
      · exact heq ▸ ih
      · exact heq ▸ ih

/-! ### What a flat decision promises

When a group is laid out flat, it was measured with what comes behind it on its line. That
measurement is the promise, and a turn uses up what the turn before has left of it. -/

/-- Line `k` keeps to `bound`: once it is complete it is short enough, and as long as it is written
the measurement of what is to come does not run out of the columns up to `bound`. -/
structure Keeps (k bound : Nat) (s : State) : Prop where
  counted : s.page.Counted
  begun : k ≤ s.page.text.count '\n'
  complete : k < s.page.text.count '\n' →
    ∃ line, (lines s.page.text)[k]? = some line ∧ line.length ≤ bound
  column : s.page.text.count '\n' = k → s.page.column ≤ bound
  ahead : s.page.text.count '\n' = k → s.ahead (.left (bound - s.page.column)) ≠ .exceeded

/-- A text may be written for which the measurement has taken the columns. -/
theorem Keeps.write {w : String} (h : Keeps k bound s) (hpage : t.page = s.page.write w)
    (hahead : ∀ n, s.ahead (.left n) = t.ahead (Room.take n w.length)) : Keeps k bound t := by
  have hbegun := h.begun
  have htext : t.page.text = s.page.text ++ w.toList := by
    rw [hpage, Page.text_write]
  have hcount : t.page.text.count '\n' = s.page.text.count '\n' + w.toList.count '\n' := by
    rw [htext, List.count_append]
  have hcolumn : t.page.column = s.page.column + w.length := by
    rw [hpage]
    rfl
  -- the columns are there as long as the line is written
  have hroom : s.page.text.count '\n' = k → s.page.column + w.length ≤ bound ∧
      t.ahead (.left (bound - s.page.column - w.length)) ≠ .exceeded := by
    intro hk
    have hbound := h.column hk
    have hmeasure := h.ahead hk
    rw [hahead, Room.take] at hmeasure
    split at hmeasure
    · exact absurd measureAll_exceeded hmeasure
    · exact ⟨by omega, hmeasure⟩
  refine ⟨?_, ?_, ?_, ?_, ?_⟩
  · rw [hpage]
    exact h.counted.write w
  · rw [hcount]
    exact hbegun.trans (Nat.le_add_right _ _)
  · intro _
    rw [htext]
    rcases Nat.lt_or_ge k (s.page.text.count '\n') with hlt | hge
    · rw [getElem?_lines_append_of_lt hlt]
      exact h.complete hlt
    · -- the text has a newline itself, which ends the line
      have heq : s.page.text.count '\n' = k := Nat.le_antisymm hge hbegun
      have hline := (List.takeWhile_prefix (· ≠ '\n') (l := w.toList)).length_le
      refine ⟨_, heq ▸ getElem?_lines_append s.page.text w.toList, ?_⟩
      rw [List.length_append]
      exact (Nat.add_le_add h.counted (hline.trans String.length_toList.le)).trans (hroom heq).1
  · intro hk
    rw [hcolumn]
    exact (hroom (by omega)).1
  · intro hk
    have hsub : (bound : Int) - t.page.column = bound - s.page.column - w.length := by omega
    rw [hsub]
    exact (hroom (by omega)).2

/-- A newline completes the line. -/
theorem Keeps.newline (h : Keeps k bound s) (hpage : t.page = s.page.newline indent) :
    Keeps k bound t := by
  obtain ⟨hcount, hbefore, line, hline, hlength⟩ := s.page.lines_newline indent
  rw [← hpage] at hcount hbefore hline
  have hbegun := h.begun
  refine ⟨?_, ?_, fun _ => ?_, fun hk => ?_, fun hk => ?_⟩
  · rw [hpage]
    exact s.page.counted_newline indent
  · rw [hcount]
    exact hbegun.trans (Nat.le_succ _)
  · rcases Nat.lt_or_ge k (s.page.text.count '\n') with hlt | hge
    · rw [hbefore k hlt]
      exact h.complete hlt
    · have heq : s.page.text.count '\n' = k := Nat.le_antisymm hge hbegun
      exact ⟨line, heq ▸ hline, (hlength.trans h.counted).trans (h.column heq)⟩
  · omega
  · omega

/-- What is to come may change as long as the measurement does not run out. -/
theorem Keeps.of_ahead (h : Keeps k bound s) (hpage : t.page = s.page)
    (hahead : s.page.text.count '\n' = k →
      t.ahead (.left (bound - s.page.column)) ≠ .exceeded) : Keeps k bound t := by
  refine ⟨?_, ?_, ?_, ?_, ?_⟩ <;> rw [hpage]
  · exact h.counted
  · exact h.begun
  · exact h.complete
  · exact h.column
  · exact hahead

/-- The columns left are no more than the width is longer than the line. -/
theorem columnsLeft_le (width column : Nat) :
    columnsLeft width column ≤ (width - column : Nat) := by
  unfold columnsLeft
  dsimp only
  split <;> omega

/-- A group that fits keeps to every bound that is not below the width. -/
theorem measureAll_of_fits (hwidth : width ≤ bound) (hcolumn : p.column ≤ bound)
    (hfits : fits (columnsLeft width p.column) g (rest.map Task.ahead)) :
    measureAll ((.flat, g) :: rest.map Task.ahead) (.left (bound - p.column)) ≠ .exceeded := by
  have hmore : columnsLeft width p.column ≤ bound - p.column := by
    have := columnsLeft_le width p.column
    omega
  exact (measureAll_narrower _ (.left hmore)).ne_exceeded (fits_iff.mp hfits).2

/-- **Step**: a turn keeps every line to its bound, if the bound is not below the width. -/
theorem Keeps.turn (hwidth : width ≤ bound) (h : Keeps k bound s) (ht : turn? width s = some t) :
    Keeps k bound t := by
  rcases turn_cases ht with ⟨w, hpage, hahead⟩ | ⟨indent, hpage⟩ | ⟨hpage, hahead⟩ |
    ⟨hpage, indent, g, rest, hstack, hfits⟩
  · exact h.write hpage hahead
  · exact h.newline hpage
  · exact h.of_ahead hpage fun hk => hahead _ ▸ h.ahead hk
  · -- the group has been measured with all that follows it
    refine h.of_ahead hpage fun hk => ?_
    rw [State.ahead, hstack]
    exact measureAll_of_fits hwidth (h.column hk) hfits

/-- **Run**: any number of turns keeps every line to its bound. -/
theorem Turns.keeps (hwidth : width ≤ bound) (h : Keeps k bound s) (hs : Turns width s t) :
    Keeps k bound t := by
  induction hs with
  | refl => exact h
  | tail _ ht ih => exact ih.turn hwidth ht

/-- A line that keeps to its bound, begun as it is, is short enough. -/
theorem Keeps.line_le (h : Keeps k bound s) :
    ∃ line, (lines s.page.text)[k]? = some line ∧ line.length ≤ bound := by
  rcases Nat.lt_or_ge k (s.page.text.count '\n') with hlt | hge
  · exact h.complete hlt
  · have heq : s.page.text.count '\n' = k := Nat.le_antisymm hge h.begun
    exact ⟨lastLine s.page.text, heq ▸ getElem?_lines_count s.page.text,
      h.counted.trans (h.column heq)⟩

/-- When a group is laid out flat its line begins to keep to the width, or to the column reached. -/
theorem Keeps.of_flat (hcounted : p.Counted)
    (hflat : groupMode width p.column .broken g rest = .flat) :
    Keeps (p.text.count '\n') (max width p.column) ⟨⟨indent, .flat, g⟩ :: rest, p⟩ := by
  refine ⟨hcounted, Nat.le_refl _, fun h => absurd h (Nat.lt_irrefl _), fun _ => ?_, fun _ => ?_⟩
  · exact Nat.le_max_right width p.column
  · unfold groupMode at hflat
    split at hflat
    · rename_i hfits
      exact measureAll_of_fits (Nat.le_max_left _ _) (Nat.le_max_right _ _)
        (hfits.resolve_left nofun)
    · exact nomatch hflat

/-- **Flat groups and the width**: whenever a group is reached in broken mode and is laid out flat,
the line of the text on which it starts ends within the width, or within the column at which the
group starts. -/
theorem flatGroup_withinWidth
    (hreach : Turns width (.start d) ⟨⟨indent, .broken, group g⟩ :: rest, p⟩)
    (hflat : turn? width ⟨⟨indent, .broken, group g⟩ :: rest, p⟩ =
      some ⟨⟨indent, .flat, g⟩ :: rest, p⟩) :
    ∃ line, (lines (d.render width).toList)[p.text.count '\n']? = some line ∧
      line.length ≤ max width p.column := by
  have hmode : groupMode width p.column .broken g rest = .flat := by
    have hstate := Option.some.inj hflat
    injection hstate with hstack
    injection hstack with htask
    injection htask
  have hstart : Keeps (p.text.count '\n') (max width p.column) ⟨⟨indent, .flat, g⟩ :: rest, p⟩ :=
    .of_flat hreach.counted hmode
  have hnext : Turns width (.start d) ⟨⟨indent, .flat, g⟩ :: rest, p⟩ := hreach.tail hflat
  have hend := Turns.keeps (Nat.le_max_left width p.column) hstart hnext.to_end
  rw [render_eq_of_turns (hnext.trans hnext.to_end)]
  exact hend.line_le

/-- Two pieces, each behind a line of its own group. -/
def twoLater : Doc :=
  append (group (append line (text "cd"))) (group (append line (text "ef")))

/-- The group of `cd` is laid out flat behind `ab`, with a look-ahead to the next group only, and
that group is broken later: `ab cd` keeps to six columns. -/
theorem flatGroup_withinWidth_laterBroken :
    turn? 6 ⟨[⟨0, .broken, group (append line (text "cd"))⟩,
        ⟨0, .broken, group (append line (text "ef"))⟩], ⟨['b', 'a'], 2⟩⟩ =
      some ⟨[⟨0, .flat, append line (text "cd")⟩, ⟨0, .broken, group (append line (text "ef"))⟩],
        ⟨['b', 'a'], 2⟩⟩ ∧
    (append (text "ab") twoLater).render 6 = "ab cd\nef" ∧
    ∃ line, (lines ((append (text "ab") twoLater).render 6).toList)[0]? = some line ∧
      line.length ≤ 6 := by
  have hflat : turn? 6 ⟨[⟨0, .broken, group (append line (text "cd"))⟩,
        ⟨0, .broken, group (append line (text "ef"))⟩], ⟨['b', 'a'], 2⟩⟩ =
      some ⟨[⟨0, .flat, append line (text "cd")⟩, ⟨0, .broken, group (append line (text "ef"))⟩],
        ⟨['b', 'a'], 2⟩⟩ := rfl
  have hreach : Turns 6 (.start (append (text "ab") twoLater))
      ⟨[⟨0, .broken, group (append line (text "cd"))⟩,
        ⟨0, .broken, group (append line (text "ef"))⟩], ⟨['b', 'a'], 2⟩⟩ :=
    Turns.head rfl (Turns.head rfl (Turns.head rfl .refl))
  exact ⟨hflat, by decide +kernel, flatGroup_withinWidth hreach hflat⟩

end AccessPolicy.Doc
