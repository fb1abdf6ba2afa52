import AccessPolicy.Proofs.Grammar.Scan

/-!
# Reading by indices

A reader is the tree of its steps. `Parser.run` takes them on a stream, off the front of which
tokens are left out. The steps of the same reader can be taken with an index into the entries of a
text, as `scan` gives them; a step that looks outside the entries finds nothing there.

* `Parser.entryAt?` — what stands at an index, which is kept at the last entry.
* `Parser.runAt` — the steps of a reader by an index. Nothing is given if a step looks outside.
* **No step looks outside** (`Parser.runAt_eq`): on the entries of tokens every reader gives
  something from every index on, which is what it gives on the stream of the tokens behind the
  index. The proof is by induction on the steps; that the entries are never without the one for the
  end carries it.
* A reader complains at the start of an entry (`Parser.exists_mem_of_runAt`).
* `Parser.readText?` — a whole text by bytes and indices, and **it is what is read by characters and
  tokens** (`Parser.readText?_eq`).
-/

namespace AccessPolicy.Grammar

variable {α β : Type}

namespace Parser

/-- The entry at an index, or the last one if the index is behind it. -/
def entryAt? (entries : List Entry) (index : Nat) : Option Entry :=
  entries[min index (entries.length - 1)]?

/-- The steps of a reader on entries, from an index on, with the index where they end. Nothing is
given if a step looks outside the entries. -/
def runAt (entries : List Entry) : Parser α → (index : Nat) → Option (Except Fault (α × Nat))
  | .give a, index => some (.ok (a, index))
  | .fail c, index => (entryAt? entries index).map fun e => .error ⟨e.start, c⟩
  | .look ahead next, index =>
    (entryAt? entries (index + ahead)).bind fun e => (next e.kind).runAt entries index
  | .skip next, index =>
    (entryAt? entries index).bind fun _ =>
      next.runAt entries (if index < entries.length - 1 then index + 1 else index)
  | .count next, index => (next (entries.length - 1 - index)).runAt entries index

/-- Where there is no entry at all, not even one for the end, the first look goes outside. -/
example : peek.runAt [] 0 = none := rfl

/-! ### On the entries of tokens -/

variable {stop index : Nat} {ts : List Token}

theorem length_entriesOf (stop : Nat) (ts : List Token) :
    (entriesOf stop ts).length - 1 = ts.length := by
  simp [entriesOf]

/-- At every index there is an entry, which tells what comes next in the stream behind the index. -/
theorem entryAt?_entriesOf (stop : Nat) (ts : List Token) (index : Nat) :
    entryAt? (entriesOf stop ts) index =
      some ⟨Stream.offset ⟨ts.drop index, stop⟩, (ts.drop index).head?.map (·.lexeme)⟩ := by
  rw [entryAt?, length_entriesOf]
  -- Behind the last token the index is kept at the entry for the end.
  rcases Nat.lt_or_ge index ts.length with hlt | hle
  · rw [Nat.min_eq_left hlt.le, List.drop_eq_getElem_cons hlt, entriesOf,
      List.getElem?_append_left (by rwa [List.length_map]), List.getElem?_map,
      List.getElem?_eq_getElem hlt]
    rfl
  · rw [Nat.min_eq_right hle, List.drop_eq_nil_of_le hle, entriesOf,
      List.getElem?_append_right (by rw [List.length_map]), List.length_map, Nat.sub_self]
    rfl

/-- **No step looks outside the entries**: on the entries of tokens every reader gives what it gives
on the stream of the tokens. -/
theorem runAt_eq (stop : Nat) (p : Parser α) : ∀ {index : Nat}, index ≤ ts.length →
    p.runAt (entriesOf stop ts) index = some
      ((p ⟨ts.drop index, stop⟩).map fun r => (r.1, ts.length - r.2.tokens.length)) := by
  induction p with
  | give a =>
      intro index hle
      have hindex : ts.length - (ts.drop index).length = index := by
        rw [List.length_drop]
        omega
      rw [runAt, run, Except.map, hindex]
  | fail c =>
      intro index _
      rw [runAt, entryAt?_entriesOf]
      rfl
  | look ahead next ih =>
      intro index hle
      rw [runAt, entryAt?_entriesOf, Option.bind_some, run, List.drop_drop]
      exact ih _ hle
  | skip next ih =>
      intro index hle
      rw [runAt, entryAt?_entriesOf, Option.bind_some, length_entriesOf, run]
      -- The entry for the end is not left out.
      rcases hle.lt_or_eq with hlt | rfl
      · rw [if_pos hlt, ih hlt, List.tail_drop]
      · rw [if_neg (Nat.lt_irrefl _), ih (Nat.le_refl _), List.drop_length]
        rfl
  | count next ih =>
      intro index hle
      rw [runAt, length_entriesOf, run, List.length_drop]
      exact ih _ hle

/-- A reader complains at the start of an entry. -/
theorem exists_mem_of_runAt {entries : List Entry} {f : Fault} (p : Parser α) : ∀ {index : Nat},
    p.runAt entries index = some (.error f) → ∃ e ∈ entries, e.start = f.offset := by
  induction p with
  | give a => nofun
  | fail c =>
      intro index h
      obtain ⟨e, he, heq⟩ := Option.map_eq_some_iff.mp h
      cases heq
      exact ⟨e, List.mem_of_getElem? he, rfl⟩
  | look ahead next ih =>
      intro index h
      obtain ⟨e, -, hnext⟩ := Option.bind_eq_some_iff.mp h
      exact ih _ hnext
  | skip next ih =>
      intro index h
      obtain ⟨e, -, hnext⟩ := Option.bind_eq_some_iff.mp h
      exact ih hnext
  | count next ih => exact fun h => ih _ h

/-! ### Whole texts -/

/-- What a reader makes of a whole text by bytes and indices. Nothing is given where the scan gives
nothing or a step looks outside the entries. -/
def readText? (text : String) (p : Parser (Except Error α)) : Option (Except Error α) :=
  (scan text).bind fun
    | .error f => some (.error (f.toError text))
    | .ok entries => (p.runAt entries 0).map fun
      | .error f => .error (f.toError text)
      | .ok (r, _) => r

/-- **A text is read by bytes and indices as it is read by characters and tokens.** -/
theorem readText?_eq (text : String) (p : Parser (Except Error α)) :
    p.readText? text = some (readText text p) := by
  rw [readText?, scan_eq, Option.bind_some, readText]
  cases tokens text with
  | error f => rfl
  | ok ts =>
      simp only [Except.map, p.runAt_eq text.utf8ByteSize (Nat.zero_le _), Option.map_some, readTokens,
        List.drop_zero]
      cases p ⟨ts, text.utf8ByteSize⟩ <;> rfl

end Parser

end AccessPolicy.Grammar
