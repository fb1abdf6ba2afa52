import AccessPolicy.Proofs.Parse.Yields

/-!
# Readings that may fail

* `Gives fails p ls a ms` — what the reader `p` makes of the lexemes `ls`, where it may complain
  about anything if `fails` holds. With nothing for `fails`, it has to succeed.
* **A text is read as its tokens are** (`readText_of_yields`, `readAll_of_gives`), if they are read
  up to the end of the text.
-/

namespace AccessPolicy.Grammar

open Grammar.Parser

variable {α β : Type} {fails : Prop} {l : Lexeme} {ls ms ns : List Lexeme} {a : α} {b : β}

/-- On every stream with the lexemes `ls` the reader gives `a` and leaves `ms`, or, where `fails`
holds, complains about something. -/
def Gives (fails : Prop) (p : Parser α) (ls : List Lexeme) (a : α) (ms : List Lexeme) : Prop :=
  ∀ s : Stream, s.lexemes = ls →
    (∃ s', p s = .ok (a, s') ∧ s'.lexemes = ms) ∨ fails ∧ ∃ e, p s = .error e

/-- A reader that yields something gives it. -/
theorem Yields.gives {p : Parser α} (h : Yields fails p ls a ms) : Gives fails p ls a ms :=
  fun s hs => (h s hs).imp_right fun ⟨hfails, _, he⟩ => ⟨hfails, _, he⟩

/-- A reading goes on where the one before it has ended. -/
theorem Gives.bind {p : Parser α} {f : α → Parser β} (hp : Gives fails p ls a ms)
    (hf : Gives fails (f a) ms b ns) : Gives fails (p >>= f) ls b ns := by
  intro s hs
  rw [run_bind]
  rcases hp s hs with ⟨s', h, hs'⟩ | ⟨hfails, e, h⟩
  · rw [h]
    exact hf s' hs'
  · rw [h]
    exact .inr ⟨hfails, e, rfl⟩

/-- What cannot fail comes first. -/
theorem Yields.andThen {p : Parser α} {f : α → Parser β} (hp : Yields fails p ls a ms)
    (hf : Gives fails (f a) ms b ns) : Gives fails (p >>= f) ls b ns :=
  hp.gives.bind hf

/-- What has to come next and does not is complained about. -/
theorem gives_expect_of_ne {f : Unit → Parser α} (h : fails) (hne : ls.head? ≠ some l) :
    Gives fails (expect l >>= f) ls a ms := by
  intro s hs
  have hleft : Yields False (eat l) ls false ls := yields_eat_of_ne hne
  rcases hleft s hs with ⟨s', heat, -⟩ | ⟨hfalse, -⟩
  · refine .inr ⟨h, ⟨s'.offset, .expected (Lexeme.describe (some l)) (s'.tokens.head?.map
      (·.lexeme))⟩, ?_⟩
    rw [run_bind, expect, run_bind, heat]
    rfl
  · exact hfalse.elim

/-! ### Whole texts -/

variable {text : String}

/-- A text is read as its tokens are, unless the reader complains about nesting. -/
theorem readText_of_yields {p : Parser (Except Error α)} {r : Except Error α}
    (htext : Spells text.toList ls) (hp : Yields fails p ls r ms) :
    readText text p = r ∨ fails ∧ ∃ position,
      readText text p = .error (.syntaxError Complaint.nesting.message position) := by
  obtain ⟨ts, hts, hls⟩ := tokens_of_spells htext
  rw [String.ofList_toList] at hts
  unfold readText
  rw [hts]
  rcases hp ⟨ts, text.utf8ByteSize⟩ hls with ⟨s', hread, -⟩ | ⟨hfails, offset, hread⟩
  · exact .inl (by simp only [readTokens, hread])
  · exact .inr ⟨hfails, _, by simp only [readTokens, hread]; rfl⟩

/-- A text is read as its tokens are, unless the reader complains about something. -/
theorem readText_of_gives {p : Parser (Except Error α)} {r : Except Error α}
    (htext : Spells text.toList ls) (hp : Gives fails p ls r ms) :
    readText text p = r ∨ fails ∧ ∃ e, readText text p = .error e := by
  obtain ⟨ts, hts, hls⟩ := tokens_of_spells htext
  rw [String.ofList_toList] at hts
  unfold readText
  rw [hts]
  rcases hp ⟨ts, text.utf8ByteSize⟩ hls with ⟨s', hread, -⟩ | ⟨hfails, e, hread⟩
  · exact .inl (by simp only [readTokens, hread])
  · exact .inr ⟨hfails, e.toError text, by simp only [readTokens, hread]⟩

/-- A text whose tokens are read up to its end is read. -/
theorem readAll_of_gives {p : Parser α} (lead : String) (htext : Spells text.toList ls)
    (hp : Gives fails p ls a []) :
    readAll text lead p = .ok a ∨ fails ∧ ∃ e, readAll text lead p = .error e := by
  have hnone : Yields fails (expectEnd lead) [] () [] := by
    unfold expectEnd
    exact yields_peek.bind yields_pure
  exact readText_of_gives htext (hp.bind (hnone.andThen yields_pure.gives))

end AccessPolicy.Grammar
