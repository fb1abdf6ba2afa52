import AccessPolicy.Pattern
import Mathlib.Data.List.Forall2

/-!
# Patterns match what they can be laid over

* `Pattern.Covers pattern text` — the text can be cut into consecutive pieces, one for each place of
  the pattern, such that the piece of a character is that character; the piece of a wildcard may be
  any.
* `Pattern.Scan.Ends s answer` — turn by turn, the scan comes to the answer. **Every scan comes to
  one answer** (`Pattern.Scan.ends_iff`).
* `Pattern.Scan.Aligned s` — between the mark and the place of a scan there are only characters, and
  they are what was gone through. So earlier wildcards can be forgotten
  (`Pattern.Scan.Aligned.covers`): if pattern and text can be matched from the mark on with a longer
  run, they can be matched from where the scan stands at its next wildcard.
* **A turn keeps what is to be found out** (`Pattern.Scan.promising_turn`), so that the answer of a
  scan is whether the pattern covers the text (`Pattern.accepts_exactly`).
-/

namespace AccessPolicy.Pattern

variable {gs hs : List Glob} {cs ds w : List Char} {c d : Char}

/-! ### Cutting a text -/

/-- The piece of a text that a place of a pattern may stand for. -/
def Fits : Glob → List Char → Prop
  | .char c, piece => piece = [c]
  | .wildcard, _ => True

/-- The text can be cut into consecutive pieces, one for each place of the pattern. -/
def Covers (pattern : List Glob) (text : List Char) : Prop :=
  ∃ pieces, List.Forall₂ Fits pattern pieces ∧ pieces.flatten = text

/-- The empty pattern covers the empty text. -/
theorem covers_nil_iff : Covers [] cs ↔ cs = [] := by
  constructor
  · rintro ⟨pieces, h, rfl⟩
    cases h
    rfl
  · rintro rfl
    exact ⟨[], .nil, rfl⟩

/-- A pattern covers a text that begins with a piece for its first place, if its rest covers the
rest. -/
theorem covers_cons_iff {g : Glob} : Covers (g :: gs) cs ↔
    ∃ piece rest, Fits g piece ∧ Covers gs rest ∧ cs = piece ++ rest := by
  constructor
  · rintro ⟨pieces, h, rfl⟩
    obtain ⟨piece, pieces, hpiece, hpieces, rfl⟩ := List.forall₂_cons_left_iff.mp h
    exact ⟨piece, pieces.flatten, hpiece, ⟨pieces, hpieces, rfl⟩, rfl⟩
  · rintro ⟨piece, rest, hpiece, ⟨pieces, hpieces, rfl⟩, rfl⟩
    exact ⟨piece :: pieces, .cons hpiece hpieces, rfl⟩

/-- A character in a pattern covers itself. -/
theorem covers_char_iff : Covers (.char c :: gs) cs ↔ ∃ ds, Covers gs ds ∧ cs = c :: ds := by
  rw [covers_cons_iff]
  constructor
  · rintro ⟨_, rest, rfl, hrest, rfl⟩
    exact ⟨rest, hrest, rfl⟩
  · rintro ⟨rest, hrest, rfl⟩
    exact ⟨[c], rest, rfl, hrest, rfl⟩

/-- The empty pattern covers no other text. -/
theorem not_covers_nil (c : Char) (cs : List Char) : ¬ Covers [] (c :: cs) := by
  rw [covers_nil_iff]
  exact List.cons_ne_nil c cs

/-- A character is no piece for another one. -/
theorem not_covers_char (hne : d ≠ c) (gs : List Glob) (cs : List Char) :
    ¬ Covers (.char d :: gs) (c :: cs) := by
  rw [covers_char_iff]
  rintro ⟨_, -, heq⟩
  exact hne (List.cons.inj heq).1.symm

/-- A wildcard covers any piece of text. -/
theorem covers_wildcard_iff :
    Covers (.wildcard :: gs) cs ↔ ∃ w ds, Covers gs ds ∧ cs = w ++ ds := by
  rw [covers_cons_iff]
  constructor
  · rintro ⟨w, rest, -, hrest, rfl⟩
    exact ⟨w, rest, hrest, rfl⟩
  · rintro ⟨w, rest, hrest, rfl⟩
    exact ⟨w, rest, trivial, hrest, rfl⟩

/-- The run of a wildcard is empty, or it takes the next character. -/
theorem covers_wildcard_tail_iff :
    Covers (.wildcard :: gs) cs ↔ Covers gs cs ∨ Covers (.wildcard :: gs) cs.tail := by
  simp only [covers_wildcard_iff]
  constructor
  · rintro ⟨w, ds, hds, rfl⟩
    cases w with
    | nil => exact .inl hds
    | cons c w => exact .inr ⟨w, ds, hds, rfl⟩
  · rintro (h | ⟨w, ds, hds, htail⟩)
    · exact ⟨[], cs, h, rfl⟩
    · cases cs with
      | nil => exact ⟨w, ds, hds, htail⟩
      | cons c cs => exact ⟨c :: w, ds, hds, congrArg (c :: ·) htail⟩

/-- Of two wildcards side by side, one is enough. -/
theorem covers_wildcard_twice (h : Covers (.wildcard :: .wildcard :: gs) cs) :
    Covers (.wildcard :: gs) cs := by
  obtain ⟨v, _, hrest, rfl⟩ := covers_wildcard_iff.mp h
  obtain ⟨w, ds, hds, rfl⟩ := covers_wildcard_iff.mp hrest
  exact covers_wildcard_iff.mpr ⟨v ++ w, ds, hds, (List.append_assoc v w ds).symm⟩

/-- A pattern covers the empty text exactly if it has only wildcards. -/
theorem covers_empty_iff : Covers gs [] ↔ ∀ g ∈ gs, g = .wildcard := by
  induction gs with
  | nil => simp [covers_nil_iff]
  | cons g gs ih =>
      cases g with
      | char c => simp [covers_char_iff]
      | wildcard => simp [covers_wildcard_iff, ← ih]

/-- A pattern of characters covers exactly these characters. -/
theorem covers_chars_iff : Covers (w.map .char ++ gs) cs ↔ ∃ ds, Covers gs ds ∧ cs = w ++ ds := by
  induction w generalizing cs with
  | nil => simp
  | cons c w ih =>
      simp only [List.map_cons, List.cons_append, covers_char_iff, ih]
      constructor
      · rintro ⟨_, ⟨ds, hds, rfl⟩, rfl⟩
        exact ⟨ds, hds, rfl⟩
      · rintro ⟨ds, hds, rfl⟩
        exact ⟨w ++ ds, ⟨ds, hds, rfl⟩, rfl⟩

namespace Scan

variable {s s' : Scan} {answer : Bool}

/-! ### Every scan ends -/

/-- Turn by turn, the scan comes to the answer. -/
inductive Ends : Scan → Bool → Prop
  | done {s : Scan} {answer : Bool} (h : s.turn = .done answer) : Ends s answer
  | again {s s' : Scan} {answer : Bool} (h : s.turn = .again s') (hends : Ends s' answer) :
      Ends s answer

/-- A scan that is done has its answer. -/
theorem run_of_done (h : s.turn = .done answer) : s.run = answer := by
  rw [run]
  split <;> simp_all

/-- A scan that goes on has the answer of what it goes on with. -/
theorem run_of_again (h : s.turn = .again s') : s.run = s'.run := by
  rw [run]
  split <;> simp_all

/-- **A scan comes to its answer**, and to nothing else. -/
theorem ends_iff : Ends s answer ↔ answer = s.run := by
  constructor
  · intro h
    induction h with
    | done h => exact (run_of_done h).symm
    | again h _ ih => rw [ih, run_of_again h]
  · rintro rfl
    induction s using run.induct with
    | case1 s answer h => exact .done (run_of_done h ▸ h)
    | case2 s s' h ih => exact .again h (run_of_again h ▸ ih)

/-! ### What a turn does -/

/-- A scan is over at the end of the text; it passes a wildcard and marks it; it passes a character;
or it is stuck and turns back. -/
theorem turn_cases (s : Scan) :
    (s.text = [] ∧ s.turn = .done (s.places.all (· = .wildcard))) ∨
      (∃ gs, s.places = .wildcard :: gs ∧ s.turn = .again ⟨gs, s.text, some ⟨gs, s.text⟩⟩) ∨
      (∃ c gs cs, s.places = .char c :: gs ∧ s.text = c :: cs ∧ s.turn = .again ⟨gs, cs, s.mark?⟩) ∨
      (¬ Covers s.places s.text ∧ s.turn = s.turnBack) := by
  obtain ⟨places, text, mark?⟩ := s
  cases text with
  | nil => exact .inl ⟨rfl, rfl⟩
  | cons c cs =>
      cases places with
      | nil => exact .inr (.inr (.inr ⟨not_covers_nil c cs, rfl⟩))
      | cons g gs =>
          cases g with
          | wildcard => exact .inr (.inl ⟨gs, rfl, rfl⟩)
          | char d =>
              by_cases hdc : d = c
              · exact .inr (.inr (.inl ⟨d, gs, cs, rfl, hdc ▸ rfl, if_pos hdc⟩))
              · exact .inr (.inr (.inr ⟨not_covers_char hdc gs cs, if_neg hdc⟩))

/-! ### What a turn keeps

The scan forgets all wildcards but the last one. This loses nothing, for what an earlier wildcard
could make longer, the last one can as well. -/

/-- What stands between the mark and the place of a scan is characters, which were gone through. -/
def Aligned (s : Scan) : Prop :=
  ∀ m ∈ s.mark?, ∃ w, m.places = w.map .char ++ s.places ∧ m.text = w ++ s.text

/-- The text can be matched from where the scan stands, or from the mark on with a longer run. -/
def Promising (s : Scan) : Prop :=
  Covers s.places s.text ∨ ∃ m ∈ s.mark?, Covers (.wildcard :: m.places) m.text.tail

/-- A scan that starts has gone through nothing, so it is aligned. -/
theorem aligned_start (pattern : List Glob) (text : List Char) : (start pattern text).Aligned :=
  nofun

/-- A scan that starts is promising exactly if the pattern covers the text. -/
theorem promising_start_iff : (start gs cs).Promising ↔ Covers gs cs := by
  refine or_iff_left ?_
  rintro ⟨m, hm, -⟩
  cases hm

/-- **Earlier wildcards can be forgotten**: what can be matched with a longer run at the mark can be
matched with a run from where the scan stands. -/
theorem Aligned.covers (h : s.Aligned) {m : Mark} (hm : m ∈ s.mark?)
    (hcovers : Covers (.wildcard :: m.places) m.text.tail) :
    Covers (.wildcard :: s.places) s.text := by
  obtain ⟨w, hplaces, htext⟩ := h m hm
  rw [hplaces] at hcovers
  obtain ⟨v, _, hrest, htail⟩ := covers_wildcard_iff.mp hcovers
  obtain ⟨ds, hds, rfl⟩ := covers_chars_iff.mp hrest
  -- what is left behind the characters ends the same text, and is no longer
  have hends : ds <:+ w ++ s.text :=
    (htail ▸ ⟨v ++ w, by simp⟩ : ds <:+ m.text.tail).trans (htext ▸ List.tail_suffix _)
  have hlength : ds.length ≤ s.text.length := by
    have := congrArg List.length htail
    simp only [htext, List.length_tail, List.length_append] at this
    omega
  obtain ⟨u, hu⟩ := List.suffix_of_suffix_length_le hends (List.suffix_append w s.text) hlength
  exact covers_wildcard_iff.mpr ⟨u, ds, hds, hu.symm⟩

/-- A scan that is stuck finds out the same from the mark on. -/
theorem promising_turnBack (hstuck : ¬ Covers s.places s.text) (h : s.turnBack = .again s') :
    s'.Aligned ∧ (s'.Promising ↔ s.Promising) := by
  unfold turnBack at h
  split at h
  · cases h
  · rename_i m hm
    cases h
    constructor
    · rintro _ ⟨⟩
      exact ⟨[], rfl, rfl⟩
    · simp [Promising, hm, hstuck, ← covers_wildcard_tail_iff]

/-- A scan that is stuck without a mark has found out that there is no match. -/
theorem promising_iff_of_turnBack (hstuck : ¬ Covers s.places s.text)
    (h : s.turnBack = .done answer) : answer = true ↔ s.Promising := by
  unfold turnBack at h
  split at h
  · rename_i hm
    cases h
    simp [Promising, hm, hstuck]
  · cases h

/-- Where pattern and text can be matched from the mark on only if they can be matched from the
place of the scan, the mark adds nothing. -/
theorem Aligned.promising_iff (h : s.Aligned)
    (hrun : Covers (.wildcard :: s.places) s.text → Covers s.places s.text) :
    s.Promising ↔ Covers s.places s.text := by
  refine ⟨fun hs => hs.elim id ?_, .inl⟩
  rintro ⟨m, hm, hcovers⟩
  exact hrun (h.covers hm hcovers)

/-- **A turn keeps what is to be found out.** -/
theorem promising_turn (hs : s.Aligned) (h : s.turn = .again s') :
    s'.Aligned ∧ (s'.Promising ↔ s.Promising) := by
  rcases turn_cases s with ⟨-, hturn⟩ | ⟨gs, hplaces, hturn⟩ | ⟨c, gs, cs, hplaces, htext, hturn⟩ |
    ⟨hstuck, hturn⟩ <;> rw [hturn] at h
  · cases h
  · cases h
    constructor
    · rintro _ ⟨⟩
      exact ⟨[], rfl, rfl⟩
    · -- the new mark takes the place of the old one, which has nothing more to offer
      rw [hs.promising_iff (hplaces ▸ covers_wildcard_twice), hplaces, covers_wildcard_tail_iff]
      simp [Promising]
  · cases h
    constructor
    · intro m hm
      obtain ⟨w, hmark, hseen⟩ := hs m hm
      exact ⟨w ++ [c], by simp [hmark, hplaces], by simp [hseen, htext]⟩
    · simp [Promising, hplaces, htext, covers_char_iff]
  · exact promising_turnBack hstuck h

/-- At the end of a scan, what is to be found out is the answer. -/
theorem promising_iff_of_done (hs : s.Aligned) (h : s.turn = .done answer) :
    answer = true ↔ s.Promising := by
  rcases turn_cases s with ⟨htext, hturn⟩ | ⟨gs, -, hturn⟩ | ⟨c, gs, cs, -, -, hturn⟩ |
    ⟨hstuck, hturn⟩ <;> rw [hturn] at h
  · cases h
    have hrun : Covers (.wildcard :: s.places) s.text → Covers s.places s.text := by
      simp [htext, covers_wildcard_iff]
    rw [hs.promising_iff hrun, htext, covers_empty_iff]
    simp
  · cases h
  · cases h
  · exact promising_iff_of_turnBack hstuck h

/-- **The answer of a scan** is what was to be found out at its start. -/
theorem run_iff (hs : s.Aligned) : s.run = true ↔ s.Promising := by
  induction s using run.induct with
  | case1 s answer h => rw [run_of_done h, promising_iff_of_done hs h]
  | case2 s s' h ih =>
      obtain ⟨hs', hkeeps⟩ := promising_turn hs h
      rw [run_of_again h, ih hs', hkeeps]

end Scan

/-- **Patterns match exactly what they can be laid over.** The scan for a pattern comes to one
answer, and the answer is whether the text can be cut into pieces for the places of the pattern. -/
theorem accepts_exactly (pattern : List Glob) (text : String) :
    (∀ answer, (Scan.start pattern text.toList).Ends answer ↔ answer = accepts pattern text) ∧
      (accepts pattern text = true ↔ Covers pattern text.toList) :=
  ⟨fun _ => Scan.ends_iff,
    (Scan.run_iff (Scan.aligned_start pattern text.toList)).trans Scan.promising_start_iff⟩

end AccessPolicy.Pattern
