import AccessPolicy.Layout.Doc
import AccessPolicy.Proofs.Grammar.Spelling
import Mathlib.Data.List.Forall2

/-!
# What documents spell

The layout of a document depends on the width of lines and on what stands around it, but only blanks
come and go with it.

* `Doc.Adds needs leaves d ls` — **in every layout** and behind every page, which has to be fresh if
  `needs` is set, the document `d` adds the lexemes `ls` to what the page spells; the page is fresh
  again behind it if `leaves` is set.
* **Documents are put together** (`Doc.Adds.append`, `Doc.Adds.join`, `Doc.Adds.nest`,
  `Doc.Adds.group`), so that no layout has to be looked at again.
-/

namespace AccessPolicy

open Grammar

namespace Doc

/-- The characters of a page. -/
def Page.text (p : Page) : List Char :=
  p.written.reverse

/-- What is written comes behind what is there. -/
@[simp] theorem Page.text_write (p : Page) (s : String) :
    (p.write s).text = p.text ++ s.toList := by
  simp [Page.text, Page.write, List.reverseAux_eq]

/-- A new line adds nothing, and anything may begin on it. -/
theorem Page.spells_newline {p : Page} {ms : List Lexeme} (h : Spells p.text ms) (indent : Nat) :
    Spells (p.newline indent).text ms ∧ Fresh (p.newline indent).text := by
  have htext : (p.newline indent).text =
      (p.written.dropWhile (· == ' ')).reverse ++ '\n' :: List.replicate indent ' ' := by
    simp [Page.text, Page.newline]
  have hblanks : ∀ c ∈ '\n' :: List.replicate indent ' ', isSpace c := by
    intro c hc
    rcases List.mem_cons.mp hc with rfl | hc
    · rfl
    · rw [List.eq_of_mem_replicate hc]
      rfl
  have fresh : Fresh ('\n' :: List.replicate indent ' ') := by
    intro a ha
    rcases List.mem_cons.mp (List.mem_of_getLast? ha) with rfl | ha
    · rfl
    · rw [List.eq_of_mem_replicate ha]
      rfl
  rw [htext]
  refine ⟨?_, fresh.append _ (List.cons_ne_nil _ _)⟩
  have hseam :
      Apart (p.written.dropWhile (· == ' ')).reverse ('\n' :: List.replicate indent ' ') := by
    refine apart_of_head fun c hc => ?_
    cases hc
    rfl
  simpa using (Spells.trim h).append (spells_blanks hblanks) hseam

/-! ### Documents -/

/-- In every layout the document adds the lexemes to what a page spells. With `needs` the page has
to be fresh, with `leaves` it is fresh behind the document. -/
def Adds (needs leaves : Bool) (d : Doc) (ls : List Lexeme) : Prop :=
  ∀ (width indent : Nat) (mode : Mode) (rest : List (Mode × Doc)) (p : Page) (ms : List Lexeme),
    Spells p.text ms → (needs → Fresh p.text) →
    Spells (layout width d indent mode rest p).text (ms ++ ls) ∧
      (leaves → Fresh (layout width d indent mode rest p).text)

variable {needs between leaves : Bool} {d e : Doc} {ls ms : List Lexeme}

/-- The lexemes may be named in another way. -/
theorem Adds.of_eq (h : Adds needs leaves d ls) (e : ls = ms) : Adds needs leaves d ms :=
  e ▸ h

/-- The empty document changes nothing, so that a page is as fresh behind it as before. -/
theorem Adds.empty : Adds needs needs empty [] := by
  intro width indent mode rest p ms h hp
  rw [List.append_nil]
  exact ⟨h, hp⟩

/-- **Documents one after the other** add their lexemes one after the other, if the first one leaves
what the second one needs. -/
theorem Adds.append (hd : Adds needs between d ls) (he : Adds between leaves e ms) :
    Adds needs leaves (d ++ e) (ls ++ ms) := by
  intro width indent mode rest p ms' h hp
  obtain ⟨h', hp'⟩ := hd width indent mode ((mode, e) :: rest) p ms' h hp
  rw [← List.append_assoc]
  exact he width indent mode rest _ _ h' hp'

/-- Indentation is blank, and blanks spell nothing. -/
theorem Adds.nest (h : Adds needs leaves d ls) (n : Nat) : Adds needs leaves (nest n d) ls :=
  fun width indent mode rest p ms hp => h width (indent + n) mode rest p ms hp

/-- A group is laid out flat or not, and its document adds the same in both modes. -/
theorem Adds.group (h : Adds needs leaves d ls) : Adds needs leaves (group d) ls := by
  intro width indent mode rest p ms hp hneeds
  rw [layout]
  split
  · exact h width indent .flat rest p ms hp hneeds
  · exact h width indent .broken rest p ms hp hneeds

/-- A newline spells nothing, and the page is fresh behind it. -/
theorem Adds.hardLine : Adds needs leaves hardLine [] := by
  intro width indent mode rest p ms h hp
  obtain ⟨h', hfresh⟩ := Page.spells_newline h indent
  rw [List.append_nil]
  exact ⟨h', fun _ => hfresh⟩

/-- A line is a newline or a blank, and the page is fresh behind both. -/
theorem Adds.line : Adds needs leaves line [] := by
  intro width indent mode rest p ms h hp
  rw [layout, List.append_nil]
  split
  · have seam : Apart p.text [' '] := apart_of_head fun c hc => by
      cases hc
      rfl
    rw [Page.text_write]
    refine ⟨?_, fun _ => Fresh.append _ (by decide) (by decide)⟩
    simpa using h.append (.blank rfl .nil) seam
  · obtain ⟨h', hfresh⟩ := Page.spells_newline h indent
    exact ⟨h', fun _ => hfresh⟩

/-- Laid out flat, such a line is nothing at all, so that the page need not be fresh behind it. -/
theorem Adds.softLine : Adds needs needs softLine [] := by
  intro width indent mode rest p ms h hp
  rw [layout, List.append_nil]
  split
  · exact ⟨h, hp⟩
  · obtain ⟨h', hfresh⟩ := Page.spells_newline h indent
    exact ⟨h', fun _ => hfresh⟩

/-- A text that begins like a lexeme or, where the page need not be fresh, with a character that may
follow everything. -/
theorem Adds.text {s : String} {c : Char} {cs : List Char} (hs : s.toList = c :: cs)
    (h : Spells (c :: cs) ls) (first : if needs then c ≠ '=' else isCloser c)
    (last : leaves → Fresh (c :: cs)) : Adds needs leaves (text s) ls := by
  intro width indent mode rest p ms hp hneeds
  rw [layout, Page.text_write, hs]
  refine ⟨hp.append h ?_, fun hl => (last hl).append _ (List.cons_ne_nil c cs)⟩
  cases needs with
  | true =>
      refine (hneeds rfl).apart fun d hd => ?_
      cases hd
      exact first
  | false =>
      refine apart_of_head fun d hd => ?_
      cases hd
      exact first

/-- What may follow every page may follow a fresh one. -/
theorem Adds.anywhere (h : Adds false leaves d ls) (needs : Bool) : Adds needs leaves d ls :=
  fun width indent mode rest p ms hp _ => h width indent mode rest p ms hp nofun

/-- That a page is fresh can be left unsaid. -/
theorem Adds.forget (h : Adds needs leaves d ls) : Adds needs false d ls :=
  fun width indent mode rest p ms hp hneeds => ⟨(h width indent mode rest p ms hp hneeds).1, nofun⟩

/-- The documents of a list add the lexemes one after another. -/
inductive AddsAll : (needs leaves : Bool) → List Doc → List Lexeme → Prop
  | nil {needs : Bool} : AddsAll needs needs [] []
  | cons {needs between leaves : Bool} {d : Doc} {ds : List Doc} {ls ms : List Lexeme}
      (h : Adds needs between d ls) (hs : AddsAll between leaves ds ms) :
      AddsAll needs leaves (d :: ds) (ls ++ ms)

/-- Lists of documents are put together as documents are. -/
theorem AddsAll.append {ds es : List Doc} (hd : AddsAll needs between ds ls)
    (he : AddsAll between leaves es ms) : AddsAll needs leaves (ds ++ es) (ls ++ ms) := by
  induction hd with
  | nil => exact he
  | cons h _ ih =>
      rw [List.append_assoc]
      exact .cons h (ih he)

/-- A list of documents adds what its documents add together. -/
theorem AddsAll.concat {ds : List Doc} (h : AddsAll needs leaves ds ls) :
    Adds needs leaves (concat ds) ls := by
  induction h with
  | nil => exact .empty
  | cons h _ ih => exact h.append ih

/-- A document is a list of one. -/
theorem Adds.addsAll (h : Adds needs leaves d ls) : AddsAll needs leaves [d] ls := by
  have := AddsAll.cons h .nil
  rwa [List.append_nil] at this

/-- Documents that keep a page fresh, one for each item of a list. -/
theorem addsAll_map {α : Type} {f : α → Doc} {g : α → List Lexeme} {xs : List α}
    (h : ∀ x ∈ xs, Adds needs needs (f x) (g x)) :
    AddsAll needs needs (xs.map f) (xs.flatMap g) := by
  induction xs with
  | nil => exact .nil
  | cons x xs ih =>
      exact .cons (h x List.mem_cons_self) (ih fun y hy => h y (List.mem_cons_of_mem x hy))

/-- Documents with a separator between them. -/
theorem Adds.join {separator : Doc} {l : Lexeme} (hsep : Adds false true separator [l])
    {ds : List Doc} {lss : List (List Lexeme)} (h : List.Forall₂ (Adds true false) ds lss) :
    Adds true false (Doc.join separator ds) (separated l lss) := by
  induction h with
  | nil => exact Adds.empty.forget
  | @cons d ls ds lss hd hds ih =>
      cases hds with
      | nil => simpa [separated, Doc.join] using hd
      | @cons e ms ds lss he hds =>
          have hls : ls ++ [l] ++ separated l (ms :: lss) = separated l (ls :: ms :: lss) := by
            simp [separated]
          rw [← hls]
          exact (hd.append hsep).append ih

end Doc

end AccessPolicy
