import AccessPolicy.Proofs.Layout.Adds
import AccessPolicy.Proofs.Layout.Measure

/-!
# Documents on one line

* `Doc.flatText d` — the text of a document whose lines are all blanks.
* `Doc.Alike v d d'` — two documents without hard lines that differ in indentation at most. They
  have one flat text (`Doc.Alike.flatText_eq`); laid out flat they are that text
  (`Doc.Alike.layout_flat`), and that is what the look-ahead measures (`Doc.Alike.measure_flat`).
* **What a layout depends on**: of the documents to come it is only whether the look-ahead runs out
  of columns in them (`Doc.layout_congr`), and of the page only what is behind its last newline
  (`Doc.layout_behind`).
-/

namespace AccessPolicy.Doc

variable {v : Prop} {d d' e e' : Doc} {n : Int} {width indent : Nat} {mode : Mode}
  {rest rest' : List (Mode × Doc)} {p : Page}

/-- The text of a document whose lines are blanks. -/
def flatText : Doc → List Char
  | empty => []
  | text s => s.toList
  | line => [' ']
  | softLine => []
  | hardLine => ['\n']
  | append a b => flatText a ++ flatText b
  | nest _ d => flatText d
  | group d => flatText d

/-- The flat text of two documents is that of one behind that of the other. -/
@[simp] theorem flatText_append (a b : Doc) : (a ++ b).flatText = a.flatText ++ b.flatText :=
  rfl

/-- The same document but for the indentation, without hard lines. With `v` no text in it has a
newline. -/
inductive Alike (v : Prop) : Doc → Doc → Prop
  | empty : Alike v empty empty
  | text {s : String} (h : v → '\n' ∉ s.toList) : Alike v (text s) (text s)
  | line : Alike v line line
  | softLine : Alike v softLine softLine
  | append {a a' b b' : Doc} (ha : Alike v a a') (hb : Alike v b b') :
      Alike v (append a b) (append a' b')
  | nest {d d' : Doc} (m n : Nat) (h : Alike v d d') : Alike v (nest m d) (nest n d')
  | group {d d' : Doc} (h : Alike v d d') : Alike v (group d) (group d')

/-! ### Putting together -/

/-- Lists of one document are alike if the documents are. -/
theorem Alike.single (h : Alike v d d') : Alike v (concat [d]) (concat [d']) :=
  .append h .empty

/-- Lists of documents are alike if their first documents and the rest are. -/
theorem Alike.cons {ds ds' : List Doc} (h : Alike v d d') (hs : Alike v (concat ds) (concat ds')) :
    Alike v (concat (d :: ds)) (concat (d' :: ds')) :=
  .append h hs

/-- Joined documents are alike if the separators are and each document is like its counterpart. -/
theorem Alike.join {ds ds' : List Doc} (hsep : Alike v e e') (h : List.Forall₂ (Alike v) ds ds') :
    Alike v (join e ds) (join e' ds') := by
  induction h with
  | nil => exact .empty
  | @cons d d' ds ds' hd hds ih =>
      cases hds with
      | nil => exact hd
      | cons _ _ => exact .append (.append hd hsep) ih

/-! ### The flat text -/

/-- Documents that are alike have one flat text. -/
theorem Alike.flatText_eq (h : Alike v d d') : d.flatText = d'.flatText := by
  induction h with
  | append _ _ iha ihb => rw [flatText, flatText, iha, ihb]
  | nest _ _ _ ih => exact ih
  | group _ ih => exact ih
  | _ => rfl

/-- The flat text of documents without newlines is one line. -/
theorem Alike.not_mem_flatText (h : Alike v d d') (hv : v) : '\n' ∉ d.flatText := by
  induction h with
  | empty => exact List.not_mem_nil
  | text h => exact h hv
  | line => decide
  | softLine => exact List.not_mem_nil
  | append _ _ iha ihb => exact fun hmem => (List.mem_append.mp hmem).elim iha ihb
  | nest _ _ _ ih => exact ih
  | group _ ih => exact ih

/-- Laid out flat the document is its flat text. -/
theorem Alike.layout_flat (h : Alike v d d') (indent : Nat) (rest : List (Mode × Doc)) (p : Page) :
    layout width d indent .flat rest p =
      ⟨d.flatText.reverse ++ p.written, p.column + d.flatText.length⟩ := by
  induction h generalizing indent rest p with
  | empty => rfl
  | text h => simp [layout, Page.write, flatText, List.reverseAux_eq, String.length_toList]
  | line => rfl
  | softLine => rfl
  | append _ _ iha ihb =>
      rw [layout, iha, ihb, flatText, List.reverse_append, List.append_assoc, List.length_append,
        Nat.add_assoc]
  | nest _ _ _ ih => exact ih _ _ _
  | group _ ih =>
      rw [layout, if_pos (.inl rfl)]
      exact ih _ _ _

/-! ### Measuring the flat text -/

/-- Taking no columns leaves the room as it is. -/
theorem Room.take_zero (h : 0 ≤ n) : Room.take n 0 = .left n := by
  rw [Room.take, if_neg (by omega), Int.sub_zero]

theorem Room.take_eq_left {k : Nat} (h : (k : Int) ≤ n) : Room.take n k = .left (n - k) := by
  rw [Room.take, if_neg (by omega)]

theorem Room.take_eq_exceeded {k : Nat} (h : n < k) : Room.take n k = .exceeded := by
  rw [Room.take, if_pos (by omega)]

/-- Measured flat the document takes the columns of its flat text. -/
theorem Alike.measure_flat (h : Alike v d d') (hn : 0 ≤ n) :
    measure .flat d (.left n) = Room.take n d.flatText.length := by
  induction h generalizing n with
  | empty => exact (Room.take_zero hn).symm
  | text h => simp [measure, flatText, String.length_toList]
  | line => rfl
  | softLine => exact (Room.take_zero hn).symm
  | @append a a' b b' _ _ iha ihb =>
      rw [measure_append, iha hn, flatText, List.length_append]
      by_cases ha : (a.flatText.length : Int) ≤ n
      · rw [Room.take_eq_left ha, ihb (by omega)]
        simp only [Room.take]
        push_cast
        rw [Int.sub_sub]
      · rw [Room.take_eq_exceeded (by omega), Room.take_eq_exceeded (by push_cast; omega),
          measure_exceeded]
  | nest _ _ _ ih =>
      rw [measure_nest]
      exact ih hn
  | group _ ih =>
      rw [measure_group]
      exact ih hn

/-- A document fits if its flat text does, and what is to come does behind it. -/
theorem Alike.fits_iff (h : Alike v d d') (hn : 0 ≤ n) :
    fits n d rest ↔ (d.flatText.length : Int) ≤ n ∧
      measureAll rest (.left (n - d.flatText.length)) ≠ .exceeded := by
  rw [Doc.fits_iff, measureAll, h.measure_flat hn]
  by_cases hd : (d.flatText.length : Int) ≤ n
  · rw [Room.take_eq_left hd]
    exact and_congr_left' (iff_of_true hn hd)
  · rw [Room.take_eq_exceeded (by omega), measureAll_exceeded]
    exact iff_of_false (fun hfits => hfits.2 rfl) fun hfits => hd hfits.1

/-! ### What a layout depends on

A layout looks at the documents to come only for the look-ahead of a group, and at the page only for
the column and for what stands behind the last newline. -/

/-- Documents to come in which the look-ahead runs out of columns alike. -/
def SameAhead (rest rest' : List (Mode × Doc)) : Prop :=
  ∀ r, measureAll rest r = .exceeded ↔ measureAll rest' r = .exceeded

/-- Whether a document fits depends on the documents to come only by whether they run out of
columns. -/
theorem SameAhead.fits_eq (h : SameAhead rest rest') (n : Int) (d : Doc) :
    fits n d rest = fits n d rest' := by
  rw [Bool.eq_iff_iff, fits_iff, fits_iff]
  exact and_congr_right' (not_congr (h _))

/-- Of the documents to come a layout depends on the look-ahead. -/
theorem layout_congr (h : SameAhead rest rest') (d : Doc) (indent : Nat) (mode : Mode) (p : Page) :
    layout width d indent mode rest p = layout width d indent mode rest' p := by
  induction d generalizing rest rest' indent mode p with
  | append a b iha ihb =>
      have hb : SameAhead ((mode, b) :: rest) ((mode, b) :: rest') := fun r => h _
      rw [layout, layout, iha hb, ihb h]
  | nest k d ih => exact ih h _ _ _
  | group d ih => rw [layout, layout, h.fits_eq, ih h, ih h]
  | _ => rfl

/-- The documents of a list are measured one after another. -/
theorem measure_concat_append (ds es : List Doc) (r : Room) :
    measure mode (concat (ds ++ es)) r = measure mode (concat es) (measure mode (concat ds) r) := by
  induction ds generalizing r with
  | nil => rw [List.nil_append, concat, measure_empty]
  | cons d ds ih =>
      change measure mode (append d (concat (ds ++ es))) r =
        measure mode (concat es) (measure mode (append d (concat ds)) r)
      rw [measure_append, measure_append, ih]

/-- The documents of a list are laid out one after another. -/
theorem layout_concat_append (ds es : List Doc) (indent : Nat) (mode : Mode)
    (rest : List (Mode × Doc)) (p : Page) :
    layout width (concat (ds ++ es)) indent mode rest p =
      layout width (concat es) indent mode rest
        (layout width (concat ds) indent mode ((mode, concat es) :: rest) p) := by
  induction ds generalizing p with
  | nil => rfl
  | cons d ds ih =>
      have hahead : SameAhead ((mode, concat (ds ++ es)) :: rest)
          ((mode, concat ds) :: (mode, concat es) :: rest) := by
        intro r
        rw [measureAll, measure_concat_append]
        rfl
      change layout width (concat (ds ++ es)) indent mode rest
          (layout width d indent mode ((mode, concat (ds ++ es)) :: rest) p) =
        layout width (concat es) indent mode rest
          (layout width (concat ds) indent mode ((mode, concat es) :: rest)
            (layout width d indent mode ((mode, concat ds) :: (mode, concat es) :: rest) p))
      rw [ih, layout_congr hahead]

/-- The look-ahead ends at a hard line. -/
theorem measure_concat_hardLine (ds : List Doc) (n : Int) :
    measure .broken (concat (hardLine :: ds)) (.left n) = .ended :=
  measure_ended

/-- In front of a hard line it does not matter what is behind that line. -/
theorem sameAhead_hardLine (ds es : List Doc) (rest rest' : List (Mode × Doc)) :
    SameAhead ((.broken, concat (hardLine :: ds)) :: rest)
      ((.broken, concat (hardLine :: es)) :: rest') := by
  intro r
  cases r with
  | left n =>
      rw [measureAll, measureAll, measure_concat_hardLine, measure_concat_hardLine, measureAll_ended,
        measureAll_ended]
  | exceeded => simp
  | ended => simp

/-- A page with lines in front of it. -/
def Page.behind (front : List Char) (p : Page) : Page :=
  ⟨p.written ++ '\n' :: front, p.column⟩

/-- The text of a page with lines in front is those lines, a newline and the text. -/
@[simp] theorem Page.text_behind (front : List Char) (p : Page) :
    (p.behind front).text = front.reverse ++ '\n' :: p.text := by
  simp [Page.text, Page.behind]

/-- Writing does not look at the lines in front. -/
theorem Page.write_behind (front : List Char) (p : Page) (s : String) :
    (p.behind front).write s = (p.write s).behind front := by
  simp [Page.write, Page.behind, List.reverseAux_eq]

/-- A new line drops blanks of the last line only, and so none of the lines in front. -/
theorem Page.newline_behind (front : List Char) (p : Page) (indent : Nat) :
    (p.behind front).newline indent = (p.newline indent).behind front := by
  simp only [Page.newline, Page.behind, List.dropWhile_append, List.append_assoc, List.cons_append]
  split
  · rename_i hblank
    rw [List.isEmpty_iff.mp hblank]
    rfl
  · rfl

/-- A new line leaves a page alone that has no blanks at its end. -/
theorem Page.newline_eq_behind (h : p.written.head? ≠ some ' ') (indent : Nat) :
    p.newline indent = Page.behind p.written ⟨List.replicate indent ' ', indent⟩ := by
  have hdrop : p.written.dropWhile (· == ' ') = p.written := by
    cases hw : p.written with
    | nil => rfl
    | cons c cs =>
        have hc : c ≠ ' ' := fun heq => h (by rw [hw, heq, List.head?_cons])
        exact List.dropWhile_cons_of_neg (by simpa using hc)
  rw [Page.newline, hdrop]
  rfl

/-- Of the page a layout depends on what is behind a newline. -/
theorem layout_behind (d : Doc) (indent : Nat) (mode : Mode) (rest : List (Mode × Doc))
    (front : List Char) (p : Page) :
    layout width d indent mode rest (p.behind front) =
      (layout width d indent mode rest p).behind front := by
  induction d generalizing indent mode rest p with
  | empty => rfl
  | text s => exact p.write_behind front s
  | line =>
      rw [layout, layout, Page.write_behind, Page.newline_behind]
      exact (apply_ite (Page.behind front) _ _ _).symm
  | softLine =>
      rw [layout, layout, Page.newline_behind]
      exact (apply_ite (Page.behind front) _ _ _).symm
  | hardLine => exact p.newline_behind front indent
  | append a b iha ihb => rw [layout, layout, iha, ihb]
  | nest k d ih => exact ih _ _ _ _
  | group d ih =>
      have hcolumn : (p.behind front).column = p.column := rfl
      rw [layout, layout, hcolumn, ih, ih]
      exact (apply_ite (Page.behind front) _ _ _).symm

end AccessPolicy.Doc
