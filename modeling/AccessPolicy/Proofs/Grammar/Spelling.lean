import AccessPolicy.Proofs.Text.Quoted

/-!
# Spelling tokens

* `Lexeme.Writes l w` — the characters `w` are a written form of the lexeme `l`.
* `Spells cs ls` — the characters `cs` consist of written forms of the lexemes `ls`, in order, with
  any blanks between them; where there are none, the two characters that meet are `apart`.
* **A spelling is cut into its lexemes** (`tokens_of_spells`).
* `Fresh cs` — behind the characters a lexeme may begin, unless it begins with `=`.
* **Spellings are put together** (`Spells.append`), and trailing blanks may be taken away again
  (`Spells.trim`).
-/

namespace AccessPolicy.Grammar

/-! ### Single lexemes -/

/-- Written forms of a lexeme. -/
inductive Lexeme.Writes : Lexeme → List Char → Prop
  | ident {w : String} (h : Name.isIdent w) : Writes (.ident w) w.toList
  | str {body : List Char} (h : Quoted.Inert body) :
      Writes (.str (String.ofList body)) ('"' :: body ++ ['"'])
  | int {n : Nat} (h : n < 18446744073709551616) : Writes (.int n) (Nat.toDigits 10 n)
  | sym (s : Symbol) : Writes (.sym s) s.chars

/-- Two characters that never stand side by side in one lexeme: not both in a word, and not the two
of a symbol. -/
def apart (a c : Char) : Bool :=
  !(Name.isRest a && Name.isRest c) && (pairSymbol? a c).isNone

/-- The characters behind `w` do not continue its last lexeme. -/
def Apart (w cs : List Char) : Prop :=
  ∀ a ∈ w.getLast?, ∀ c ∈ cs.head?, apart a c

instance (w cs : List Char) : Decidable (Apart w cs) :=
  decidable_of_iff (w.getLast?.all fun a => cs.head?.all fun c => apart a c)
    (by simp [Apart, Option.all_eq_true, Option.mem_def])

/-- Nothing is continued by the end of a text. -/
theorem apart_nil (w : List Char) : Apart w [] :=
  fun _ _ _ hc => nomatch hc

/-- A character that can begin an identifier begins nothing else. -/
theorem of_isStart {c : Char} (h : Name.isStart c) :
    isSpace c = false ∧ c ≠ '/' ∧ c ≠ '"' ∧ c.isDigit = false := by
  refine ⟨?_, ?_, ?_, ?_⟩
  · refine Bool.eq_false_iff.mpr fun hs => ?_
    simp only [isSpace, Bool.or_eq_true, beq_iff_eq] at hs
    rcases hs with (((rfl | rfl) | rfl) | rfl) | rfl <;> exact absurd h (by decide)
  · rintro rfl
    exact absurd h (by decide)
  · rintro rfl
    exact absurd h (by decide)
  · refine Bool.eq_false_iff.mpr fun hd => ?_
    simp only [Name.isStart, Bool.or_eq_true, beq_iff_eq] at h
    rcases h with rfl | h
    · exact absurd hd (by decide)
    · have hdigit : c.val ≤ 57 := of_decide_eq_true (Bool.and_eq_true_iff.mp hd).2
      rcases Bool.or_eq_true_iff.mp h with h | h
      · have hupper : 65 ≤ c.val := (of_decide_eq_true h).1
        exact absurd (UInt32.le_trans hupper hdigit) (by decide)
      · have hlower : 97 ≤ c.val := of_decide_eq_true (Bool.and_eq_true_iff.mp h).1
        exact absurd (UInt32.le_trans hlower hdigit) (by decide)

/-- A digit begins no blank, no comment and no text in quotes. -/
theorem of_isDigit {c : Char} (h : c.isDigit) : isSpace c = false ∧ c ≠ '/' ∧ c ≠ '"' := by
  refine ⟨?_, ?_, ?_⟩
  · refine Bool.eq_false_iff.mpr fun hs => ?_
    simp only [isSpace, Bool.or_eq_true, beq_iff_eq] at hs
    rcases hs with (((rfl | rfl) | rfl) | rfl) | rfl <;> exact absurd h (by decide)
  · rintro rfl
    exact absurd h (by decide)
  · rintro rfl
    exact absurd h (by decide)

/-- What begins an identifier may continue one. -/
theorem isRest_of_isStart {c : Char} (h : Name.isStart c) : Name.isRest c := by
  simp only [Name.isStart, Name.isRest, Char.isAlphanum, Bool.or_eq_true] at *
  exact h.imp_right .inl

/-- A digit may continue an identifier. -/
theorem isRest_of_isDigit {c : Char} (h : c.isDigit) : Name.isRest c := by
  simp only [Name.isRest, Char.isAlphanum, Bool.or_eq_true]
  exact .inr (.inr h)

/-- A character of a word is no blank. -/
theorem isSpace_of_isRest {c : Char} (h : Name.isRest c) : isSpace c = false := by
  refine Bool.eq_false_iff.mpr fun hs => ?_
  simp only [isSpace, Bool.or_eq_true, beq_iff_eq] at hs
  rcases hs with (((rfl | rfl) | rfl) | rfl) | rfl <;> exact absurd h (by decide)

/-- Behind a word, what is apart from its end is no character of a word. -/
theorem isRest_of_apart {a c : Char} (ha : Name.isRest a) (h : apart a c) :
    Name.isRest c = false := by
  simp only [apart, ha, Bool.true_and, Bool.and_eq_true, Bool.not_eq_true'] at h
  exact h.1

/-- What a test takes off the front of a list, when it holds of `w` and not of what comes behind. -/
theorem takeWhile_append_of_head {p : Char → Bool} {w cs : List Char} (hw : ∀ c ∈ w, p c)
    (hc : ∀ c ∈ cs.head?, p c = false) :
    (w ++ cs).takeWhile p = w ∧ (w ++ cs).dropWhile p = cs := by
  rw [List.takeWhile_append_of_pos hw, List.dropWhile_append_of_pos hw]
  cases cs with
  | nil => simp
  | cons c cs => simp [hc c rfl]

/-- A character that is a symbol is taken alone if it makes no longer symbol with what follows. -/
theorem symbol?_singleton {c : Char} {s : Symbol} {cs : List Char} (hc : charSymbol? c = some s)
    (h : Apart [c] cs) : symbol? c cs = some (s, [c], cs) := by
  cases cs with
  | nil => simp [symbol?, hc]
  | cons d cs =>
      have hd := h c rfl d rfl
      simp only [apart, Bool.and_eq_true, Option.isNone_iff_eq_none] at hd
      simp [symbol?, hd.2, hc]

/-- A symbol that is not continued. -/
theorem piece_symbol {s : Symbol} {c : Char} {w cs : List Char} (hs : s.chars = c :: w)
    (h : Apart (c :: w) cs) : piece c (w ++ cs) = .ok ⟨some (.sym s), c :: w, cs⟩ := by
  have other : (isSpace c = false ∧ c ≠ '/' ∧ c ≠ '"') ∧ c.isDigit = false ∧
      Name.isStart c = false ∧ symbol? c (w ++ cs) = some (s, c :: w, cs) := by
    cases s
    all_goals
      injection hs with hc hw
      subst hc hw
      refine ⟨by decide, by decide, by decide, ?_⟩
    case pathSep | eqEq | notEq | lessEq | greaterEq | andAnd | orOr => rfl
    all_goals exact symbol?_singleton rfl h
  obtain ⟨⟨h1, h2, h3⟩, h4, h5, h6⟩ := other
  simp [piece, h1, h2, h3, h4, h5, h6]

/-- A text with a first character has a last one. -/
theorem exists_getLast? (c : Char) (w : List Char) :
    ∃ a ∈ c :: w, (c :: w).getLast? = some a :=
  ⟨_, List.getLast_mem (List.cons_ne_nil c w), List.getLast?_eq_some_getLast _⟩

/-- **A written form is one piece**, when it is not continued. -/
theorem piece_of_writes {l : Lexeme} {c : Char} {w cs : List Char} (hl : l.Writes (c :: w))
    (h : Apart (c :: w) cs) : piece c (w ++ cs) = .ok ⟨some l, c :: w, cs⟩ := by
  obtain ⟨a, hmem, ha⟩ := exists_getLast? c w
  generalize hv : c :: w = v at hl
  cases hl with
  | @ident name hname =>
      simp only [Name.isIdent, ← hv, Name.isIdentChars, Bool.and_eq_true, List.all_eq_true]
        at hname
      obtain ⟨h1, h2, h3, h4⟩ := of_isStart hname.1
      -- What stands behind keeps apart from the last character, so the name ends there.
      have last : ∀ d ∈ cs.head?, Name.isRest d = false := by
        intro d hd
        refine isRest_of_apart ?_ (h a ha d hd)
        rcases List.mem_cons.mp hmem with rfl | hmem
        · exact isRest_of_isStart hname.1
        · exact hname.2 a hmem
      obtain ⟨htake, hdrop⟩ := takeWhile_append_of_head hname.2 last
      simp [piece, h1, h2, h3, h4, hname.1, htake, hdrop, hv]
  | @str body hbody =>
      injection hv with hc hw
      subst hc hw
      simp [piece, isSpace, hbody.stringBody]
  | @int n hn =>
      have hdigits : ∀ d ∈ c :: w, d.isDigit := fun d hd =>
        Nat.isDigit_of_mem_toDigits (by decide) (by decide) (hv ▸ hd)
      obtain ⟨h1, h2, h3⟩ := of_isDigit (hdigits c List.mem_cons_self)
      have last : ∀ d ∈ cs.head?, d.isDigit = false := by
        intro d hd
        have := isRest_of_apart (isRest_of_isDigit (hdigits a hmem)) (h a ha d hd)
        exact Bool.eq_false_iff.mpr fun hdd => absurd (isRest_of_isDigit hdd) (by simp [this])
      obtain ⟨htake, hdrop⟩ := takeWhile_append_of_head
        (fun d hd => hdigits d (List.mem_cons_of_mem c hd)) last
      have hnumber : number (c :: w) = n := by
        rw [hv]
        exact Nat.ofDigitChars_ten_toDigits
      simpa [piece, h1, h2, h3, hdigits c List.mem_cons_self, htake, hdrop, hnumber, hn] using hv
  | sym s => rw [piece_symbol hv.symm h, hv]

/-- Every lexeme has a character. -/
theorem Lexeme.Writes.exists_cons {l : Lexeme} {w : List Char} (h : l.Writes w) :
    ∃ c w', w = c :: w' := by
  refine List.exists_cons_of_ne_nil ?_
  cases h with
  | @ident name hname =>
      intro hw
      rw [Name.isIdent, hw] at hname
      cases hname
  | str => exact List.cons_ne_nil _ _
  | int => exact Nat.toDigits_ne_nil
  | sym s => cases s <;> exact List.cons_ne_nil _ _

/-- No written form ends in a blank. -/
theorem Lexeme.Writes.isSpace_getLast {l : Lexeme} {w : List Char} (h : l.Writes w) :
    ∀ a ∈ w.getLast?, isSpace a = false := by
  intro a ha
  cases h with
  | @ident name hname =>
      have : ∀ c ∈ name.toList, Name.isRest c := by
        intro c hc
        rw [Name.isIdent] at hname
        generalize name.toList = cs at hname hc
        cases cs with
        | nil => cases hc
        | cons d ds =>
            simp only [Name.isIdentChars, Bool.and_eq_true, List.all_eq_true] at hname
            rcases List.mem_cons.mp hc with rfl | hc
            · exact isRest_of_isStart hname.1
            · exact hname.2 c hc
      exact isSpace_of_isRest (this a (List.mem_of_getLast? ha))
  | str =>
      rw [List.getLast?_concat] at ha
      cases ha
      rfl
  | int =>
      exact (of_isDigit
        (Nat.isDigit_of_mem_toDigits (by decide) (by decide) (List.mem_of_getLast? ha))).1
  | sym s =>
      cases s <;> cases ha <;> rfl

/-! ### Spellings

Between two tokens there may be blanks, and has to be one where they would run into each other. What
spells tokens is cut into these again, whatever the blanks are. -/

/-- The characters are written forms of the lexemes, with blanks between them where the characters
that meet are not apart. -/
inductive Spells : List Char → List Lexeme → Prop
  | nil : Spells [] []
  | blank {c : Char} {cs : List Char} {ls : List Lexeme} (hc : isSpace c) (h : Spells cs ls) :
      Spells (c :: cs) ls
  | lexeme {l : Lexeme} {w cs : List Char} {ls : List Lexeme} (hl : l.Writes w) (seam : Apart w cs)
      (h : Spells cs ls) : Spells (w ++ cs) (l :: ls)

/-- **A spelling is cut into its lexemes.** -/
theorem tokensFrom_of_spells {cs : List Char} {ls : List Lexeme} (h : Spells cs ls) :
    ∀ {count offset : Nat}, cs.length ≤ count →
      ∃ ts, tokensFrom count offset cs = .ok ts ∧ ts.map (·.lexeme) = ls := by
  induction h with
  | nil =>
      intro count offset _
      cases count <;> exact ⟨[], rfl, rfl⟩
  | @blank c cs ls hc h ih =>
      intro count offset hcount
      obtain ⟨count, rfl⟩ := Nat.exists_eq_add_one_of_ne_zero (Nat.ne_zero_of_lt hcount)
      obtain ⟨ts, hts, hls⟩ := @ih count (offset + byteCount [c])
        (Nat.le_of_succ_le_succ hcount)
      refine ⟨ts, ?_, hls⟩
      simp [tokensFrom, piece, hc, hts]
  | @lexeme l w cs ls hl seam h ih =>
      intro count offset hcount
      obtain ⟨c, w, rfl⟩ := hl.exists_cons
      simp only [List.cons_append, List.length_cons, List.length_append] at hcount
      obtain ⟨count, rfl⟩ := Nat.exists_eq_add_one_of_ne_zero (Nat.ne_zero_of_lt hcount)
      obtain ⟨ts, hts, hls⟩ := @ih count (offset + byteCount (c :: w)) (by omega)
      refine ⟨⟨offset, l⟩ :: ts, ?_, by rw [List.map_cons, hls]⟩
      simp [tokensFrom, piece_of_writes hl seam, hts]

/-- **A spelling is cut into its lexemes**: wherever blanks were needed they are there, so that no
two lexemes run into each other. -/
theorem tokens_of_spells {cs : List Char} {ls : List Lexeme} (h : Spells cs ls) :
    ∃ ts, tokens (String.ofList cs) = .ok ts ∧ ts.map (·.lexeme) = ls := by
  unfold tokens
  rw [String.toList_ofList]
  exact tokensFrom_of_spells h (Nat.le_refl _)

/-! ### Putting spellings together -/

/-- Only the end of what stands in front counts. -/
theorem Apart.of_append {v w cs : List Char} (h : Apart (v ++ w) cs) : Apart w cs := by
  intro a ha c hc
  refine h a ?_ c hc
  rw [Option.mem_def] at ha ⊢
  rw [List.getLast?_append, ha]
  rfl

/-- And only the beginning of what follows. -/
theorem Apart.of_append_right {w cs ds : List Char} (h : Apart w (cs ++ ds)) : Apart w cs := by
  intro a ha c hc
  refine h a ha c ?_
  rw [Option.mem_def] at hc ⊢
  rw [List.head?_append, hc]
  rfl

/-- What stands between two texts keeps them apart if it is apart from both; if there is nothing
between, they have to be apart themselves. -/
theorem apart_append {w cs ds : List Char} (hcs : Apart w cs) (hds : Apart (w ++ cs) ds) :
    Apart w (cs ++ ds) := by
  cases cs with
  | nil => simpa using hds
  | cons c cs => exact fun a ha d hd => hcs a ha d hd

/-- Spellings that are apart make a spelling. -/
theorem Spells.append {cs ds : List Char} {ls ms : List Lexeme} (h : Spells cs ls)
    (h' : Spells ds ms) (seam : Apart cs ds) : Spells (cs ++ ds) (ls ++ ms) := by
  induction h with
  | nil => exact h'
  | @blank c cs ls hc h ih => exact .blank hc (ih (Apart.of_append (v := [c]) seam))
  | @lexeme l w cs ls hl hw h ih =>
      rw [List.append_assoc]
      exact .lexeme hl (apart_append hw seam) (ih (Apart.of_append seam))

/-- A blank at the end may be taken away. -/
theorem Spells.of_append_blank {cs : List Char} {ls : List Lexeme} {c : Char} (hc : isSpace c)
    (h : Spells (cs ++ [c]) ls) : Spells cs ls := by
  generalize hds : cs ++ [c] = ds at h
  induction h generalizing cs with
  | nil => exact absurd hds (by simp)
  | @blank d ds ls hd h ih =>
      cases cs with
      | nil =>
          injection hds with _ hds
          exact hds ▸ h
      | cons d' cs =>
          injection hds with hd' hds
          exact hd' ▸ .blank hd (ih hds)
  | @lexeme l w ds ls hl seam h ih =>
      rcases List.eq_nil_or_concat ds with rfl | ⟨es, d, rfl⟩
      · -- the blank would be the end of the last lexeme
        rw [List.append_nil] at hds
        have := hl.isSpace_getLast c (by rw [← hds]; simp)
        exact absurd hc (by simp [this])
      · rw [List.concat_eq_append, ← List.append_assoc] at hds
        obtain ⟨rfl, hcd⟩ := List.append_inj' hds rfl
        refine .lexeme hl ?_ (ih ?_)
        · rw [List.concat_eq_append] at seam
          exact seam.of_append_right
        · rw [hcd, List.concat_eq_append]

/-- Blanks at the end may be taken away; the characters are given in reverse. -/
theorem Spells.trim {cs : List Char} {ls : List Lexeme} (h : Spells cs.reverse ls) :
    Spells (cs.dropWhile (· == ' ')).reverse ls := by
  induction cs with
  | nil => exact h
  | cons c cs ih =>
      rw [List.dropWhile_cons]
      split
      · rename_i hc
        obtain rfl : c = ' ' := by simpa using hc
        rw [List.reverse_cons] at h
        exact ih (h.of_append_blank rfl)
      · exact h

/-- Blanks alone spell nothing. -/
theorem spells_blanks {cs : List Char} (h : ∀ c ∈ cs, isSpace c) : Spells cs [] := by
  induction cs with
  | nil => exact .nil
  | cons c cs ih =>
      exact .blank (h c List.mem_cons_self) (ih fun d hd => h d (List.mem_cons_of_mem c hd))

/-- One lexeme alone. -/
theorem Lexeme.Writes.spells {l : Lexeme} {w : List Char} (h : l.Writes w) : Spells w [l] := by
  simpa using Spells.lexeme h (apart_nil w) .nil

/-- What spells a lexeme other than `==` does not begin with `=`. -/
theorem Spells.exists_cons {cs : List Char} {l : Lexeme} {ls : List Lexeme}
    (h : Spells cs (l :: ls)) (hl : l ≠ .sym .eqEq) : ∃ c cs', cs = c :: cs' ∧ c ≠ '=' := by
  generalize hls : l :: ls = ms at h
  cases h with
  | nil => cases hls
  | @blank c cs _ hc h =>
      refine ⟨c, cs, rfl, ?_⟩
      rintro rfl
      exact absurd hc (by decide)
  | @lexeme l' w cs ms hw seam h =>
      injection hls with hll hls
      subst hll
      obtain ⟨c, w, rfl⟩ := hw.exists_cons
      refine ⟨c, w ++ cs, rfl, ?_⟩
      rintro rfl
      generalize hv : '=' :: w = v at hw
      cases hw with
      | @ident name hname =>
          rw [Name.isIdent, ← hv, Name.isIdentChars, Bool.and_eq_true] at hname
          exact absurd hname.1 (by decide)
      | str => cases hv
      | int =>
          have := Nat.isDigit_of_mem_toDigits (by decide) (by decide) (hv ▸ List.mem_cons_self)
          exact absurd this (by decide)
      | sym s =>
          cases s <;> first | exact absurd rfl hl | cases hv

/-! ### Seams

Whether texts can be put side by side depends on the two characters that meet, and most of the
characters that end or begin printed texts keep apart from everything. -/

/-- Characters behind which everything may begin that does not begin with `=`. -/
def isOpener (a : Char) : Bool :=
  !Name.isRest a && !List.contains [':', '=', '<', '>', '&', '|'] a

/-- Characters that may follow everything. -/
def isCloser (c : Char) : Bool :=
  !Name.isRest c && !List.contains [':', '=', '&', '|'] c

/-- Behind an opener comes a new lexeme, or the second character of one that ends with `=`. -/
theorem apart_of_isOpener {a c : Char} (ha : isOpener a) (hc : c ≠ '=') : apart a c := by
  simp only [isOpener, List.contains_cons, List.contains_nil, Bool.or_false, Bool.and_eq_true,
    Bool.not_eq_true', Bool.or_eq_false_iff, beq_eq_false_iff_ne] at ha
  obtain ⟨hrest, h1, h2, h3, h4, h5, h6⟩ := ha
  simp [apart, hrest, pairSymbol?, h1, h2, h3, h4, h5, h6, hc]

/-- A closer is part of no word and the second character of no symbol. -/
theorem apart_of_isCloser {a c : Char} (hc : isCloser c) : apart a c := by
  simp only [isCloser, List.contains_cons, List.contains_nil, Bool.or_false, Bool.and_eq_true,
    Bool.not_eq_true', Bool.or_eq_false_iff, beq_eq_false_iff_ne] at hc
  obtain ⟨hrest, h1, h2, h3, h4⟩ := hc
  simp [apart, hrest, pairSymbol?, h1, h2, h3, h4]

/-- Behind these characters a lexeme may begin, unless it begins with `=`. -/
def Fresh (cs : List Char) : Prop :=
  ∀ a ∈ cs.getLast?, isOpener a

instance (cs : List Char) : Decidable (Fresh cs) :=
  decidable_of_iff (cs.getLast?.all isOpener) (by simp [Fresh, Option.all_eq_true, Option.mem_def])

/-- So a text that is fresh is continued by nothing but `=`. -/
theorem Fresh.apart {w cs : List Char} (h : Fresh w) (hc : ∀ c ∈ cs.head?, c ≠ '=') :
    Apart w cs :=
  fun a ha c hcs => apart_of_isOpener (h a ha) (hc c hcs)

/-- A text that begins with a closer continues nothing. -/
theorem apart_of_head {w cs : List Char} (hc : ∀ c ∈ cs.head?, isCloser c) : Apart w cs :=
  fun _ _ c hcs => apart_of_isCloser (hc c hcs)

/-- It is enough to look at its first character. -/
theorem apart_cons {w cs : List Char} {c : Char} (hc : isCloser c) : Apart w (c :: cs) := by
  refine apart_of_head fun d hd => ?_
  cases hd
  exact hc

/-- Only the end counts for what may begin behind a text. -/
theorem Fresh.append (cs : List Char) {ds : List Char} (h : Fresh ds) (hne : ds ≠ []) :
    Fresh (cs ++ ds) := by
  intro a ha
  refine h a ?_
  rwa [List.getLast?_append, List.getLast?_eq_some_getLast hne, Option.some_or,
    ← List.getLast?_eq_some_getLast hne] at ha

/-- No character of a word is in a symbol of two characters. -/
theorem pairSymbol?_of_isRest {a c : Char} (h : Name.isRest a ∨ Name.isRest c) :
    pairSymbol? a c = none := by
  have hne : ∀ x y, Name.isRest x = false → Name.isRest y = false → ¬ (a = x ∧ c = y) := by
    rintro x y hx hy ⟨rfl, rfl⟩
    simp [hx, hy] at h
  simp only [pairSymbol?, if_neg (hne ':' ':' rfl rfl), if_neg (hne '=' '=' rfl rfl),
    if_neg (hne '!' '=' rfl rfl), if_neg (hne '<' '=' rfl rfl), if_neg (hne '>' '=' rfl rfl),
    if_neg (hne '&' '&' rfl rfl), if_neg (hne '|' '|' rfl rfl)]

/-- A character of a word and one that is not part of it are apart. -/
theorem apart_of_isRest {a c : Char} (h : Name.isRest a ≠ Name.isRest c) : apart a c := by
  have hpair : pairSymbol? a c = none := by
    refine pairSymbol?_of_isRest ?_
    cases ha : Name.isRest a
    · exact .inr (by simpa [ha] using h.symm)
    · exact .inl rfl
  rw [apart, hpair]
  cases ha : Name.isRest a <;> cases hc : Name.isRest c <;> simp_all

/-- A text that ends with an opener is fresh. -/
theorem fresh_concat (cs : List Char) {a : Char} (h : isOpener a) : Fresh (cs ++ [a]) := by
  intro b hb
  rw [Option.mem_def, List.getLast?_concat] at hb
  cases hb
  exact h

/-- Lexemes with another one between any two groups of them. -/
def separated (separator : Lexeme) : List (List Lexeme) → List Lexeme
  | [] => []
  | ls :: lss => ls ++ lss.flatMap (separator :: ·)

end AccessPolicy.Grammar
