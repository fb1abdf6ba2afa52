import AccessPolicy.Grammar.Parser
import AccessPolicy.Proofs.Text.Slice

/-!
# Cutting a text by bytes

`tokens` cuts a text character by character. The same work can be done with an offset into the bytes
of the text, looking at single bytes and slicing the text between offsets; that can go wrong, as an
offset need not be a character boundary, and a slice there is refused.

* `Grammar.scan text` — the tokens of a text with one entry for its end, by bytes. It gives nothing
  where a byte is looked up behind the text or a slice is refused.
* **Agreement** (`Grammar.scan_eq`): it always gives something, which is what `tokens` gives with
  the entry for the end. One piece is `Grammar.scanAt?_eq`.
* **Tokens start at character boundaries** (`Grammar.placed_tokens`), each behind the one before,
  and a fault is at a character boundary.
-/

namespace AccessPolicy.Grammar

open Quoted (bytes)
open Text (byteCount_cons byteCount_append slice? slice?_eq)

/-- A token, or the end of the text. -/
structure Entry where
  /-- The byte offset of its first character. -/
  start : Nat
  /-- The token; nothing at the end. -/
  kind : Option Lexeme

/-- What a scan does at an offset. -/
inductive Turn
  /-- Go on behind a blank or a comment. -/
  | skip (next : Nat)
  /-- Go on behind a token. -/
  | token (lexeme : Lexeme) (next : Nat)
  | refuse (complaint : Complaint)

/-- The longest symbol that begins with a character, given the next one, and how many characters it
has. -/
def symbolAt? (c : Char) (next : Option Char) : Option (Symbol × Nat) :=
  match next.bind (pairSymbol? c) with
  | some s => some (s, 2)
  | none => (charSymbol? c).map (·, 1)

/-- One turn at an offset. Nothing is given where no byte stands or a slice is refused. -/
def scanAt? (text : String) (pos : Nat) : Option Turn :=
  match (bytes text.toList).drop pos with
  | [] => none
  | b :: bs =>
    let c := Char.ofUInt8 b
    let next := bs.head?.map Char.ofUInt8
    let stopOf (p : Char → Bool) := pos + 1 + (bs.takeWhile fun b => p (Char.ofUInt8 b)).length
    if isSpace c then some (.skip (pos + 1))
    else if c = '/' ∧ next = some '/' then some (.skip (stopOf (· ≠ '\n')))
    else if c = '"' then
      match Quoted.quoteAt? false bs with
      | none => some (.refuse .unterminated)
      | some n => (slice? text (pos + 1) (pos + 1 + n)).map fun body =>
          .token (.str body) (pos + 1 + n + 1)
    else if c.isDigit then
      (slice? text pos (stopOf Char.isDigit)).map fun digits =>
        if number digits.toList < 18446744073709551616 then
          .token (.int (number digits.toList)) (stopOf Char.isDigit)
        else .refuse (.tooLarge digits)
    else if Name.isStart c then
      (slice? text pos (stopOf Name.isRest)).map fun name =>
        .token (.ident name) (stopOf Name.isRest)
    else
      match symbolAt? c next with
      | some (s, length) => some (.token (.sym s) (pos + length))
      | none => (slice? text pos text.utf8ByteSize).map fun rest =>
          .refuse (.unexpectedChar (rest.toList.headD '?'))

/-- The scan from an offset on. The count bounds the turns; if it does not do, nothing is given. -/
def scanFrom (text : String) : (count pos : Nat) → Option (Except Fault (List Entry))
  | 0, _ => none
  | count + 1, pos =>
    if pos < text.utf8ByteSize then
      match scanAt? text pos with
      | none => none
      | some (.skip next) => scanFrom text count next
      | some (.token l next) => (scanFrom text count next).map (·.map (⟨pos, some l⟩ :: ·))
      | some (.refuse c) => some (.error ⟨pos, c⟩)
    else some (.ok [⟨text.utf8ByteSize, none⟩])

/-- The entries of a text, by bytes. -/
def scan (text : String) : Option (Except Fault (List Entry)) :=
  scanFrom text (text.utf8ByteSize + 1) 0

/-! ### Pieces

The scan by characters cuts a piece off the front. It is what the scan by bytes is held to, turn by
turn. -/

variable {text : String} {c : Char} {pre cs body rest : List Char} {p : Piece}

/-- The body of a text is what stands in front of the quote that closes it. -/
theorem stringBody_eq (h : stringBody cs = some (body, rest)) : cs = body ++ '"' :: rest := by
  fun_induction stringBody cs generalizing body rest with
  | case1 => cases h
  | case2 cs =>
      cases h
      rfl
  | case3 c cs ih =>
      obtain ⟨⟨b, r⟩, hr, heq⟩ := Option.map_eq_some_iff.mp h
      cases heq
      rw [ih hr]
      rfl
  | case4 => cases h
  | case5 c cs _ _ _ ih =>
      obtain ⟨⟨b, r⟩, hr, heq⟩ := Option.map_eq_some_iff.mp h
      cases heq
      rw [ih hr]
      rfl

/-- The longest symbol takes as many characters as it has. -/
theorem symbol?_eq (c : Char) (cs : List Char) : symbol? c cs =
    (symbolAt? c cs.head?).map fun s => (s.1, (c :: cs).take s.2, (c :: cs).drop s.2) := by
  cases cs with
  | nil =>
      rw [symbol?, symbolAt?, List.head?_nil, Option.bind_none]
      cases charSymbol? c <;> rfl
  | cons d cs =>
      rw [symbol?, symbolAt?, List.head?_cons, Option.bind_some]
      cases pairSymbol? c d with
      | some s => rfl
      | none => cases charSymbol? c <;> rfl

/-- A piece is taken off the front, and it is not empty. -/
theorem piece_append (h : piece c cs = .ok p) : p.taken ++ p.rest = c :: cs ∧ p.taken ≠ [] := by
  unfold piece at h
  -- The cases are the kinds of pieces in the order in which the scan tries them.
  split at h
  · cases h
    exact ⟨rfl, List.cons_ne_nil _ _⟩
  split at h
  · cases h
    exact ⟨congrArg (c :: ·) List.takeWhile_append_dropWhile, List.cons_ne_nil _ _⟩
  split at h
  · rename_i hquote
    split at h
    · cases h
    · rename_i body rest hbody
      cases h
      refine ⟨?_, List.cons_ne_nil _ _⟩
      rw [stringBody_eq hbody]
      simp [hquote]
  split at h
  · dsimp only at h
    split at h
    · cases h
      exact ⟨congrArg (c :: ·) List.takeWhile_append_dropWhile, List.cons_ne_nil _ _⟩
    · cases h
  split at h
  · cases h
    exact ⟨congrArg (c :: ·) List.takeWhile_append_dropWhile, List.cons_ne_nil _ _⟩
  · rw [symbol?_eq] at h
    cases hsym : symbolAt? c cs.head? with
    | none =>
        rw [hsym] at h
        cases h
    | some s =>
        rw [hsym] at h
        cases h
        refine ⟨List.take_append_drop _ _, ?_⟩
        rw [symbolAt?] at hsym
        split at hsym
        · cases hsym
          exact List.cons_ne_nil _ _
        · obtain ⟨t, -, ht⟩ := Option.map_eq_some_iff.mp hsym
          cases ht
          exact List.cons_ne_nil _ _

/-! ### Characters that are not ASCII

Each test on single characters that the scan makes fails on a character that is not ASCII. The tests
are made on bytes, but no byte of such a character is below 128 either, so that it is enough to look
at characters from 128 on. -/

section beyond

variable {d : Char}

/-- A character that is not ASCII is none that is. -/
theorem ne_of_le (h : 128 ≤ c.toNat) (hd : d.toNat < 128) : c ≠ d := by
  rintro rfl
  omega

theorem isSpace_of_le (h : 128 ≤ c.toNat) : isSpace c = false := by
  have hne (d : Char) (hd : d.toNat < 128) : c ≠ d := ne_of_le h hd
  simp [isSpace, hne]

theorem isAlphanum_of_le (h : 128 ≤ c.toNat) : c.isAlphanum = false := by
  have beyond {d : Char} (hd : d.toNat < 128) : ¬ c.val ≤ d.val := fun hle =>
    absurd (h.trans (UInt32.le_iff_toNat_le.mp hle)) (Nat.not_le.mpr hd)
  have hupper : c.isUpper = false := decide_eq_false fun hle => beyond (by decide) hle.2
  have hlower : c.isLower = false :=
    Bool.and_eq_false_iff.mpr (.inr (decide_eq_false (beyond (by decide))))
  have hdigit : c.isDigit = false :=
    Bool.and_eq_false_iff.mpr (.inr (decide_eq_false (beyond (by decide))))
  exact Bool.or_eq_false_iff.mpr ⟨Bool.or_eq_false_iff.mpr ⟨hupper, hlower⟩, hdigit⟩

theorem isDigit_of_le (h : 128 ≤ c.toNat) : c.isDigit = false :=
  (Bool.or_eq_false_iff.mp (isAlphanum_of_le h)).2

theorem isRest_of_le (h : 128 ≤ c.toNat) : Name.isRest c = false := by
  have hne : c ≠ '_' := ne_of_le h (by decide)
  simp [Name.isRest, isAlphanum_of_le h, hne]

theorem isStart_of_le (h : 128 ≤ c.toNat) : Name.isStart c = false := by
  have hne : c ≠ '_' := ne_of_le h (by decide)
  have halpha := (Bool.or_eq_false_iff.mp (isAlphanum_of_le h)).1
  simp [Name.isStart, halpha, hne]

theorem charSymbol?_of_le (h : 128 ≤ c.toNat) : charSymbol? c = none := by
  have hne (d : Char) (hd : d.toNat < 128) : c ≠ d := ne_of_le h hd
  simp [charSymbol?, hne]

/-- A symbol of two characters has no part that is not ASCII. -/
theorem pairSymbol?_of_le (h : 128 ≤ c.toNat ∨ 128 ≤ d.toNat) : pairSymbol? c d = none := by
  have hne (x y : Char) (hx : x.toNat < 128) (hy : y.toNat < 128) : ¬ (c = x ∧ d = y) := by
    rintro ⟨rfl, rfl⟩
    omega
  simp [pairSymbol?, hne]

end beyond

/-! ### One turn -/

/-- What a test says of the next byte it says of the next character, if it cannot tell characters
that are not ASCII from the end. -/
theorem head?_bytes {β : Type} {f : Option Char → β}
    (h : ∀ d : Char, 128 ≤ d.toNat → f (some d) = f none)
    (cs : List Char) : f ((bytes cs).head?.map Char.ofUInt8) = f cs.head? := by
  cases cs with
  | nil => rfl
  | cons d ds =>
      rw [Quoted.bytes_cons, List.head?_cons]
      rcases Text.utf8EncodeChar_cases d with ⟨-, b, hb, hd⟩ | ⟨hle, b, bs, hb, hbs⟩
      · rw [hb, List.singleton_append, List.head?_cons, Option.map_some, hd]
      · rw [hb, List.cons_append, List.head?_cons, Option.map_some, h _ (hbs b List.mem_cons_self),
          h d hle]

/-- **A symbol is found by bytes** where it is found by characters: a byte behind it that is no
character makes no symbol of two characters. -/
theorem symbolAt?_bytes (c : Char) (cs : List Char) :
    symbolAt? c ((bytes cs).head?.map Char.ofUInt8) = symbolAt? c cs.head? := by
  refine head?_bytes (f := symbolAt? c) (fun d hd => ?_) cs
  rw [symbolAt?, Option.bind_some, pairSymbol?_of_le (.inr hd)]
  rfl

/-- The characters of a symbol are one byte each. -/
theorem byteCount_symbol {s : Symbol} {n : Nat} (cs : List Char)
    (h : symbolAt? c cs.head? = some (s, n)) :
    byteCount ((c :: cs).take n) = n := by
  have one {d : Char} (hd : ¬ 128 ≤ d.toNat) : d.utf8Size = 1 := by
    rw [← String.length_utf8EncodeChar, Quoted.utf8EncodeChar_of_lt (by omega)]
    rfl
  rw [symbolAt?] at h
  split at h
  · rename_i t ht
    cases h
    obtain ⟨d, hd, hpair⟩ := Option.bind_eq_some_iff.mp ht
    have hascii : ¬ (128 ≤ c.toNat ∨ 128 ≤ d.toNat) := fun hle =>
      nomatch (pairSymbol?_of_le hle).symm.trans hpair
    obtain ⟨ds, rfl⟩ : ∃ ds, cs = d :: ds := List.head?_eq_some_iff.mp hd
    change byteCount [c, d] = 2
    rw [byteCount_cons, byteCount_cons, one fun hc => hascii (.inl hc), one fun hd => hascii (.inr hd)]
    rfl
  · obtain ⟨t, ht, heq⟩ := Option.map_eq_some_iff.mp h
    cases heq
    have hascii : ¬ 128 ≤ c.toNat := fun hle => nomatch (charSymbol?_of_le hle).symm.trans ht
    change byteCount [c] = 1
    rw [byteCount_cons, one hascii]
    rfl

/-- The turn that a piece at an offset makes. -/
def Turn.ofPiece (pos : Nat) : Except Complaint Piece → Turn
  | .error e => .refuse e
  | .ok p =>
    match p.lexeme? with
    | none => .skip (pos + byteCount p.taken)
    | some l => .token l (pos + byteCount p.taken)

/-- The text from a character on. -/
theorem slice?_rest (htext : text.toList = pre ++ c :: cs) :
    slice? text (byteCount pre) text.utf8ByteSize = some (String.ofList (c :: cs)) := by
  rw [← Text.byteCount_toList, htext, byteCount_append]
  refine slice?_eq [] ?_
  rw [htext, List.append_nil]

/-- A run of characters is sliced whole. -/
theorem slice?_run (htext : text.toList = pre ++ c :: cs) (p : Char → Bool) :
    slice? text (byteCount pre) (byteCount pre + byteCount (c :: cs.takeWhile p)) =
      some (String.ofList (c :: cs.takeWhile p)) := by
  refine slice?_eq (cs.dropWhile p) ?_
  rw [htext, List.cons_append, List.takeWhile_append_dropWhile]

/-- Where a run of characters behind a single byte ends. -/
theorem stop_run (hsize : c.utf8Size = 1) {p : Char → Bool} {beyond : Bool}
    (hp : ∀ d : Char, 128 ≤ d.toNat → p d = beyond) (n : Nat) (cs : List Char) :
    n + 1 + ((bytes cs).takeWhile fun b => p (Char.ofUInt8 b)).length =
      n + byteCount (c :: cs.takeWhile p) := by
  rw [Text.takeWhile_bytes hp, Text.length_bytes, byteCount_cons, hsize, Nat.add_assoc]

/-- Where a string ends. -/
theorem stop_body (hsize : c.utf8Size = 1) (n : Nat) (body : List Char) :
    n + 1 + byteCount body + 1 = n + byteCount (c :: body ++ ['"']) := by
  have hquote : byteCount ['"'] = 1 := rfl
  rw [List.cons_append, byteCount_cons, byteCount_append, hsize, hquote]
  omega

/-- The body of a text is sliced between its quotes. -/
theorem slice?_body (hsize : c.utf8Size = 1) (htext : text.toList = pre ++ c :: cs)
    (hbody : stringBody cs = some (body, rest)) :
    slice? text (byteCount pre + 1) (byteCount pre + 1 + byteCount body) =
      some (String.ofList body) := by
  have hpre : byteCount pre + 1 = byteCount (pre ++ [c]) := by
    rw [byteCount_append, byteCount_cons, hsize]
    rfl
  rw [hpre]
  refine slice?_eq ('"' :: rest) ?_
  rw [htext, stringBody_eq hbody, List.append_assoc, List.singleton_append]

/-- A second slash is found by bytes where it is found by characters. -/
theorem head?_slash (cs : List Char) :
    ((bytes cs).head?.map Char.ofUInt8 = some '/') = (cs.head? = some '/') := by
  refine head?_bytes (f := fun next => next = some '/') (fun d hd => ?_) cs
  have hne : d ≠ '/' := ne_of_le hd (by decide)
  simp [hne]

/-- The turn at a character that is one byte. The cases are those of `scanAt?`. -/
theorem scanAt?_of_byte {b : UInt8} (hb : String.utf8EncodeChar c = [b]) (hc : Char.ofUInt8 b = c)
    (htext : text.toList = pre ++ c :: cs) :
    scanAt? text (byteCount pre) = some (Turn.ofPiece (byteCount pre) (piece c cs)) := by
  have hsize : c.utf8Size = 1 := by
    rw [← String.length_utf8EncodeChar, hb]
    rfl
  have hcomment : byteCount pre + 1 +
      ((bytes cs).takeWhile fun b => decide (Char.ofUInt8 b ≠ '\n')).length =
        byteCount pre + byteCount (c :: cs.takeWhile (· ≠ '\n')) :=
    stop_run hsize (fun d hd => decide_eq_true (ne_of_le hd (by decide))) _ _
  have hdigits := stop_run hsize (fun d hd => isDigit_of_le hd) (byteCount pre) cs
  have hname := stop_run hsize (fun d hd => isRest_of_le hd) (byteCount pre) cs
  rw [scanAt?, htext, Text.drop_bytes, Quoted.bytes_cons, hb, List.singleton_append]
  simp only [hc, head?_slash, symbolAt?_bytes, hcomment, hdigits, hname, slice?_run htext,
    Option.map_some, String.toList_ofList]
  unfold piece
  -- From here on both scans ask the same questions in the same order.
  by_cases hspace : isSpace c
  · rw [if_pos hspace, if_pos hspace, Turn.ofPiece, byteCount_cons, hsize]
    rfl
  rw [if_neg hspace, if_neg hspace]
  by_cases hslashes : c = '/' ∧ cs.head? = some '/'
  · rw [if_pos hslashes, if_pos hslashes]
    rfl
  rw [if_neg hslashes, if_neg hslashes]
  by_cases hquote : c = '"'
  · rw [if_pos hquote, if_pos hquote, Quoted.quoteAt?_bytes]
    cases hbody : stringBody cs with
    | none => rfl
    | some r =>
        simp only [Option.map_some, Text.length_bytes, slice?_body hsize htext hbody,
          stop_body hsize]
        rfl
  rw [if_neg hquote, if_neg hquote]
  by_cases hdigit : c.isDigit
  · rw [if_pos hdigit, if_pos hdigit]
    dsimp only
    split <;> rfl
  rw [if_neg hdigit, if_neg hdigit]
  by_cases hstart : Name.isStart c
  · rw [if_pos hstart, if_pos hstart]
    rfl
  rw [if_neg hstart, if_neg hstart, symbol?_eq]
  cases hsym : symbolAt? c cs.head? with
  | some s => simp only [Option.map_some, Turn.ofPiece, byteCount_symbol cs hsym]
  | none =>
      simp only [slice?_rest htext, Option.map_some, String.toList_ofList]
      rfl

/-- No symbol begins with such a character. -/
theorem symbolAt?_of_le (h : 128 ≤ c.toNat) (next : Option Char) : symbolAt? c next = none := by
  have hpair : next.bind (pairSymbol? c) = none := by
    cases next with
    | none => rfl
    | some d => exact pairSymbol?_of_le (.inl h)
  rw [symbolAt?, hpair, charSymbol?_of_le h]
  rfl

/-- No piece begins with a character that is not ASCII. -/
theorem piece_of_le (h : 128 ≤ c.toNat) (cs : List Char) :
    piece c cs = .error (.unexpectedChar c) := by
  have hslash : c ≠ '/' := ne_of_le h (by decide)
  have hquote : c ≠ '"' := ne_of_le h (by decide)
  simp [piece, isSpace_of_le h, hslash, hquote, isDigit_of_le h, isStart_of_le h, symbol?_eq,
    symbolAt?_of_le h]

/-- The turn at a character whose bytes are from 128 on. -/
theorem scanAt?_of_le (h : 128 ≤ c.toNat) {b : UInt8} {bs : List UInt8}
    (hb : String.utf8EncodeChar c = b :: bs) (hfirst : 128 ≤ (Char.ofUInt8 b).toNat)
    (htext : text.toList = pre ++ c :: cs) :
    scanAt? text (byteCount pre) = some (Turn.ofPiece (byteCount pre) (piece c cs)) := by
  have hslash : Char.ofUInt8 b ≠ '/' := ne_of_le hfirst (by decide)
  have hquote : Char.ofUInt8 b ≠ '"' := ne_of_le hfirst (by decide)
  rw [scanAt?, htext, Text.drop_bytes, Quoted.bytes_cons, hb, List.cons_append, piece_of_le h]
  simp only [isSpace_of_le hfirst, hslash, hquote, isDigit_of_le hfirst, isStart_of_le hfirst,
    symbolAt?_of_le hfirst, slice?_rest htext, false_and, if_false, Bool.false_eq_true,
    Option.map_some, String.toList_ofList]
  rfl

/-- **A turn by bytes is a piece by characters.** -/
theorem scanAt?_eq (htext : text.toList = pre ++ c :: cs) :
    scanAt? text (byteCount pre) = some (Turn.ofPiece (byteCount pre) (piece c cs)) := by
  rcases Text.utf8EncodeChar_cases c with ⟨-, b, hb, hc⟩ | ⟨hle, b, bs, hb, hbs⟩
  · exact scanAt?_of_byte hb hc htext
  · exact scanAt?_of_le hle hb (hbs b List.mem_cons_self) htext

/-! ### Whole texts -/

/-- The tokens of a piece and of what stands behind it. -/
theorem tokensFrom_cons (h : piece c cs = .ok p) (count offset : Nat) :
    tokensFrom (count + 1) offset (c :: cs) =
      (tokensFrom count (offset + byteCount p.taken) p.rest).map
        ((p.lexeme?.map (⟨offset, ·⟩)).toList ++ ·) := by
  rw [tokensFrom]
  simp only [h]
  cases tokensFrom count (offset + byteCount p.taken) p.rest with
  | error f => rfl
  | ok ts => cases p.lexeme? <;> rfl

/-- The entries of tokens, and the one for the end of the text. -/
def entriesOf (stop : Nat) (ts : List Token) : List Entry :=
  ts.map (fun t => ⟨t.start, some t.lexeme⟩) ++ [⟨stop, none⟩]

/-- **The scan from a boundary on** gives what the characters behind it give, by induction on the
count: one turn is one piece, which ends at a boundary again. -/
theorem scanFrom_eq {count : Nat} : ∀ {bound : Nat} {pre cs : List Char}, text.toList = pre ++ cs →
    cs.length < count → cs.length ≤ bound →
    scanFrom text count (byteCount pre) =
      some ((tokensFrom bound (byteCount pre) cs).map (entriesOf text.utf8ByteSize)) := by
  induction count with
  | zero => exact fun _ hcount => absurd hcount (Nat.not_lt_zero _)
  | succ count ih =>
      intro bound pre cs htext hcount hbound
      have hsize : text.utf8ByteSize = byteCount pre + byteCount cs := by
        rw [← Text.byteCount_toList, htext, byteCount_append]
      cases cs with
      | nil =>
          have hend : ¬ byteCount pre < text.utf8ByteSize := by
            rw [hsize]
            exact Nat.lt_irrefl _
          rw [scanFrom, if_neg hend]
          cases bound <;> rfl
      | cons c cs =>
          obtain ⟨bound, rfl⟩ := Nat.exists_eq_add_one_of_ne_zero (Nat.ne_zero_of_lt hbound)
          have hlt : byteCount pre < text.utf8ByteSize := by
            have := Text.byteCount_pos c cs
            omega
          rw [scanFrom, if_pos hlt, scanAt?_eq htext]
          cases hpiece : piece c cs with
          | error e =>
              rw [tokensFrom]
              simp only [hpiece]
              rfl
          | ok p =>
              obtain ⟨happend, htaken⟩ := piece_append hpiece
              have hlength := congrArg List.length happend
              have hpos := List.length_pos_iff.mpr htaken
              rw [List.length_append] at hlength
              have hrest : text.toList = (pre ++ p.taken) ++ p.rest := by
                rw [List.append_assoc, happend, htext]
              have hgo := @ih bound _ _ hrest (by omega) (by rw [List.length_cons] at *; omega)
              rw [byteCount_append] at hgo
              rw [tokensFrom_cons hpiece]
              -- A piece without a lexeme is passed over, with one it adds an entry.
              cases hl : p.lexeme? with
              | none =>
                  simp only [Turn.ofPiece, hl, hgo]
                  cases tokensFrom bound (byteCount pre + byteCount p.taken) p.rest <;> rfl
              | some l =>
                  simp only [Turn.ofPiece, hl, hgo]
                  cases tokensFrom bound (byteCount pre + byteCount p.taken) p.rest <;> rfl

/-- A character has a byte at least, so that the bytes are turns enough. -/
theorem length_le_byteCount (cs : List Char) : cs.length ≤ byteCount cs := by
  induction cs with
  | nil => exact Nat.le_refl 0
  | cons c cs ih =>
      have := c.utf8Size_pos
      rw [byteCount_cons, List.length_cons]
      omega

/-- **The scan by bytes always gives something**, which is what the one by characters gives. -/
theorem scan_eq (text : String) :
    scan text = some ((tokens text).map (entriesOf text.utf8ByteSize)) := by
  have hlength := length_le_byteCount text.toList
  rw [Text.byteCount_toList] at hlength
  have htext : text.toList = [] ++ text.toList := rfl
  exact scanFrom_eq htext (Nat.lt_succ_of_le hlength) (Nat.le_refl _)

-- The two bytes skipped at the backslash end inside of a character.
example : scan "\"\\é\"" = some (.ok [⟨0, some (.str "\\é")⟩, ⟨5, none⟩]) := by rfl

/-! ### Where tokens start

Each piece starts where the one before it has ended, and no piece is empty. So the places ascend,
they are boundaries between characters, and the end of the text comes last. -/

/-- A character boundary in front of a character. -/
def Within (text : String) (pos : Nat) : Prop :=
  String.Pos.Raw.IsValid text ⟨pos⟩ ∧ pos < text.utf8ByteSize

/-- In front of a character is a boundary that is not the end. -/
theorem within_byteCount (htext : text.toList = pre ++ c :: cs) : Within text (byteCount pre) := by
  refine ⟨Text.isValid_iff.mpr ⟨pre, c :: cs, htext, rfl⟩, ?_⟩
  have := Text.byteCount_pos c cs
  rw [← Text.byteCount_toList, htext, byteCount_append]
  omega

/-- Tokens start at boundaries, one behind the other, and a fault is at a boundary. -/
structure Placed (text : String) (first : Nat) (r : Except Fault (List Token)) : Prop where
  fault : ∀ f, r = .error f → Within text f.offset
  sorted : ∀ ts, r = .ok ts → ts.Pairwise (·.start < ·.start)
  start : ∀ ts, r = .ok ts → ∀ t ∈ ts, first ≤ t.start ∧ Within text t.start

/-- The end of a text has no tokens and no faults. -/
theorem Placed.nil {first : Nat} : Placed text first (.ok []) where
  fault := nofun
  sorted := by
    rintro _ ⟨⟩
    exact .nil
  start := by
    rintro _ ⟨⟩
    exact nofun

/-- A token in front of placed ones starts before all of them. -/
theorem Placed.append {first next : Nat} {r : Except Fault (List Token)} (h : Placed text next r)
    (hwithin : Within text first) (hlt : first < next) (l? : Option Lexeme) :
    Placed text first (r.map ((l?.map (⟨first, ·⟩)).toList ++ ·)) := by
  cases r with
  | error f => exact ⟨fun _ he => h.fault _ (by cases he; rfl), nofun, nofun⟩
  | ok ts =>
      have hall (t : Token) (ht : t ∈ ts) : first < t.start ∧ Within text t.start :=
        ⟨hlt.trans_le (h.start ts rfl t ht).1, (h.start ts rfl t ht).2⟩
      have hle (t : Token) (ht : t ∈ ts) : first ≤ t.start ∧ Within text t.start :=
        ⟨(hall t ht).1.le, (hall t ht).2⟩
      refine ⟨nofun, ?_, ?_⟩
      · rintro _ ⟨⟩
        cases l? with
        | none => exact h.sorted ts rfl
        | some l => exact List.pairwise_cons.mpr ⟨fun t ht => (hall t ht).1, h.sorted ts rfl⟩
      · rintro _ ⟨⟩
        cases l? with
        | none => exact hle
        | some l => exact List.forall_mem_cons.mpr ⟨⟨Nat.le_refl _, hwithin⟩, hle⟩

/-- Tokens are placed from any boundary on, by induction on the count. -/
theorem placed_tokensFrom {count : Nat} : ∀ {pre cs : List Char}, text.toList = pre ++ cs →
    Placed text (byteCount pre) (tokensFrom count (byteCount pre) cs) := by
  induction count with
  | zero => exact fun _ => .nil
  | succ count ih =>
      intro pre cs htext
      cases cs with
      | nil => exact .nil
      | cons c cs =>
          cases hpiece : piece c cs with
          | error e =>
              rw [tokensFrom]
              simp only [hpiece]
              refine ⟨?_, nofun, nofun⟩
              rintro _ ⟨⟩
              exact within_byteCount htext
          | ok p =>
              obtain ⟨happend, htaken⟩ := piece_append hpiece
              have hrest : text.toList = (pre ++ p.taken) ++ p.rest := by
                rw [List.append_assoc, happend, htext]
              have hlt : byteCount pre < byteCount pre + byteCount p.taken := by
                obtain ⟨d, ds, hd⟩ := List.exists_cons_of_ne_nil htaken
                rw [hd]
                exact Nat.lt_add_of_pos_right (Text.byteCount_pos d ds)
              have hgo := ih hrest
              rw [byteCount_append] at hgo
              rw [tokensFrom_cons hpiece]
              exact hgo.append (within_byteCount htext) hlt _

/-- **Where the tokens of a text start.** -/
theorem placed_tokens (text : String) : Placed text 0 (tokens text) := by
  have htext : text.toList = [] ++ text.toList := rfl
  exact placed_tokensFrom htext

end AccessPolicy.Grammar
