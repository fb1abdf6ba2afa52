import AccessPolicy.Json.Writer
import AccessPolicy.Proofs.Json.Merge
import Mathlib.Data.List.Basic

/-!
# Reading what was written

* `Json.Plain v` — the numbers of `v` are integers that fit 64 bits, signed or not.
* **Reading a written value** (`Json.value?_chars`) gives it back if the levels of the value are
  within the levels that the reader has room for, and fails if they are not.
* `Json.read?_text` — so a whole text can be read back if it has at most `maxLevels` levels.
-/

namespace AccessPolicy.Json

/-! ### Plain values -/

mutual

/-- Every number is an integer that fits 64 bits, signed or not. -/
def Plain : Json → Prop
  | null | bool _ | str _ => True
  | int n => -9223372036854775808 ≤ n ∧ n ≤ 18446744073709551615
  | float _ => False
  | arr items => PlainItems items
  | obj members => PlainMembers members

/-- Every item is plain. -/
def PlainItems : List Json → Prop
  | [] => True
  | v :: vs => Plain v ∧ PlainItems vs

/-- The value of every member is plain. -/
def PlainMembers : List (String × Json) → Prop
  | [] => True
  | (_, v) :: ms => Plain v ∧ PlainMembers ms

end

/-! ### Blanks

The reader passes over blanks in front of everything. The writer puts none, and no value begins with
one. -/

/-- Only blanks are passed over. -/
theorem trim_cons {c : Char} {cs : List Char} (h : isSpace c = false) : trim (c :: cs) = c :: cs :=
  List.dropWhile_cons_of_neg (by simp [h])

/-- A digit is no blank. -/
theorem isSpace_of_isDigit {c : Char} (h : c.isDigit) : isSpace c = false := by
  refine Bool.eq_false_iff.mpr fun hs => ?_
  simp only [isSpace, Bool.or_eq_true, beq_iff_eq] at hs
  rcases hs with ((rfl | rfl) | rfl) | rfl <;> exact absurd h (by decide)

/-! ### Strings -/

/-- A quote ends a text. -/
theorem body?_quote (cs : List Char) : body? ('"' :: cs) = some ([], cs) := by
  rw [body?.eq_def]
  rfl

/-- An escape of one letter stands for its character. -/
theorem body?_short {e d : Char} (cs : List Char) (he : e ≠ 'u') (h : shortEscape? e = some d) :
    body? ('\\' :: e :: cs) = (body? cs).map (push d) := by
  rw [body?.eq_def]
  simp only [if_neg he, h]
  rfl

/-- An escape of four digits stands for its character, if it is no half of a pair. -/
theorem body?_unit {d₁ d₂ d₃ d₄ : Char} {n : Nat} (cs : List Char) (h : unit? d₁ d₂ d₃ d₄ = some n)
    (hn : n < 0xD800) :
    body? ('\\' :: 'u' :: d₁ :: d₂ :: d₃ :: d₄ :: cs) = (body? cs).map (push (Char.ofNat n)) := by
  have hlow : ¬ (0xDC00 ≤ n ∧ n < 0xE000) := by omega
  have hhigh : ¬ (0xD800 ≤ n ∧ n < 0xDC00) := by omega
  rw [body?.eq_def]
  simp only [h, if_neg hlow, if_neg hhigh]
  rfl

/-- Any other character stands for itself. -/
theorem body?_plain {c : Char} (cs : List Char) (hquote : c ≠ '"') (hslash : c ≠ '\\')
    (h : ¬ c.toNat < 0x20) : body? (c :: cs) = (body? cs).map (push c) := by
  rw [body?.eq_def]
  simp only [if_neg hquote, if_neg hslash, if_neg h]

/-- A control character is read back from its four digits. -/
theorem unit?_control : ∀ n < 0x20,
    unit? '0' '0' (Nat.digitChar (n / 16)) (Nat.digitChar (n % 16)) = some n := by
  decide

/-- **One character** is read back. -/
theorem body?_escapeChar (c : Char) (cs : List Char) :
    body? (escapeChar c ++ cs) = (body? cs).map (push c) := by
  unfold escapeChar
  iterate 7
    split
    · subst c
      exact body?_short cs (by decide) rfl
  split
  · rename_i hcontrol
    have hchar : Char.ofNat c.toNat = c := Char.ofNat_toNat c
    have hread := body?_unit cs (unit?_control c.toNat hcontrol) (by omega)
    rwa [hchar] at hread
  · rename_i hquote hslash _ _ _ _ _ hcontrol
    exact body?_plain cs hquote hslash hcontrol

/-- **The body of a string** is read back up to its closing quote. -/
theorem body?_flatMap (s rest : List Char) :
    body? (s.flatMap escapeChar ++ '"' :: rest) = some (s, rest) := by
  induction s with
  | nil => exact body?_quote rest
  | cons c s ih =>
      rw [List.flatMap_cons, List.append_assoc, body?_escapeChar, ih]
      rfl

/-- **A written text is read back**, whatever its characters and whatever follows. -/
theorem text?_stringChars (s : String) (rest : List Char) :
    text? ((s.toList.flatMap escapeChar ++ ['"']) ++ rest) = some (s, rest) := by
  rw [List.append_assoc, List.singleton_append, text?, body?_flatMap, Option.map_some,
    String.ofList_toList]

/-! ### Numbers

A number ends where a character comes that does not belong to it, so each of these statements is
about a number with something behind it that does not. -/

/-- What stands behind a number ends it. -/
def EndsNumber (cs : List Char) : Prop :=
  ∀ c ∈ cs.head?, c.isDigit = false ∧ c ≠ '.' ∧ c ≠ 'e' ∧ c ≠ 'E'

/-- Further digits make no number smaller, so that no beginning of a number is above the bound if
the number is not. -/
theorem le_ofDigitChars (n : Nat) (ds : List Char) : n ≤ Nat.ofDigitChars 10 ds n := by
  induction ds generalizing n with
  | nil => exact Nat.le_refl n
  | cons d ds ih =>
      rw [Nat.ofDigitChars_cons]
      exact Nat.le_trans (by omega) (ih _)

/-- Digits are taken up as long as the number stays in range. -/
theorem accumulate_of_le {n : Nat} {ds : List Char}
    (h : Nat.ofDigitChars 10 ds n ≤ maxSignificand) :
    accumulate n ds = (Nat.ofDigitChars 10 ds n, []) := by
  induction ds generalizing n with
  | nil => rfl
  | cons d ds ih =>
      have hle : 10 * n + digitValue d ≤ maxSignificand :=
        Nat.le_trans (le_ofDigitChars _ ds) h
      rw [accumulate]
      exact (if_pos hle).trans (ih h)

/-- The digits of a number are read up to what ends it. -/
theorem digitRun_append {ds rest : List Char} (hds : ∀ d ∈ ds, d.isDigit)
    (hrest : EndsNumber rest) : digitRun (ds ++ rest) = (ds, rest) := by
  have hhead : ∀ c ∈ rest.head?, c.isDigit = false := fun c hc => (hrest c hc).1
  rw [digitRun, List.takeWhile_append_of_pos hds, List.dropWhile_append_of_pos hds]
  cases rest with
  | nil => simp
  | cons c cs => simp [hhead c rfl]

/-- Only zero has the digit zero. -/
theorem digitChar_ne_zero : ∀ n < 10, 0 < n → Nat.digitChar n ≠ '0' := by
  decide

/-- A number is written without a zero in front. -/
theorem head?_toDigits_ne (n : Nat) (hn : 0 < n) : (Nat.toDigits 10 n).head? ≠ some '0' := by
  induction n using Nat.strongRecOn with
  | ind n ih =>
      by_cases hlt : n < 10
      · rw [Nat.toDigits_of_lt_base hlt, List.head?_cons]
        exact fun h => digitChar_ne_zero n hlt hn (Option.some.inj h)
      · have hdiv : 0 < n / 10 := by omega
        rw [Nat.toDigits_of_base_le (by decide) (by omega),
          List.head?_append_of_ne_nil _ Nat.toDigits_ne_nil]
        exact ih (n / 10) (by omega) hdiv

/-- A written number begins with zero only if it is zero. -/
theorem not_leadingZero {n : Nat} {d : Char} {ds : List Char} (h : Nat.toDigits 10 n = d :: ds) :
    ¬ (d = '0' ∧ ds ≠ []) := by
  rintro ⟨rfl, hds⟩
  rcases Nat.eq_zero_or_pos n with rfl | hn
  · exact hds (List.cons.inj h).2.symm
  · exact head?_toDigits_ne n hn (by rw [h]; rfl)

/-- Without a fraction and an exponent, a number is an integer. -/
theorem afterInteger_of_endsNumber {n : Nat} {rest : List Char} (negative : Bool)
    (h : EndsNumber rest) :
    afterInteger negative n 0 rest = some (integerValue negative n, rest) := by
  unfold afterInteger
  split
  · exact absurd rfl (h '.' rfl).2.1
  · exact absurd rfl (h 'e' rfl).2.2.1
  · exact absurd rfl (h 'E' rfl).2.2.2
  · exact if_pos rfl

/-- **The digits of a number** are read back. -/
theorem number?_toDigits {n : Nat} {rest : List Char} (negative : Bool) (hn : n ≤ maxSignificand)
    (hrest : EndsNumber rest) :
    number? negative (Nat.toDigits 10 n ++ rest) = some (integerValue negative n, rest) := by
  have hdigits : ∀ d ∈ Nat.toDigits 10 n, d.isDigit := fun d hd =>
    Nat.isDigit_of_mem_toDigits (by decide) (by decide) hd
  have hvalue : Nat.ofDigitChars 10 (Nat.toDigits 10 n) 0 = n := Nat.ofDigitChars_ten_toDigits
  have hacc : accumulate 0 (Nat.toDigits 10 n) = (n, []) := by
    rw [accumulate_of_le (hvalue.symm ▸ hn), hvalue]
  rw [number?, digitRun_append hdigits hrest]
  cases hds : Nat.toDigits 10 n with
  | nil => exact absurd hds Nat.toDigits_ne_nil
  | cons d ds =>
      rw [hds] at hacc
      simp only [if_neg (not_leadingZero hds), hacc]
      exact afterInteger_of_endsNumber negative hrest

/-- The characters of a number. -/
theorem chars_int (n : Int) : chars (.int n) =
    if n < 0 then '-' :: Nat.toDigits 10 n.natAbs else Nat.toDigits 10 n.natAbs := by
  rw [chars]
  cases n with
  | ofNat m => simp [toString, Int.repr]
  | negSucc m => simp [toString, Int.repr, Int.negSucc_lt_zero]

/-! ### Scalars -/

/-- What begins with a digit is a number. -/
theorem scalar?_of_isDigit {c : Char} (cs : List Char) (h : c.isDigit) :
    scalar? (c :: cs) = number? false (c :: cs) := by
  have hne : ∀ d : Char, d.isDigit = false → ∀ ds, c :: cs ≠ d :: ds := by
    rintro d hd ds heq
    obtain ⟨rfl, -⟩ := List.cons.inj heq
    exact Bool.false_ne_true (hd.symm.trans h)
  rw [scalar?]
  · exact hne 'n' (by decide)
  · exact hne 't' (by decide)
  · exact hne 'f' (by decide)
  · exact hne '"' (by decide)
  · exact hne '-' (by decide)

/-- A written integer is read back. -/
theorem scalar?_int {n : Int} {rest : List Char} (hn : (int n).Plain) (hrest : EndsNumber rest) :
    scalar? (chars (.int n) ++ rest) = some (.int n, rest) := by
  obtain ⟨hlow, hhigh⟩ := hn
  have hle : n.natAbs ≤ maxSignificand := by
    rw [maxSignificand]
    omega
  rw [chars_int]
  by_cases hneg : n < 0
  · have hvalue : integerValue true n.natAbs = .int n := by
      rw [integerValue, if_pos rfl, if_pos (by omega)]
      exact congrArg int (by omega)
    rw [if_pos hneg, List.cons_append, ← hvalue]
    exact number?_toDigits true hle hrest
  · have hvalue : integerValue false n.natAbs = .int n := congrArg int (by omega)
    rw [if_neg hneg, ← hvalue, ← number?_toDigits false hle hrest]
    cases hds : Nat.toDigits 10 n.natAbs with
    | nil => exact absurd hds Nat.toDigits_ne_nil
    | cons d ds =>
        have hmem : d ∈ Nat.toDigits 10 n.natAbs := hds ▸ List.mem_cons_self
        exact scalar?_of_isDigit _ (Nat.isDigit_of_mem_toDigits (by decide) (by decide) hmem)

/-- A written text is read back as a value. -/
theorem scalar?_str (s : String) (rest : List Char) :
    scalar? (chars (.str s) ++ rest) = some (.str s, rest) := by
  rw [chars, stringChars, List.cons_append, List.cons_append, scalar?, text?_stringChars]
  rfl

/-- Where no bracket and no brace stands, a scalar is read. -/
theorem value?_of_ne {κ α : Type} {m : Reading κ α} {size room : Nat} {c : Char} {cs : List Char}
    (hbracket : c ≠ '[') (hbrace : c ≠ '\x7b') :
    value? m size room (c :: cs) = m.scalar (c :: cs) := by
  cases room with
  | zero => rfl
  | succ room =>
      rw [value?]
      · exact fun _ heq => hbracket (List.cons.inj heq).1
      · exact fun _ heq => hbrace (List.cons.inj heq).1

/-- A value is written without blanks and without a bracket that closes in front. -/
theorem chars_eq_cons {v : Json} (h : v.Plain) :
    ∃ c cs, chars v = c :: cs ∧ isSpace c = false ∧ c ≠ ']' := by
  cases v with
  | null | str s => exact ⟨_, _, rfl, by decide, by decide⟩
  | bool b => cases b <;> exact ⟨_, _, rfl, by decide, by decide⟩
  | float bits => exact h.elim
  | arr vs => cases vs <;> exact ⟨_, _, rfl, by decide, by decide⟩
  | obj ms => rcases ms with _ | ⟨⟨k, v⟩, ms⟩ <;> exact ⟨_, _, rfl, by decide, by decide⟩
  | int n =>
      rw [chars_int]
      split
      · exact ⟨_, _, rfl, by decide, by decide⟩
      · cases hds : Nat.toDigits 10 n.natAbs with
        | nil => exact absurd hds Nat.toDigits_ne_nil
        | cons d ds =>
            have hmem : d ∈ Nat.toDigits 10 n.natAbs := hds ▸ List.mem_cons_self
            have hdigit := Nat.isDigit_of_mem_toDigits (by decide) (by decide) hmem
            refine ⟨d, ds, rfl, ?_, ?_⟩
            · exact isSpace_of_isDigit hdigit
            · rintro rfl
              cases hdigit

/-- A written value begins with no blank. -/
theorem trim_chars {v : Json} (h : v.Plain) (rest : List Char) :
    trim (chars v ++ rest) = chars v ++ rest := by
  obtain ⟨c, cs, hchars, hspace, -⟩ := chars_eq_cons h
  rw [hchars]
  exact trim_cons hspace

/-! ### Arrays and objects

The readers of items and of members are given the reader of a value, and are dealt with for any such
reader that gives back each value of the list. -/

/-- Items, each but the first behind a comma, and the closing bracket. -/
def itemsChars : List Json → List Char
  | [] => []
  | v :: vs => chars v ++ restItems vs

/-- Members, each but the first behind a comma, and the closing brace. -/
def membersChars : List (String × Json) → List Char
  | [] => []
  | (k, v) :: ms => stringChars k ++ ':' :: chars v ++ restMembers ms

section

variable {item : Reader Json} {ok : Json → Prop} [DecidablePred ok] {count : Nat}

/-- A number ends in front of a comma and of a bracket. -/
theorem endsNumber_restItems (vs : List Json) (rest : List Char) :
    EndsNumber (restItems vs ++ rest) := by
  cases vs with
  | nil => rintro c ⟨⟩; decide
  | cons v vs => rintro c ⟨⟩; decide

/-- And so it does in front of a brace. -/
theorem endsNumber_restMembers (ms : List (String × Json)) (rest : List Char) :
    EndsNumber (restMembers ms ++ rest) := by
  rcases ms with _ | ⟨⟨k, v⟩, ms⟩
  · rintro c ⟨⟩; decide
  · rintro c ⟨⟩; decide

/-- **Items** are read back if each of them is. -/
theorem items?_itemsChars {vs : List Json} (rest : List Char) (hne : vs ≠ [])
    (hcount : vs.length ≤ count) (hplain : ∀ v ∈ vs, v.Plain)
    (hitem : ∀ v ∈ vs, ∀ rest, EndsNumber rest →
      item (chars v ++ rest) = if ok v then some (v, rest) else none) :
    items? item count (itemsChars vs ++ rest) =
      if ∀ v ∈ vs, ok v then some (vs, rest) else none := by
  induction vs generalizing count with
  | nil => exact absurd rfl hne
  | cons v vs ih =>
      obtain ⟨count, rfl⟩ : ∃ n, count = n + 1 := ⟨count - 1, by simp at hcount; omega⟩
      have hv := hitem v List.mem_cons_self _ (endsNumber_restItems vs rest)
      rw [items?, itemsChars, List.append_assoc, trim_chars (hplain v List.mem_cons_self), hv]
      by_cases hok : ok v
      · rw [if_pos hok]
        cases vs with
        | nil =>
            have hend : trim (restItems [] ++ rest) = ']' :: rest := trim_cons (by decide)
            have hall : ∀ w ∈ [v], ok w := fun w hw => List.mem_singleton.mp hw ▸ hok
            simp only [hend, if_pos hall]
        | cons w ws =>
            have hnext : trim (restItems (w :: ws) ++ rest) =
                ',' :: (itemsChars (w :: ws) ++ rest) := trim_cons (by decide)
            have hrest := ih (List.cons_ne_nil w ws) (Nat.le_of_succ_le_succ hcount)
              (fun u hu => hplain u (List.mem_cons_of_mem v hu))
              (fun u hu => hitem u (List.mem_cons_of_mem v hu))
            simp only [hnext, hrest, List.forall_mem_cons (a := v), hok, true_and]
            split <;> rfl
      · rw [if_neg hok, if_neg (fun h => hok (h v List.mem_cons_self))]

/-- **Members** are read back if the value of each of them is. -/
theorem members?_membersChars {ok : String × Json → Prop} [DecidablePred ok]
    {ms : List (String × Json)} (rest : List Char) (hne : ms ≠ [])
    (hcount : ms.length ≤ count) (hplain : ∀ m ∈ ms, m.2.Plain)
    (hitem : ∀ m ∈ ms, ∀ rest, EndsNumber rest →
      item (chars m.2 ++ rest) = if ok m then some (m.2, rest) else none) :
    members? text? (fun _ => item) count (membersChars ms ++ rest) =
      if ∀ m ∈ ms, ok m then some (ms, rest) else none := by
  induction ms generalizing count with
  | nil => exact absurd rfl hne
  | cons m ms ih =>
      obtain ⟨k, v⟩ := m
      obtain ⟨count, rfl⟩ : ∃ n, count = n + 1 := ⟨count - 1, by simp at hcount; omega⟩
      have hv := hitem (k, v) List.mem_cons_self _ (endsNumber_restMembers ms rest)
      have hquote : trim (membersChars ((k, v) :: ms) ++ rest) =
          '"' :: ((k.toList.flatMap escapeChar ++ ['"']) ++
            (':' :: (chars v ++ (restMembers ms ++ rest)))) := by
        rw [membersChars, stringChars]
        refine (trim_cons (by decide)).trans ?_
        simp
      have hcolon : trim (':' :: (chars v ++ (restMembers ms ++ rest))) =
          ':' :: (chars v ++ (restMembers ms ++ rest)) := trim_cons (by decide)
      rw [members?]
      simp only [hquote, text?_stringChars, hcolon, trim_chars (hplain (k, v) List.mem_cons_self),
        hv]
      -- The first member that is not ok ends the reading on both sides.
      by_cases hok : ok (k, v)
      · rw [if_pos hok]
        cases ms with
        | nil =>
            have hend : trim (restMembers [] ++ rest) = '\x7d' :: rest := trim_cons (by decide)
            have hall : ∀ m ∈ [(k, v)], ok m := fun m hm => List.mem_singleton.mp hm ▸ hok
            simp only [hend, if_pos hall]
        | cons m ms =>
            have hnext : trim (restMembers (m :: ms) ++ rest) =
                ',' :: (membersChars (m :: ms) ++ rest) := trim_cons (by decide)
            have hrest := ih (List.cons_ne_nil m ms) (Nat.le_of_succ_le_succ hcount)
              (fun n hn => hplain n (List.mem_cons_of_mem _ hn))
              (fun n hn => hitem n (List.mem_cons_of_mem _ hn))
            simp only [hnext, hrest, List.forall_mem_cons (a := (k, v)), hok, true_and]
            split <;> rfl
      · rw [if_neg hok, if_neg (fun h => hok (h (k, v) List.mem_cons_self))]

end

/-- An item takes a character at least, so that the count of the reader does for all of them. -/
theorem length_le_itemsChars (vs : List Json) : vs.length ≤ (itemsChars vs).length := by
  induction vs with
  | nil => exact Nat.le_refl 0
  | cons v vs ih =>
      have hrest : vs.length + 1 ≤ (restItems vs).length := by
        cases vs with
        | nil => exact Nat.le_refl 1
        | cons w ws => exact Nat.succ_le_succ ih
      rw [itemsChars, List.length_append, List.length_cons]
      exact Nat.le_trans hrest (Nat.le_add_left _ _)

/-- No item takes more characters than all of them. -/
theorem length_chars_le_itemsChars {v : Json} {vs : List Json} (h : v ∈ vs) :
    (chars v).length ≤ (itemsChars vs).length := by
  induction vs with
  | nil => cases h
  | cons w ws ih =>
      rw [itemsChars, List.length_append]
      rcases List.mem_cons.mp h with rfl | h
      · exact Nat.le_add_right _ _
      · have hrest : (itemsChars ws).length ≤ (restItems ws).length := by
          cases ws with
          | nil => cases h
          | cons u us => exact Nat.le_succ _
        exact Nat.le_trans (ih h) (Nat.le_trans hrest (Nat.le_add_left _ _))

/-- So the size that is given to an array does for each item. -/
theorem length_chars_le_arr {v : Json} {vs : List Json} (h : v ∈ vs) :
    (chars v).length ≤ (chars (arr vs)).length := by
  cases vs with
  | nil => cases h
  | cons w ws => exact Nat.le_succ_of_le (length_chars_le_itemsChars h)

/-- A member takes a character at least. -/
theorem length_le_membersChars (ms : List (String × Json)) :
    ms.length ≤ (membersChars ms).length := by
  induction ms with
  | nil => exact Nat.le_refl 0
  | cons m ms ih =>
      have hrest : ms.length + 1 ≤ (restMembers ms).length := by
        cases ms with
        | nil => exact Nat.le_refl 1
        | cons n ns => exact Nat.succ_le_succ ih
      rw [membersChars, List.length_append, List.length_cons]
      exact Nat.le_trans hrest (Nat.le_add_left _ _)

/-- No member takes more characters than all of them. -/
theorem length_chars_le_membersChars {m : String × Json} {ms : List (String × Json)} (h : m ∈ ms) :
    (chars m.2).length ≤ (membersChars ms).length := by
  induction ms with
  | nil => cases h
  | cons n ns ih =>
      rw [membersChars, List.length_append, List.length_append, List.length_cons]
      rcases List.mem_cons.mp h with rfl | h
      · omega
      · have hrest : (membersChars ns).length ≤ (restMembers ns).length := by
          cases ns with
          | nil => cases h
          | cons u us => exact Nat.le_succ _
        have hm := ih h
        omega

/-- So the size that is given to an object does for each member. -/
theorem length_chars_le_obj {m : String × Json} {ms : List (String × Json)} (h : m ∈ ms) :
    (chars m.2).length ≤ (chars (obj ms)).length := by
  rcases ms with _ | ⟨⟨k, v⟩, ms⟩
  · cases h
  · exact Nat.le_succ_of_le (length_chars_le_membersChars h)

/-- The levels of items are within a room if those of each item are. -/
theorem levelsItems_le_iff {vs : List Json} {room : Nat} :
    levelsItems vs ≤ room ↔ ∀ v ∈ vs, levels v ≤ room := by
  induction vs with
  | nil => simp [levelsItems]
  | cons v vs ih => rw [levelsItems, Nat.max_le, ih, List.forall_mem_cons]

/-- And so it is for members. -/
theorem levelsMembers_le_iff {ms : List (String × Json)} {room : Nat} :
    levelsMembers ms ≤ room ↔ ∀ m ∈ ms, levels m.2 ≤ room := by
  induction ms with
  | nil => simp [levelsMembers]
  | cons m ms ih => rw [levelsMembers, Nat.max_le, ih, List.forall_mem_cons]

/-! ### Values -/

/-- The value is read back where it is written, if its levels are within the room. -/
def ReadsBack (size : Nat) (v : Json) : Prop :=
  ∀ (room : Nat) (rest : List Char), EndsNumber rest →
    value? inFull size room (chars v ++ rest) = if levels v ≤ room then some (v, rest) else none

/-- A scalar is read back wherever it stands. -/
theorem readsBack_of_scalar {size : Nat} {v : Json} (hlevels : levels v = 0)
    (hhead : ∃ c cs, chars v = c :: cs ∧ c ≠ '[' ∧ c ≠ '\x7b')
    (hread : ∀ rest, EndsNumber rest → scalar? (chars v ++ rest) = some (v, rest)) :
    ReadsBack size v := by
  intro room rest hrest
  obtain ⟨c, cs, hchars, hbracket, hbrace⟩ := hhead
  have hscalar := hread rest hrest
  rw [hchars, List.cons_append] at hscalar ⊢
  rw [value?_of_ne hbracket hbrace, if_pos (by omega)]
  exact hscalar

/-- An integer is a value without levels. -/
theorem readsBack_int {size : Nat} {n : Int} (h : (int n).Plain) : ReadsBack size (int n) := by
  refine readsBack_of_scalar rfl ?_ fun rest hrest => scalar?_int h hrest
  rw [chars_int]
  split
  · exact ⟨_, _, rfl, by decide, by decide⟩
  · cases hds : Nat.toDigits 10 n.natAbs with
    | nil => exact absurd hds Nat.toDigits_ne_nil
    | cons d ds =>
        have hmem : d ∈ Nat.toDigits 10 n.natAbs := hds ▸ List.mem_cons_self
        have hdigit := Nat.isDigit_of_mem_toDigits (by decide) (by decide) hmem
        refine ⟨d, ds, rfl, ?_, ?_⟩
        · rintro rfl
          cases hdigit
        · rintro rfl
          cases hdigit

/-- An array with an item is read as items. -/
theorem array?_itemsChars {item : Reader Json} {size : Nat} {vs : List Json} (rest : List Char)
    (hne : vs ≠ []) (hplain : ∀ v ∈ vs, v.Plain) :
    array? item size (itemsChars vs ++ rest) = items? item size (itemsChars vs ++ rest) := by
  cases vs with
  | nil => exact absurd rfl hne
  | cons v vs =>
      obtain ⟨c, cs, hchars, hspace, hbracket⟩ := chars_eq_cons (hplain v List.mem_cons_self)
      rw [itemsChars, hchars, List.cons_append, List.cons_append, array?, trim_cons hspace]
      split
      · rename_i heq
        exact absurd (List.cons.inj heq).1 hbracket
      · rfl

/-- **An array** is read back if its items are. -/
theorem readsBack_arr {size : Nat} {vs : List Json} (hsize : (chars (arr vs)).length ≤ size)
    (hplain : ∀ v ∈ vs, v.Plain) (hitems : ∀ v ∈ vs, ReadsBack size v) :
    ReadsBack size (arr vs) := by
  intro room rest hrest
  cases room with
  | zero => cases vs <;> rfl
  | succ room =>
      simp only [levels, Nat.add_le_add_iff_right, levelsItems_le_iff]
      cases vs with
      | nil => rfl
      | cons v vs =>
          have hchars : chars (arr (v :: vs)) = '[' :: itemsChars (v :: vs) := rfl
          have hcount : (v :: vs).length ≤ size := by
            rw [hchars, List.length_cons] at hsize
            exact Nat.le_trans (length_le_itemsChars _) (Nat.le_of_succ_le hsize)
          rw [hchars, List.cons_append, value?,
            array?_itemsChars rest (List.cons_ne_nil v vs) hplain,
            items?_itemsChars rest (List.cons_ne_nil v vs) hcount hplain
              (fun w hw rest => hitems w hw room rest)]
          split <;> rfl

/-- **An object** is read back if the values of its members are. -/
theorem readsBack_obj {size : Nat} {ms : List (String × Json)}
    (hsize : (chars (obj ms)).length ≤ size) (hplain : ∀ m ∈ ms, m.2.Plain)
    (hmembers : ∀ m ∈ ms, ReadsBack size m.2) : ReadsBack size (obj ms) := by
  intro room rest hrest
  cases room with
  | zero => rcases ms with _ | ⟨⟨k, v⟩, ms⟩ <;> rfl
  | succ room =>
      simp only [levels, Nat.add_le_add_iff_right, levelsMembers_le_iff]
      rcases ms with _ | ⟨⟨k, v⟩, ms⟩
      · rfl
      · have hchars : chars (obj ((k, v) :: ms)) = '\x7b' :: membersChars ((k, v) :: ms) := rfl
        have hcount : ((k, v) :: ms).length ≤ size := by
          rw [hchars, List.length_cons] at hsize
          exact Nat.le_trans (length_le_membersChars _) (Nat.le_of_succ_le hsize)
        have hobject : object? inFull.key (fun _ => value? inFull size room) size
            (membersChars ((k, v) :: ms) ++ rest) =
              members? text? (fun _ => value? inFull size room) size
                (membersChars ((k, v) :: ms) ++ rest) := rfl
        rw [hchars, List.cons_append, value?, hobject,
          members?_membersChars rest (List.cons_ne_nil _ ms) hcount hplain
            (fun m hm rest => hmembers m hm room rest)]
        split <;> rfl

/-- Items are plain if each of them is. -/
theorem plainItems_iff {vs : List Json} : PlainItems vs ↔ ∀ v ∈ vs, v.Plain := by
  induction vs with
  | nil => simp [PlainItems]
  | cons v vs ih => rw [PlainItems, ih, List.forall_mem_cons]

/-- Members are plain if each of their values is. -/
theorem plainMembers_iff {ms : List (String × Json)} : PlainMembers ms ↔ ∀ m ∈ ms, m.2.Plain := by
  induction ms with
  | nil => simp [PlainMembers]
  | cons m ms ih => rw [PlainMembers, ih, List.forall_mem_cons]

mutual

/-- **Every plain value is read back.** -/
theorem readsBack : (v : Json) → v.Plain → ∀ {size : Nat}, (chars v).length ≤ size →
    ReadsBack size v
  | null, _, _, _ => readsBack_of_scalar rfl ⟨_, _, rfl, by decide, by decide⟩ fun _ _ => rfl
  | bool true, _, _, _ => readsBack_of_scalar rfl ⟨_, _, rfl, by decide, by decide⟩ fun _ _ => rfl
  | bool false, _, _, _ => readsBack_of_scalar rfl ⟨_, _, rfl, by decide, by decide⟩ fun _ _ => rfl
  | int _, h, _, _ => readsBack_int h
  | float _, h, _, _ => h.elim
  | str s, _, _, _ =>
      readsBack_of_scalar rfl ⟨_, _, rfl, by decide, by decide⟩ fun rest _ => scalar?_str s rest
  | arr vs, h, size, hsize => by
      refine readsBack_arr hsize (plainItems_iff.mp h) fun v hv => ?_
      exact readsBack_items vs h v hv (Nat.le_trans (length_chars_le_arr hv) hsize)
  | obj ms, h, size, hsize => by
      refine readsBack_obj hsize (plainMembers_iff.mp h) fun m hm => ?_
      exact readsBack_members ms h m hm (Nat.le_trans (length_chars_le_obj hm) hsize)

theorem readsBack_items : (vs : List Json) → PlainItems vs → ∀ v ∈ vs, ∀ {size : Nat},
    (chars v).length ≤ size → ReadsBack size v
  | [], _ => nofun
  | v :: vs, h => List.forall_mem_cons.mpr ⟨readsBack v h.1, readsBack_items vs h.2⟩

theorem readsBack_members : (ms : List (String × Json)) → PlainMembers ms → ∀ m ∈ ms,
    ∀ {size : Nat}, (chars m.2).length ≤ size → ReadsBack size m.2
  | [], _ => nofun
  | (_, v) :: ms, h => List.forall_mem_cons.mpr ⟨readsBack v h.1, readsBack_members ms h.2⟩

end

/-- **A written text is read back** if its levels are those that the reader takes. -/
theorem read?_text {v : Json} (h : v.Plain) :
    read? v.text = if v.levels ≤ maxLevels then some v else none := by
  have hread := readsBack v h (Nat.le_refl _) maxLevels [] nofun
  have htrim := trim_chars h []
  rw [List.append_nil] at hread htrim
  rw [read?, text, String.toList_ofList, whole?, htrim, hread]
  by_cases hlevels : v.levels ≤ maxLevels
  · rw [if_pos hlevels, if_pos hlevels]
    rfl
  · rw [if_neg hlevels, if_neg hlevels]

/-- A merged value is parsed back from its text. -/
theorem parse?_text {v : Json} (h : v.Plain) (hmerged : v.Merged) :
    parse? v.text = if v.levels ≤ maxLevels then some v else none := by
  rw [parse?, read?_text h]
  split
  · exact congrArg some hmerged
  · rfl

end AccessPolicy.Json
