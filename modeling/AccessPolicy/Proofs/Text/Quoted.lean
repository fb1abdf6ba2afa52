import AccessPolicy.Grammar.Token

/-!
# Quoted text reads back

* **Round trips** (`decode_encode`, `decodePattern_encodePattern`): what is written between quotes
  stands for the text or the pattern that was written.
* `Inert w` — the scan for the closing quote passes over `w`; **written bodies are inert**
  (`inert_encode`, `inert_encodePattern`), so that it stops at the quote behind them.
-/

namespace AccessPolicy.Quoted

/-! ### Escapes by code point -/

/-- Every control character is below this code point. -/
theorem toNat_lt_of_isControl {c : Char} (h : isControl c) : c.toNat < 160 := by
  simp only [isControl, Bool.or_eq_true, Bool.and_eq_true, decide_eq_true_eq] at h
  omega

/-- The digits of a small code point are hexadecimal, few, and name it. -/
theorem digits_of_lt : ∀ n < 160,
    (Nat.toDigits 16 n).all (fun d => (hexValue? d).isSome) ∧ (Nat.toDigits 16 n).length ≤ 6 ∧
      scalar? (Nat.toDigits 16 n) = some (Char.ofNat n) := by
  decide +kernel

variable {α : Type} {bare coded : Char → α} {star : Bool}

/-- Digits are collected until the closing brace. -/
theorem scan_digits {ds cs : List Char} {d : Char} (hex : ∀ c ∈ ds, (hexValue? c).isSome) :
    ∀ {seen : List Char}, seen.length + ds.length ≤ 6 →
      scalar? (seen.reverse ++ ds) = some d →
      scan bare coded star (.digits seen) (ds ++ '\x7d' :: cs) =
        (scan bare coded star .plain cs).map (coded d :: ·) := by
  induction ds with
  | nil =>
      intro seen _ hd
      rw [List.append_nil] at hd
      simp only [List.nil_append, scan, if_true, hd]
  | cons c ds ih =>
      intro seen hlen hd
      have hc : (hexValue? c).isSome := hex c List.mem_cons_self
      have hne : c ≠ '\x7d' := by
        rintro rfl
        exact absurd hc (by decide)
      rw [List.length_cons] at hlen
      have hlt : seen.length < 6 := by omega
      simp only [List.cons_append, scan, if_neg hne, hc, hlt, and_self, if_true]
      refine ih (fun x hx => hex x (List.mem_cons_of_mem c hx)) ?_ ?_
      · rw [List.length_cons]
        omega
      · simpa using hd

/-! ### Round trips -/

/-- A character is written as an escape of one letter, by its code point, or as it is. -/
theorem encodeChar_cases (c : Char) :
    (∃ d, letter? d = some c ∧ encodeChar c = ['\\', d]) ∨
      (isControl c ∧ encodeChar c = '\\' :: 'u' :: '\x7b' :: Nat.toDigits 16 c.toNat ++ ['\x7d']) ∨
      ((c ≠ '"' ∧ c ≠ '\\') ∧ encodeChar c = [c]) := by
  unfold encodeChar
  split
  · exact .inl ⟨'"', by subst c; decide, rfl⟩
  split
  · exact .inl ⟨'\\', by subst c; decide, rfl⟩
  split
  · exact .inl ⟨'n', by subst c; decide, rfl⟩
  split
  · exact .inl ⟨'r', by subst c; decide, rfl⟩
  split
  · exact .inl ⟨'t', by subst c; decide, rfl⟩
  split
  · exact .inl ⟨'0', by subst c; decide, rfl⟩
  split
  · exact .inr (.inl ⟨‹_›, rfl⟩)
  · exact .inr (.inr ⟨⟨‹_›, ‹_›⟩, rfl⟩)

/-- One written character is read as itself. -/
theorem scan_encodeChar {c : Char} {cs : List Char} (h : bare c = coded c) :
    scan bare coded star .plain (encodeChar c ++ cs) =
      (scan bare coded star .plain cs).map (coded c :: ·) := by
  rcases encodeChar_cases c with ⟨d, hd, he⟩ | ⟨hctl, he⟩ | ⟨⟨-, hne⟩, he⟩ <;> rw [he]
  · have hu : d ≠ 'u' := by
      rintro rfl
      exact absurd hd (by simp [letter?])
    have hs : d ≠ '*' := by
      rintro rfl
      exact absurd hd (by simp [letter?])
    simp [scan, hu, hs, hd]
  · obtain ⟨hex, hlen, hscalar⟩ := digits_of_lt c.toNat (toNat_lt_of_isControl hctl)
    rw [Char.ofNat_toNat] at hscalar
    simp only [List.cons_append, List.append_assoc, List.nil_append, scan, if_true]
    exact scan_digits (List.all_eq_true.mp hex) (by simpa using hlen) hscalar
  · simp only [List.cons_append, List.nil_append, scan, if_neg hne, h]

/-- A written text reads back. -/
theorem decode_encode (s : List Char) : decode (encode s) = .ok s := by
  unfold decode encode
  induction s with
  | nil => rfl
  | cons c cs ih =>
      rw [List.flatMap_cons, scan_encodeChar rfl, ih]
      rfl

/-- A written pattern reads back. -/
theorem decodePattern_encodePattern (p : List Glob) : decodePattern (encodePattern p) = .ok p := by
  unfold decodePattern encodePattern
  induction p with
  | nil => rfl
  | cons g gs ih =>
      rw [List.flatMap_cons]
      cases g with
      | wildcard => simp [encodeGlob, scan, bareGlob, ih, Except.map]
      | char c =>
          by_cases hc : c = '*'
          · simp [encodeGlob, hc, scan, ih, Except.map]
          · simp only [encodeGlob, if_neg hc]
            rw [scan_encodeChar (by simp [bareGlob, hc]), ih]
            rfl

/-! ### The end of a body -/

/-- The scan for the closing quote passes over these characters. -/
def Inert (w : List Char) : Prop :=
  ∀ cs, Grammar.stringBody (w ++ cs) = (Grammar.stringBody cs).map fun r => (w ++ r.1, r.2)

theorem inert_nil : Inert [] := by
  intro cs
  cases h : Grammar.stringBody cs <;> simp [h]

/-- Inert bodies one behind the other are inert. -/
theorem Inert.append {v w : List Char} (hv : Inert v) (hw : Inert w) : Inert (v ++ w) := by
  intro cs
  rw [List.append_assoc, hv, hw]
  cases Grammar.stringBody cs <;> simp

/-- A character is inert unless it is a quote or a backslash. -/
theorem inert_singleton {c : Char} (hq : c ≠ '"') (hb : c ≠ '\\') : Inert [c] := by
  intro cs
  rw [List.singleton_append, Grammar.stringBody.eq_def]
  split <;> simp_all

/-- A backslash takes the next character along. -/
theorem inert_escape (c : Char) : Inert ['\\', c] := by
  intro cs
  simp [Grammar.stringBody]

/-- Hexadecimal digits are inert. -/
theorem inert_of_hex {ds : List Char} (h : ∀ d ∈ ds, (hexValue? d).isSome) : Inert ds := by
  induction ds with
  | nil => exact inert_nil
  | cons d ds ih =>
      have hd := h d List.mem_cons_self
      have head : Inert [d] := by
        refine inert_singleton ?_ ?_
        all_goals
          rintro rfl
          exact absurd hd (by decide)
      exact head.append (ih fun x hx => h x (List.mem_cons_of_mem d hx))

/-- An encoded character is inert: its quote or backslash stands behind a backslash. -/
theorem inert_encodeChar (c : Char) : Inert (encodeChar c) := by
  rcases encodeChar_cases c with ⟨d, -, he⟩ | ⟨hctl, he⟩ | ⟨⟨hq, hb⟩, he⟩ <;> rw [he]
  · exact inert_escape d
  · have hex := (digits_of_lt c.toNat (toNat_lt_of_isControl hctl)).1
    have opening : Inert ['\x7b'] := inert_singleton (by decide) (by decide)
    have closing : Inert ['\x7d'] := inert_singleton (by decide) (by decide)
    have digits := inert_of_hex (List.all_eq_true.mp hex)
    exact (((inert_escape 'u').append opening).append digits).append closing
  · exact inert_singleton hq hb

theorem inert_encode (s : List Char) : Inert (encode s) := by
  unfold encode
  induction s with
  | nil => exact inert_nil
  | cons c cs ih => exact (inert_encodeChar c).append ih

theorem inert_encodePattern (p : List Glob) : Inert (encodePattern p) := by
  unfold encodePattern
  induction p with
  | nil => exact inert_nil
  | cons g gs ih =>
      refine Inert.append ?_ ih
      cases g with
      | wildcard => exact inert_singleton (by decide) (by decide)
      | char c =>
          by_cases hc : c = '*'
          · simp only [encodeGlob, if_pos hc]
            exact inert_escape '*'
          · simp only [encodeGlob, if_neg hc]
            exact inert_encodeChar c

/-- The body of a string ends at the quote behind what was written. -/
theorem Inert.stringBody {w : List Char} (h : Inert w) (cs : List Char) :
    Grammar.stringBody (w ++ '"' :: cs) = some (w, cs) := by
  rw [h]
  simp [Grammar.stringBody]

end AccessPolicy.Quoted
