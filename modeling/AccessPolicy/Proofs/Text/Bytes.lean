import AccessPolicy.Proofs.Text.Quoted

/-!
# Quoted text by bytes

The quote that closes a string can be looked for by bytes, without a look at the characters that
they make up: `quoteAt?` passes over a backslash together with the one byte behind it. That byte may
be the first of several, so the scan goes on in the middle of a character.

It still **stops at the quote at which the scan by characters stops** (`quoteAt?_bytes`): every byte
of a character that has several is at least 128 (`le_of_mem_utf8EncodeChar`), and neither a quote
nor a backslash is.
-/

namespace AccessPolicy.Quoted

/-- The bytes of characters. -/
def bytes (cs : List Char) : List UInt8 :=
  cs.flatMap String.utf8EncodeChar

/-- How many bytes stand in front of the closing quote. A backslash takes the next byte along;
`taken` says whether the first byte is one. -/
def quoteAt? : (taken : Bool) → List UInt8 → Option Nat
  | _, [] => none
  | true, _ :: bs => (quoteAt? false bs).map (1 + ·)
  | false, b :: bs =>
    if b = 0x22 then some 0
    else (quoteAt? (b == 0x5C) bs).map (1 + ·)

theorem bytes_cons (c : Char) (cs : List Char) :
    bytes (c :: cs) = String.utf8EncodeChar c ++ bytes cs :=
  rfl

/-! ### Bytes of one character -/

variable {c : Char} {bs : List UInt8}

/-- An ASCII character is one byte. -/
theorem utf8EncodeChar_of_lt (h : c.toNat < 128) :
    String.utf8EncodeChar c = [UInt8.ofNat c.toNat] :=
  if_pos (Nat.le_of_lt_succ h)

/-- The bytes of every other character are at least 128. -/
theorem le_of_mem_utf8EncodeChar (h : 128 ≤ c.toNat) :
    ∀ b ∈ String.utf8EncodeChar c, 128 ≤ b.toNat := by
  have hval : 128 ≤ c.val.toNat := h
  have hbyte : ∀ n, 128 ≤ n → n < 256 → 128 ≤ (UInt8.ofNat n).toNat := by
    intro n hle hlt
    rwa [UInt8.toNat_ofNat', Nat.mod_eq_of_lt hlt]
  intro b hb
  rw [String.utf8EncodeChar.eq_1] at hb
  split at hb
  · omega
  split at hb
  · simp only [List.mem_cons, List.not_mem_nil, or_false] at hb
    rcases hb with rfl | rfl <;> exact hbyte _ (by omega) (by omega)
  split at hb
  · simp only [List.mem_cons, List.not_mem_nil, or_false] at hb
    rcases hb with rfl | rfl | rfl <;> exact hbyte _ (by omega) (by omega)
  · simp only [List.mem_cons, List.not_mem_nil, or_false] at hb
    rcases hb with rfl | rfl | rfl | rfl <;> exact hbyte _ (by omega) (by omega)

/-! ### One character of a scan -/

theorem map_add_map (o : Option Nat) (m n : Nat) :
    (o.map (n + ·)).map (m + ·) = o.map (n + m + ·) := by
  rw [Option.map_map]
  congr 1
  funext k
  simp only [Function.comp_apply]
  omega

/-- The scan passes over bytes that are at least 128. -/
theorem quoteAt?_append {w : List UInt8} (h : ∀ b ∈ w, 128 ≤ b.toNat) :
    quoteAt? false (w ++ bs) = (quoteAt? false bs).map (w.length + ·) := by
  induction w with
  | nil => simp
  | cons b w ih =>
      have hb := h b List.mem_cons_self
      have hquote : b ≠ 0x22 := by
        rintro rfl
        exact absurd hb (by decide)
      have hslash : (b == 0x5C) = false := by
        refine beq_eq_false_iff_ne.mpr ?_
        rintro rfl
        exact absurd hb (by decide)
      rw [List.cons_append, quoteAt?, if_neg hquote, hslash,
        ih fun x hx => h x (List.mem_cons_of_mem b hx), map_add_map, List.length_cons]

/-- The scan passes over a character other than a quote and a backslash. -/
theorem quoteAt?_char (hquote : c ≠ '"') (hslash : c ≠ '\\') :
    quoteAt? false (String.utf8EncodeChar c ++ bs) =
      (quoteAt? false bs).map ((String.utf8EncodeChar c).length + ·) := by
  rcases Nat.lt_or_ge c.toNat 128 with hlt | hle
  · have hne : ∀ d : Char, d.toNat < 128 → c ≠ d → UInt8.ofNat c.toNat ≠ UInt8.ofNat d.toNat := by
      intro d hd hcd h
      have hnat := congrArg UInt8.toNat h
      rw [UInt8.toNat_ofNat', UInt8.toNat_ofNat', Nat.mod_eq_of_lt (by omega),
        Nat.mod_eq_of_lt (by omega)] at hnat
      exact hcd (Char.toNat_inj.mp hnat)
    have hq : UInt8.ofNat c.toNat ≠ 0x22 := hne '"' (by decide) hquote
    have hs : (UInt8.ofNat c.toNat == 0x5C) = false :=
      beq_eq_false_iff_ne.mpr (hne '\\' (by decide) hslash)
    rw [utf8EncodeChar_of_lt hlt, List.singleton_append, quoteAt?, if_neg hq, hs]
    rfl
  · exact quoteAt?_append (le_of_mem_utf8EncodeChar hle)

/-- Behind a backslash, the scan passes over every character: over its first byte, as it is taken
along, and over the others, as they are at least 128. -/
theorem quoteAt?_taken (c : Char) : quoteAt? true (String.utf8EncodeChar c ++ bs) =
    (quoteAt? false bs).map ((String.utf8EncodeChar c).length + ·) := by
  rcases Nat.lt_or_ge c.toNat 128 with hlt | hle
  · rw [utf8EncodeChar_of_lt hlt]
    rfl
  · have hbytes := le_of_mem_utf8EncodeChar hle
    obtain ⟨b, w, hw⟩ := List.exists_cons_of_ne_nil (String.utf8EncodeChar_ne_nil (c := c))
    rw [hw] at hbytes ⊢
    rw [List.cons_append, quoteAt?, quoteAt?_append fun x hx => hbytes x (List.mem_cons_of_mem b hx),
      map_add_map, List.length_cons]

/-! ### The whole scan -/

/-- **The scan by bytes stops where the scan by characters does.** -/
theorem quoteAt?_bytes (cs : List Char) : quoteAt? false (bytes cs) =
    (Grammar.stringBody cs).map fun r => (bytes r.1).length := by
  fun_induction Grammar.stringBody cs with
  | case1 => rfl
  | case2 cs => rfl
  | case3 c cs ih =>
      have hslash : quoteAt? false (bytes ('\\' :: c :: cs)) =
          (quoteAt? true (String.utf8EncodeChar c ++ bytes cs)).map (1 + ·) := rfl
      rw [hslash, quoteAt?_taken, map_add_map, ih, Option.map_map, Option.map_map]
      congr 1
      funext r
      have hone : (String.utf8EncodeChar '\\').length = 1 := rfl
      simp only [Function.comp_apply, bytes_cons, List.length_append, hone]
      omega
  | case4 => rfl
  | case5 c cs hquote hslash hend ih =>
      have hne : c ≠ '\\' := by
        cases cs with
        | nil => exact fun h => hend h rfl
        | cons d cs => exact fun h => hslash d cs h rfl
      rw [bytes_cons, quoteAt?_char hquote hne, ih, Option.map_map, Option.map_map]
      congr 1
      funext r
      simp only [Function.comp_apply, bytes_cons, List.length_append]

end AccessPolicy.Quoted
