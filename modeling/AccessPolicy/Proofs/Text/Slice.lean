import AccessPolicy.Grammar.Token
import AccessPolicy.Proofs.Text.Bytes
import Mathlib.Data.String.Basic

/-!
# Slices of a text by bytes

* `Text.slice? text start stop` — the part of a text between two byte offsets, refused unless both
  are character boundaries. **At boundaries it is the characters between them** (`Text.slice?_eq`).
* `Text.isValid_iff` — the boundaries are the byte counts of the beginnings of the text.
* **Runs of bytes are runs of characters** (`Text.takeWhile_bytes`) for every test that does not
  tell characters from 128 on apart: the bytes of such characters are at least 128 themselves.
-/

namespace AccessPolicy

namespace Text

open Grammar (byteCount)
open Quoted (bytes)

variable {text : String} {c : Char} {pre mid post cs : List Char}

/-! ### Counting bytes -/

/-- Both counts go through the characters, one from the left and the other from the right. -/
theorem byteCount_eq_utf8Len (cs : List Char) : byteCount cs = String.utf8Len cs := by
  have fold : ∀ (cs : List Char) (n : Nat),
      cs.foldl (fun n c => n + c.utf8Size) n = n + String.utf8Len cs := by
    intro cs
    induction cs with
    | nil => exact fun _ => rfl
    | cons c cs ih =>
        intro n
        rw [List.foldl_cons, ih, String.utf8Len_cons]
        omega
  rw [byteCount, fold, Nat.zero_add]

/-- The bytes of two texts are the bytes of both. -/
theorem byteCount_append (cs ds : List Char) :
    byteCount (cs ++ ds) = byteCount cs + byteCount ds := by
  simp only [byteCount_eq_utf8Len, String.utf8Len_append]

/-- A character in front adds its bytes. -/
theorem byteCount_cons (c : Char) (cs : List Char) :
    byteCount (c :: cs) = c.utf8Size + byteCount cs := by
  rw [byteCount_eq_utf8Len, byteCount_eq_utf8Len, String.utf8Len_cons, Nat.add_comm]

/-- The bytes of a text are counted character by character. -/
theorem byteCount_toList (text : String) : byteCount text.toList = text.utf8ByteSize := by
  rw [byteCount_eq_utf8Len, String.utf8Len_toList]

/-- Every character has a byte. -/
theorem byteCount_pos (c : Char) (cs : List Char) : 0 < byteCount (c :: cs) := by
  rw [byteCount_cons]
  exact Nat.add_pos_left c.utf8Size_pos _

/-- There are as many bytes as are counted. -/
theorem length_bytes (cs : List Char) : (bytes cs).length = byteCount cs := by
  induction cs with
  | nil => rfl
  | cons c cs ih =>
      rw [Quoted.bytes_cons, List.length_append, ih, String.length_utf8EncodeChar, byteCount_cons]

/-- The bytes of two texts are those of the first and then those of the second. -/
theorem bytes_append (cs ds : List Char) : bytes (cs ++ ds) = bytes cs ++ bytes ds :=
  List.flatMap_append

/-- **Behind the bytes of a beginning** are the bytes of the rest. This is how an offset into the
bytes is turned into a place between two characters. -/
theorem drop_bytes (pre post : List Char) :
    (bytes (pre ++ post)).drop (byteCount pre) = bytes post := by
  rw [bytes_append, ← length_bytes, List.drop_left]

/-! ### Slices -/

/-- The part of a text between two byte offsets, if both are character boundaries. -/
def slice? (text : String) (start stop : Nat) : Option String :=
  if String.Pos.Raw.IsValid text ⟨start⟩ ∧ String.Pos.Raw.IsValid text ⟨stop⟩ ∧ start ≤ stop then
    some (String.Pos.Raw.extract text ⟨start⟩ ⟨stop⟩)
  else none

/-- The character boundaries of a text. -/
theorem isValid_iff {n : Nat} : String.Pos.Raw.IsValid text ⟨n⟩ ↔
    ∃ pre post, text.toList = pre ++ post ∧ n = byteCount pre := by
  rw [String.Pos.Raw.isValid_iff_exists_append]
  constructor
  · rintro ⟨s, t, rfl, hn⟩
    refine ⟨s.toList, t.toList, String.toList_append, ?_⟩
    rw [byteCount_toList]
    exact congrArg String.Pos.Raw.byteIdx hn
  · rintro ⟨pre, post, htext, rfl⟩
    refine ⟨String.ofList pre, String.ofList post, ?_, ?_⟩
    · rw [← String.toList_inj, htext]
      simp
    · rw [byteCount_eq_utf8Len, String.rawEndPos_ofList]

/-- **At boundaries a slice is the characters between them.** -/
theorem slice?_eq (post : List Char) (htext : text.toList = pre ++ (mid ++ post)) :
    slice? text (byteCount pre) (byteCount pre + byteCount mid) = some (String.ofList mid) := by
  have hstart : String.Pos.Raw.IsValid text ⟨byteCount pre⟩ := isValid_iff.mpr ⟨pre, _, htext, rfl⟩
  have hstop : String.Pos.Raw.IsValid text ⟨byteCount pre + byteCount mid⟩ := by
    refine isValid_iff.mpr ⟨pre ++ mid, post, ?_, (byteCount_append pre mid).symm⟩
    rw [htext, List.append_assoc]
  have hofList : text = String.ofList (pre ++ mid ++ post) := by
    rw [← String.toList_inj, htext, String.toList_ofList, List.append_assoc]
  rw [slice?, if_pos ⟨hstart, hstop, Nat.le_add_right _ _⟩, hofList, byteCount_eq_utf8Len,
    byteCount_eq_utf8Len, String.extract_of_valid]

/-! ### Tests on bytes -/

/-- A byte is taken as the character of its number. -/
theorem toNat_ofUInt8 (b : UInt8) : (Char.ofUInt8 b).toNat = b.toNat :=
  UInt8.toNat_toUInt32 b

/-- An ASCII character is its one byte. -/
theorem ofUInt8_toNat (h : c.toNat < 128) : Char.ofUInt8 (UInt8.ofNat c.toNat) = c := by
  refine Char.toNat_inj.mp ?_
  rw [toNat_ofUInt8, UInt8.toNat_ofNat', Nat.mod_eq_of_lt (by omega)]

/-- A character is one byte, which stands for it, or several from 128 on. -/
theorem utf8EncodeChar_cases (c : Char) :
    (c.toNat < 128 ∧ ∃ b, String.utf8EncodeChar c = [b] ∧ Char.ofUInt8 b = c) ∨
    (128 ≤ c.toNat ∧ ∃ b bs, String.utf8EncodeChar c = b :: bs ∧
      ∀ x ∈ b :: bs, 128 ≤ (Char.ofUInt8 x).toNat) := by
  rcases Nat.lt_or_ge c.toNat 128 with hlt | hle
  · exact .inl ⟨hlt, _, Quoted.utf8EncodeChar_of_lt hlt, ofUInt8_toNat hlt⟩
  · obtain ⟨b, bs, hb⟩ := List.exists_cons_of_ne_nil (String.utf8EncodeChar_ne_nil (c := c))
    refine .inr ⟨hle, b, bs, hb, fun x hx => ?_⟩
    rw [toNat_ofUInt8]
    exact Quoted.le_of_mem_utf8EncodeChar hle x (hb ▸ hx)

/-- **Runs of bytes are runs of characters.** -/
theorem takeWhile_bytes {p : Char → Bool} {beyond : Bool}
    (h : ∀ c : Char, 128 ≤ c.toNat → p c = beyond)
    (cs : List Char) :
    (bytes cs).takeWhile (fun b => p (Char.ofUInt8 b)) = bytes (cs.takeWhile p) := by
  induction cs with
  | nil => rfl
  | cons c cs ih =>
      rw [Quoted.bytes_cons]
      rcases utf8EncodeChar_cases c with ⟨-, b, hb, hc⟩ | ⟨hle, b, bs, hb, hbs⟩
      · rw [hb, List.singleton_append, List.takeWhile_cons, hc, List.takeWhile_cons]
        split
        · rw [ih, Quoted.bytes_cons, hb, List.singleton_append]
        · rfl
      · cases beyond with
        | true =>
            have hall : ∀ x ∈ String.utf8EncodeChar c, p (Char.ofUInt8 x) = true := fun x hx =>
              h _ (hbs x (hb ▸ hx))
            rw [List.takeWhile_append_of_pos hall, ih, List.takeWhile_cons_of_pos (h c hle),
              Quoted.bytes_cons]
        | false =>
            have hfirst := h _ (hbs b List.mem_cons_self)
            rw [hb, List.cons_append, List.takeWhile_cons_of_neg (by rw [hfirst]; decide),
              List.takeWhile_cons_of_neg (by rw [h c hle]; decide)]
            rfl

end Text

end AccessPolicy
