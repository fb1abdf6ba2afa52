import AccessPolicy.Proofs.Parse.Ensures
import AccessPolicy.Proofs.Parse.Gives
import AccessPolicy.Proofs.Print.Expr
import AccessPolicy.Proofs.Text.Bytes
import AccessPolicy.Proofs.Tree.Decoded

/-!
# Literals

* **A quoted text is one token** that stands for the text (`Grammar.tokens_quote`), whatever
  characters it has; what stands behind it plays no part, for characters and for bytes.
* **Literals of uids read back** (`Uid.parse_text`), and only valid uids are read
  (`Uid.isValid_of_parse`): reading inverts writing on exactly the uids that can be made of a type
  and an id.
* `Uid.literals_faithful` puts these together, with what holds of patterns.
-/

namespace AccessPolicy

/-! ### Quoted texts -/

namespace Grammar

/-- A written form by itself is cut into its one lexeme, at the start of the text. -/
theorem tokens_of_writes {l : Lexeme} {w : List Char} (h : l.Writes w) :
    tokens (String.ofList w) = .ok [⟨0, l⟩] := by
  obtain ⟨c, w, rfl⟩ := h.exists_cons
  have hpiece : piece c w = .ok ⟨some l, c :: w, []⟩ := by
    simpa using piece_of_writes h (apart_nil (c :: w))
  change tokensFrom (String.ofList (c :: w)).toList.length 0 (String.ofList (c :: w)).toList = _
  rw [String.toList_ofList, List.length_cons, tokensFrom, hpiece]
  cases w.length <;> rfl

/-- **A quoted text is one token**, which stands for the text. -/
theorem tokens_quote (s : String) :
    tokens (Quoted.quote s) = .ok [⟨0, .str (String.ofList (Quoted.encode s.toList))⟩] := by
  have hquote : Quoted.quote s = String.ofList ('"' :: Quoted.encode s.toList ++ ['"']) := by
    rw [Quoted.quote, ← String.toList_inj]
    simp
  rw [hquote]
  exact tokens_of_writes (.str (Quoted.inert_encode s.toList))

end Grammar

/-- Behind a written text, the scan by bytes stops at the closing quote. -/
theorem Quoted.quoteAt?_encode (s rest : List Char) :
    quoteAt? false (bytes (encode s ++ '"' :: rest)) = some (bytes (encode s)).length := by
  rw [quoteAt?_bytes, (inert_encode s).stringBody]
  rfl

/-! ### Uids -/

namespace Uid

/-- A type and an id make a uid exactly if the type is a type name. -/
theorem ofParts_eq_ok_iff {type id : String} {u : Uid} :
    ofParts type id = .ok u ↔ u = ⟨type, id⟩ ∧ u.isValid := by
  constructor
  · intro h
    refine ⟨?_, Tree.isValid_of_ofParts h⟩
    unfold ofParts at h
    split at h
    · exact (Except.ok.inj h).symm
    · cases h
  · rintro ⟨rfl, hvalid⟩
    exact if_pos hvalid

/-- **The literal of a valid uid is read as the uid.** -/
theorem parse_text {u : Uid} (h : u.isValid) : parse u.text = .ok u := by
  have hspells : Grammar.Spells u.text.toList u.lexemes := by
    rw [text, String.toList_ofList]
    exact u.spells h
  have hyields : Grammar.Yields False Grammar.Parser.uid (u.lexemes ++ []) u [] :=
    Grammar.yields_uid u
  have hgives : Grammar.Gives False Grammar.Parser.uid u.lexemes u [] := by
    simpa using hyields.gives
  exact (Grammar.readAll_of_gives _ hspells hgives).resolve_right fun hfails => hfails.1

/-- What is read is a valid uid. -/
theorem isValid_of_parse {text : String} {u : Uid} (h : parse text = .ok u) : u.isValid :=
  Grammar.post_of_readAll Grammar.ensures_uid h

/-- **Literals are faithful.**

* A uid that is made of a type name and an id is what its literal is read as.
* So two of them with the same literal are the same.
* Every uid that is read could have been made of its type and its id.
* A quoted text is cut into one token, which stands for the text. The scan for its closing quote
  finds it also if it goes by bytes, and whatever stands behind it.
* A written pattern stands for the pattern. -/
theorem literals_faithful :
    (∀ (type id : String) (u : Uid), ofParts type id = .ok u → parse u.text = .ok u) ∧
    (∀ (type id type' id' : String) (u v : Uid), ofParts type id = .ok u → ofParts type' id' = .ok v →
      u.text = v.text → u = v) ∧
    (∀ (text : String) (u : Uid), parse text = .ok u → ofParts u.type u.id = .ok u) ∧
    (∀ s : String, ∃ body : List Char,
      Grammar.tokens (Quoted.quote s) = .ok [⟨0, .str (String.ofList body)⟩] ∧
      Quoted.decode body = .ok s.toList ∧
      ∀ rest, Quoted.quoteAt? false (Quoted.bytes (body ++ '"' :: rest)) =
        some (Quoted.bytes body).length) ∧
    ∀ globs : List Glob, Quoted.decodePattern (Quoted.encodePattern globs) = .ok globs := by
  have hread : ∀ (type id : String) (u : Uid), ofParts type id = .ok u → parse u.text = .ok u :=
    fun _ _ _ h => parse_text (ofParts_eq_ok_iff.mp h).2
  refine ⟨hread, ?distinct, ?made, ?quoted, Quoted.decodePattern_encodePattern⟩
  case distinct =>
    intro type id type' id' u v hu hv heq
    have hread' : parse u.text = .ok v := heq ▸ hread _ _ _ hv
    exact Except.ok.inj ((hread _ _ _ hu).symm.trans hread')
  case made => exact fun text u h => ofParts_eq_ok_iff.mpr ⟨rfl, isValid_of_parse h⟩
  case quoted =>
    exact fun s => ⟨Quoted.encode s.toList, Grammar.tokens_quote s, Quoted.decode_encode s.toList,
      Quoted.quoteAt?_encode s.toList⟩

/-- An id with a quote, a backslash, control characters and characters of several bytes is read
back. A literal in another spelling is read as the same uid, whose type is a type name. -/
theorem literals_faithful_note :
    let u : Uid := ⟨"App::Note", "a\"\\\n\u0085é*😀"⟩
    (ofParts "App::Note" "a\"\\\n\u0085é*😀" = .ok u ∧ parse u.text = .ok u) ∧
    (parse "App :: Note::\"\\u\x7b61\x7d\"" = .ok ⟨"App::Note", "a"⟩ ∧
      ofParts "App::Note" "a" = .ok ⟨"App::Note", "a"⟩) ∧
    ∀ v, ofParts v.type v.id = .ok v → u.text = v.text → u = v := by
  intro u
  obtain ⟨hread, hdistinct, hmade, -⟩ := literals_faithful
  have hu : ofParts "App::Note" "a\"\\\n\u0085é*😀" = .ok u := by decide +kernel
  have hspelled :
      parse "App :: Note::\"\\u\x7b61\x7d\"" = .ok ⟨"App::Note", "a"⟩ := by decide +kernel
  exact ⟨⟨hu, hread _ _ _ hu⟩, ⟨hspelled, hmade _ _ hspelled⟩, fun v => hdistinct _ _ _ _ u v hu⟩

end Uid

end AccessPolicy
