import AccessPolicy.Grammar.Policy
import AccessPolicy.Proofs.Except
import AccessPolicy.Proofs.Parse.Indices
import AccessPolicy.Proofs.Policy.Set
import AccessPolicy.Proofs.Schema.Mismatch
import AccessPolicy.Proofs.Text.Position
import AccessPolicy.Schema.Text

/-!
# Texts are read safely

* `Scanned text r` — what a scan gives is in order: entries for tokens inside the text, with
  ascending starts, and one for its end; or a fault inside the text. Every scan is such
  (`scanned_tokens`).
* `ReadsSafely parse p` — a text is read by the reader `p`, and the steps of this reader can be
  taken by bytes and indices with the same result, without a byte, a slice or an entry that is not
  there; and a syntax error is located exactly, at the start of an entry or where the scan
  complains. **Every reader is such** (`readsSafely_readText`), if it makes no syntax errors of its
  own.
* **All five kinds of text are read safely** (`texts_readSafely`), each by its own reader.
-/

namespace AccessPolicy.Grammar

open Grammar.Parser

variable {α β : Type} {text : String} {n : Nat}

/-! ### Scans -/

/-- What a scan gives is in order. -/
def Scanned (text : String) : Except Fault (List Entry) → Prop
  | .error f => Within text f.offset
  | .ok entries => entries.Pairwise (·.start < ·.start) ∧
      ∃ front, entries = front ++ [⟨text.utf8ByteSize, none⟩] ∧
        ∀ e ∈ front, e.kind ≠ none ∧ Within text e.start

/-- **Every scan is in order.** -/
theorem scanned_tokens (text : String) :
    Scanned text ((tokens text).map (entriesOf text.utf8ByteSize)) := by
  have hplaced := placed_tokens text
  cases htokens : tokens text with
  | error f => exact hplaced.fault f htokens
  | ok ts =>
      have hwithin (e : Entry) (he : e ∈ ts.map fun t => (⟨t.start, some t.lexeme⟩ : Entry)) :
          e.kind ≠ none ∧ Within text e.start := by
        obtain ⟨t, ht, rfl⟩ := List.mem_map.mp he
        exact ⟨nofun, (hplaced.start ts htokens t ht).2⟩
      refine ⟨List.pairwise_append.mpr ⟨?_, List.pairwise_singleton _ _, ?_⟩, _, rfl, hwithin⟩
      · exact List.pairwise_map.mpr (hplaced.sorted ts htokens)
      · intro e he end' hend
        rw [List.mem_singleton.mp hend]
        exact (hwithin e he).2.2

/-- An offset that the scan of a text names: the start of an entry, or where it complains. -/
def Marked (text : String) (n : Nat) : Prop :=
  (∃ entries, scan text = some (.ok entries) ∧ ∃ e ∈ entries, e.start = n) ∨
  ∃ f, scan text = some (.error f) ∧ f.offset = n

/-- What a scan names are character boundaries. -/
theorem Marked.isValid (h : Marked text n) : String.Pos.Raw.IsValid text ⟨n⟩ := by
  have hscanned := scanned_tokens text
  rcases h with ⟨entries, hscan, e, he, rfl⟩ | ⟨f, hscan, rfl⟩
  · rw [← Option.some.inj ((scan_eq text).symm.trans hscan).symm] at hscanned
    obtain ⟨-, front, rfl, hfront⟩ := hscanned
    rcases List.mem_append.mp he with he | he
    · exact (hfront e he).2.1
    · rw [List.mem_singleton.mp he]
      exact String.Pos.Raw.isValid_rawEndPos
  · rw [← Option.some.inj ((scan_eq text).symm.trans hscan).symm] at hscanned
    exact hscanned.1

/-! ### Errors -/

/-- A result is no syntax error. -/
def NotSyntax (r : Except Error α) : Prop :=
  ∀ detail position, r ≠ .error (.syntaxError detail position)

/-- What a reader gives satisfies `post`. -/
def Returns (p : Parser α) (post : α → Prop) : Prop :=
  ∀ s a s', p s = .ok (a, s') → post a

theorem Returns.pure {post : α → Prop} {a : α} (h : post a) : Returns (Pure.pure a) post := by
  rintro _ _ _ ⟨⟩
  exact h

/-- What a sequence gives, its last reader gives. -/
theorem Returns.bind {post : β → Prop} (p : Parser α) {f : α → Parser β}
    (hf : ∀ a, Returns (f a) post) : Returns (p >>= f) post := by
  intro s b s' h
  rw [run_bind] at h
  obtain ⟨r, -, hr⟩ := bind_eq_ok.mp h
  exact hf r.1 _ _ _ hr

/-- A syntax error that a reader reports is at the start of an entry or where the scan complains. -/
theorem marked_of_readText {p : Parser (Except Error α)} (hown : Returns p NotSyntax)
    {detail : String} {position : Position}
    (h : readText text p = .error (.syntaxError detail position)) :
    ∃ n, Marked text n ∧ position = Position.ofOffset text n := by
  have hscan := scan_eq text
  unfold readText at h
  split at h
  · rename_i f hf
    rw [hf] at hscan
    cases h
    exact ⟨_, .inr ⟨f, hscan, rfl⟩, rfl⟩
  · rename_i ts hts
    rw [hts] at hscan
    unfold readTokens at h
    split at h
    · rename_i f hf
      have hat := p.runAt_eq text.utf8ByteSize (Nat.zero_le ts.length)
      rw [List.drop_zero, hf] at hat
      cases h
      exact ⟨_, .inl ⟨_, hscan, p.exists_mem_of_runAt hat⟩, rfl⟩
    · rename_i r s hr
      exact absurd h (hown _ _ _ hr _ _)

/-! ### Reading safely -/

/-- A text is read by a reader whose steps can be taken by bytes and indices, and syntax errors are
located exactly. -/
structure ReadsSafely (parse : String → Except Error α) (p : Parser (Except Error α)) : Prop where
  /-- A text is read by taking the steps of the reader on its tokens. -/
  reads : ∀ text, parse text = readText text p
  /-- No step of the reader looks outside the entries that a scan gives. -/
  inside : ∀ text entries, scan text = some (.ok entries) → p.runAt entries 0 ≠ none
  /-- The reading by bytes and indices always gives something, which is the result. -/
  steps : ∀ text, p.readText? text = some (parse text)
  /-- A syntax error is at the start of an entry or where the scan complains, and its line and
  column are those of its offset. -/
  located : ∀ text detail position, parse text = .error (.syntaxError detail position) →
    Marked text position.offset ∧ Position.At text position

/-- **Every reader reads safely**, if it makes no syntax errors of its own. -/
theorem readsSafely_readText {p : Parser (Except Error α)} (hown : Returns p NotSyntax) :
    ReadsSafely (readText · p) p where
  reads _ := rfl
  inside text entries hscan := by
    rw [scan_eq] at hscan
    obtain ⟨ts, -, rfl⟩ := map_eq_ok.mp (Option.some.inj hscan)
    rw [p.runAt_eq text.utf8ByteSize (Nat.zero_le _)]
    nofun
  steps text := p.readText?_eq text
  located text detail position h := by
    obtain ⟨n, hmarked, rfl⟩ := marked_of_readText hown h
    obtain ⟨hoffset, hat⟩ := Position.at_ofOffset hmarked.isValid
    exact ⟨hoffset.symm ▸ hmarked, hat⟩

/-- What is made of a text behind its end may be made while the end is read. -/
theorem readAll_bind (text lead : String) (p : Parser α) (f : α → Except Error β) :
    (readAll text lead p >>= f) = readText text (p.upToEnd lead f) := by
  unfold readAll readText
  cases tokens text with
  | error e => rfl
  | ok ts =>
      simp only [readTokens, upToEnd, run_bind]
      cases p ⟨ts, text.utf8ByteSize⟩ with
      | error e => rfl
      | ok r =>
          simp only [ok_bind]
          cases expectEnd lead r.2 <;> rfl

/-- A reader up to the end of a text reads it safely, if no syntax error is made of its result. -/
theorem readsSafely_upToEnd (p : Parser α) (lead : String) {f : α → Except Error β}
    (hf : ∀ a, NotSyntax (f a)) :
    ReadsSafely (fun text => readAll text lead p >>= f) (p.upToEnd lead f) := by
  simp only [readAll_bind]
  exact readsSafely_readText (.bind _ fun a => .bind _ fun _ => .pure (hf a))

/-- A reader up to the end of a text reads it safely. -/
theorem readsSafely_readAll (p : Parser α) (lead : String) :
    ReadsSafely (fun text => readAll text lead p) (p.upToEnd lead .ok) :=
  readsSafely_readText (.bind _ fun _ => .bind _ fun _ => .pure nofun)

/-! ### The kinds of text

Policies, conditions, uids and schemas are read by readers of their own, all of them after one scan.
What was said of an arbitrary reader is put together for each of these. -/

/-- A policy that cannot be added is refused for its id. -/
theorem returns_policies {count : Nat} : ∀ {place : Nat} {set : PolicySet},
    Returns (policies count place set) NotSyntax := by
  induction count with
  | zero => exact .pure nofun
  | succ count ih =>
      intro place set
      unfold policies
      refine .bind _ fun found => ?_
      split
      · exact .pure nofun
      refine .bind _ fun p => ?_
      split
      · rename_i e he
        refine .pure ?_
        rintro detail position ⟨⟩
        exact nomatch (PolicySet.add_eq_error_iff.mp he).2
      · exact ih

/-- A mismatch with the expected shape is no syntax error. -/
theorem notSyntax_of_mismatches {r : Except Error α} (h : Mismatches r) : NotSyntax r := by
  rintro detail position hr
  obtain ⟨path, wrong, he⟩ := h _ hr
  cases he

/-- **Texts are read safely.** The scan of a text always gives something, which is in order and is
what the tokens are. Policies, single policies, expressions, uids and schemas are read by the steps
of their readers, none of which looks outside the entries of a text; the steps can be taken by bytes
and indices with the same result, and the syntax errors are located exactly. -/
theorem texts_readSafely :
    (∀ text, ∃ r, scan text = some r ∧ r = (tokens text).map (entriesOf text.utf8ByteSize) ∧
      Scanned text r) ∧
    ReadsSafely PolicySet.parse policySet ∧
    (∀ id, ReadsSafely (Policy.parse · id)
      ((policy (id.getD (Policy.defaultId 0))).upToEnd "expected exactly one policy" .ok)) ∧
    ReadsSafely Expr.parse (bounded.upToEnd "unexpected input after expression" .ok) ∧
    ReadsSafely Uid.parse (uid.upToEnd "unexpected input after entity uid" .ok) ∧
    ReadsSafely Schema.parse
      (schemaSections.upToEnd "unexpected input after schema" Schema.ofSections) :=
  ⟨fun text => ⟨_, scan_eq text, rfl, scanned_tokens text⟩,
    readsSafely_readText (.bind _ fun _ => returns_policies),
    fun _ => readsSafely_readAll _ _,
    readsSafely_readAll _ _,
    readsSafely_readAll _ _,
    readsSafely_upToEnd _ _ fun sections =>
      notSyntax_of_mismatches (Schema.mismatches_ofSections sections)⟩

end AccessPolicy.Grammar
