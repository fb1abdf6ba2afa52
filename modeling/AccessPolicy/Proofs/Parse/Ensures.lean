import AccessPolicy.Proofs.Except
import AccessPolicy.Proofs.Parse.Yields

/-!
# What readers ensure

* `Stream.Clean` — the names among the tokens of a stream are identifiers; the tokens of every text
  are clean (`clean_of_tokens`).
* `Ensures p post` — on every clean stream, whatever the reader `p` gives satisfies `post`, and what
  it leaves is clean. One rule for each way to build a reader, and one lemma for each reader of
  `Grammar.Parser`: uids are valid (`ensures_uid`) and type names are type names
  (`ensures_typeName`).
* `EnsuresAt l? p post` — the same on the clean streams that begin with the token `l?`, for readers
  that look at the token before they take it: a path begins with the name that comes next
  (`ensuresAt_path`).
-/

namespace AccessPolicy.Grammar

/-! ### Clean streams -/

/-- The names among tokens are identifiers. -/
def Stream.Clean (s : Stream) : Prop :=
  ∀ name, .ident name ∈ s.lexemes → Name.isIdent name

/-- A piece of a text that is a name is an identifier: only a letter or `_` starts one, and it takes
only letters, digits and `_`. -/
theorem isIdent_of_piece {c : Char} {cs : List Char} {p : Piece} {name : String}
    (h : piece c cs = .ok p) (hp : p.lexeme? = some (.ident name)) : Name.isIdent name := by
  unfold piece at h
  split at h
  · cases h
    cases hp
  split at h
  · cases h
    cases hp
  split at h
  · split at h <;> cases h
    cases hp
  split at h
  · dsimp only at h
    split at h <;> cases h
    cases hp
  split at h
  · rename_i hstart
    cases h
    cases hp
    rw [Name.isIdent, String.toList_ofList, Name.isIdentChars, hstart, List.all_takeWhile]
    rfl
  · split at h <;> cases h
    cases hp

/-- Every name among the tokens that are cut from a text is an identifier. -/
theorem isIdent_of_tokensFrom {count : Nat} : ∀ {offset : Nat} {cs : List Char} {ts : List Token},
    tokensFrom count offset cs = .ok ts → ∀ t ∈ ts, ∀ name, t.lexeme = .ident name →
      Name.isIdent name := by
  induction count with
  | zero =>
      intro offset cs ts h
      cases h
      nofun
  | succ count ih =>
      intro offset cs ts h
      cases cs with
      | nil =>
          cases h
          nofun
      | cons c cs =>
          rw [tokensFrom] at h
          split at h
          · cases h
          rename_i p hp
          split at h
          · cases h
          rename_i us hus
          split at h
          · cases h
            exact ih hus
          · rename_i l hl
            cases h
            refine List.forall_mem_cons.mpr ⟨?_, ih hus⟩
            rintro name rfl
            exact isIdent_of_piece hp hl

/-- The tokens of a text are clean. -/
theorem clean_of_tokens {text : String} {ts : List Token} (h : tokens text = .ok ts) (stop : Nat) :
    Stream.Clean ⟨ts, stop⟩ := by
  intro name hname
  obtain ⟨t, ht, hl⟩ := List.mem_map.mp hname
  exact isIdent_of_tokensFrom h t ht name hl

/-- A stream with no tokens but those of a clean stream is clean. -/
theorem Stream.Clean.of_subset {s t : Stream} (h : s.Clean) (hsub : t.tokens ⊆ s.tokens) :
    t.Clean :=
  fun name hname => h name (List.map_subset _ hsub hname)

/-! ### Rules

Readers are put together in few ways, and for each there is a rule. A lemma on a reader unfolds it
once and applies the rules in the order of its steps. -/

variable {α β : Type} {post : α → Prop}

/-- On every clean stream, what the reader gives satisfies `post`, and what it leaves is clean. -/
def Ensures (p : Parser α) (post : α → Prop) : Prop :=
  ∀ s a s', s.Clean → p s = .ok (a, s') → post a ∧ s'.Clean

/-- A reader that takes nothing ensures what holds of the value it gives. -/
theorem Ensures.pure {a : α} (h : post a) : Ensures (Pure.pure a) post := by
  intro s _ _ hs hp
  cases hp
  exact ⟨h, hs⟩

/-- A reader that always fails ensures anything. -/
theorem Ensures.fail {c : Complaint} : Ensures (Parser.fail c) post := by
  intro _ _ _ _ hp
  cases hp

/-- A sequence of readers. -/
theorem Ensures.bind {p : Parser α} {f : α → Parser β} {post' : β → Prop} (hp : Ensures p post)
    (hf : ∀ a, post a → Ensures (f a) post') : Ensures (p >>= f) post' := by
  intro s b s'' hs h
  rw [Parser.run_bind] at h
  obtain ⟨⟨a, s'⟩, hr, h⟩ := bind_eq_ok.mp h
  obtain ⟨ha, hs'⟩ := hp s a s' hs hr
  exact hf a ha s' b s'' hs' h

/-- A sequence of readers of which the first gives nothing to know about. -/
theorem Ensures.seq {p : Parser α} {f : α → Parser β} {post' : β → Prop}
    (hp : Ensures p fun _ => True) (hf : ∀ a, Ensures (f a) post') : Ensures (p >>= f) post' :=
  hp.bind fun a _ => hf a

/-- What a reader ensures may be weakened. -/
theorem Ensures.mono {p : Parser α} {post' : α → Prop} (hp : Ensures p post)
    (h : ∀ a, post a → post' a) : Ensures p post' :=
  fun s a s' hs hr => (hp s a s' hs hr).imp_left (h a)

/-! ### The token that comes next

Some readers decide by the next token what to take, and what they give depends on it. A statement on
these names the token. -/

/-- On every clean stream that begins with `l?`, what the reader gives satisfies `post`, and what it
leaves is clean. -/
def EnsuresAt (l? : Option Lexeme) (p : Parser α) (post : α → Prop) : Prop :=
  ∀ s a s', s.Clean → s.lexemes.head? = l? → p s = .ok (a, s') → post a ∧ s'.Clean

/-- What holds on every clean stream holds on those that begin with one token. -/
theorem Ensures.at {p : Parser α} (hp : Ensures p post) (l? : Option Lexeme) :
    EnsuresAt l? p post :=
  fun s a s' hs _ => hp s a s' hs

/-- What a reader ensures for each token that may come next, it ensures. -/
theorem ensures_of_at {p : Parser α} (hp : ∀ l?, EnsuresAt l? p post) : Ensures p post :=
  fun s a s' hs => hp _ s a s' hs rfl

section next

variable {l? : Option Lexeme} {post' : β → Prop}

/-- The token that comes next is known only to the first of two readers in sequence. -/
theorem EnsuresAt.bind {p : Parser α} {f : α → Parser β} (hp : EnsuresAt l? p post)
    (hf : ∀ a, post a → Ensures (f a) post') : EnsuresAt l? (p >>= f) post' := by
  intro s b s'' hs hhead h
  rw [Parser.run_bind] at h
  obtain ⟨⟨a, s'⟩, hr, h⟩ := bind_eq_ok.mp h
  obtain ⟨ha, hs'⟩ := hp s a s' hs hhead hr
  exact hf a ha s' b s'' hs' h

/-- What a reader ensures for one next token may be weakened. -/
theorem EnsuresAt.mono {p : Parser α} {post₂ : α → Prop} (hp : EnsuresAt l? p post)
    (h : ∀ a, post a → post₂ a) : EnsuresAt l? p post₂ :=
  fun s a s' hs hhead hr => (hp s a s' hs hhead hr).imp_left (h a)

/-- Looking at the next token. -/
theorem ensuresAt_peek {f : Option Lexeme → Parser β}
    (h : (∀ name, l? = some (.ident name) → Name.isIdent name) → EnsuresAt l? (f l?) post') :
    EnsuresAt l? (Parser.peek >>= f) post' := by
  rintro s b s' hs rfl hr
  have hfound : (Parser.peek >>= f) s = f s.lexemes.head? s := by
    rw [Stream.lexemes, List.head?_map]
    rfl
  rw [hfound] at hr
  exact h (fun name hname => hs name (List.mem_of_mem_head? hname)) s b s' hs rfl hr

/-- Looking at the token after the next. -/
theorem ensuresAt_peekSecond {f : Option Lexeme → Parser β}
    (h : ∀ second, EnsuresAt l? (f second) post') :
    EnsuresAt l? (Parser.peekSecond >>= f) post' :=
  fun s b s' hs hhead hr => h _ s b s' hs hhead hr

/-- A token is taken exactly if it comes next. -/
theorem Parser.run_eat (l : Lexeme) (s : Stream) : Parser.eat l s =
    if s.lexemes.head? = some l then .ok (true, { s with tokens := s.tokens.tail })
    else .ok (false, s) := by
  have hfound : Parser.eat l s = (if s.lexemes.head? = some l then do
      Parser.advance
      pure true
    else pure false : Parser Bool) s := by
    rw [Stream.lexemes, List.head?_map]
    rfl
  rw [hfound]
  split <;> rfl

/-- Taking a token if it comes next. -/
theorem ensuresAt_eat {l : Lexeme} {f : Bool → Parser β}
    (hyes : l? = some l → Ensures (f true) post')
    (hno : l? ≠ some l → EnsuresAt l? (f false) post') :
    EnsuresAt l? (Parser.eat l >>= f) post' := by
  rintro s b s' hs rfl hr
  rw [Parser.run_bind, Parser.run_eat] at hr
  by_cases hl : s.lexemes.head? = some l
  · rw [if_pos hl] at hr
    exact hyes hl _ b s' (hs.of_subset fun t ht => List.mem_of_mem_tail ht) hr
  · rw [if_neg hl] at hr
    exact hno hl s b s' hs rfl hr

end next

/-! ### Looking and moving -/

/-- A name that comes next is an identifier. -/
theorem ensures_peek :
    Ensures Parser.peek fun found => ∀ name, found = some (.ident name) → Name.isIdent name := by
  intro s _ _ hs h
  cases h
  refine ⟨fun name hname => hs name ?_, hs⟩
  obtain ⟨t, ht, hl⟩ := Option.map_eq_some_iff.mp hname
  exact List.mem_map.mpr ⟨t, List.mem_of_mem_head? ht, hl⟩

/-- The second token of a clean stream is an identifier if it is a name. -/
theorem ensures_peekSecond :
    Ensures Parser.peekSecond fun found => ∀ name, found = some (.ident name) →
      Name.isIdent name := by
  intro s _ _ hs h
  cases h
  refine ⟨fun name hname => hs name ?_, hs⟩
  obtain ⟨t, ht, hl⟩ := Option.map_eq_some_iff.mp hname
  exact List.mem_map.mpr ⟨t, List.mem_of_mem_drop (List.mem_of_mem_head? ht), hl⟩

/-- Leaving out a token keeps a stream clean. -/
theorem ensures_advance : Ensures Parser.advance fun _ => True := by
  intro s _ _ hs h
  cases h
  exact ⟨trivial, hs.of_subset fun t ht => List.mem_of_mem_tail ht⟩

theorem ensures_remaining : Ensures Parser.remaining fun _ => True := by
  intro s _ _ hs h
  cases h
  exact ⟨trivial, hs⟩

/-- The complaint about a token gives nothing, so it ensures anything. -/
theorem ensures_unexpected {wanted : String} : Ensures (Parser.unexpected wanted) post :=
  ensures_peek.bind fun _ _ => .fail

/-! ### Single tokens -/

/-- Taking a token if it is there keeps a stream clean. -/
theorem ensures_eat {l : Lexeme} : Ensures (Parser.eat l) fun _ => True := by
  unfold Parser.eat
  refine ensures_peek.bind fun found _ => ?_
  split
  · exact ensures_advance.seq fun _ => .pure trivial
  · exact .pure trivial

theorem ensures_expect {l : Lexeme} : Ensures (Parser.expect l) fun _ => True := by
  unfold Parser.expect
  refine ensures_eat.seq fun eaten => ?_
  split
  · exact .pure trivial
  · exact ensures_unexpected

/-- The reader of names gives the name that comes next. -/
theorem ensuresAt_ident {l? : Option Lexeme} :
    EnsuresAt l? Parser.ident fun name => l? = some (.ident name) ∧ Name.isIdent name := by
  unfold Parser.ident
  refine ensuresAt_peek fun hname => ?_
  split
  · exact (ensures_advance.seq fun _ => .pure ⟨rfl, hname _ rfl⟩).at _
  · exact ensures_unexpected.at _

/-- The names that are read are identifiers. -/
theorem ensures_ident : Ensures Parser.ident fun name => Name.isIdent name :=
  ensures_of_at fun _ => ensuresAt_ident.mono fun _ => And.right

theorem ensures_string : Ensures Parser.string fun _ => True := by
  unfold Parser.string
  refine ensures_peek.bind fun found _ => ?_
  split
  · split
    · exact .fail
    · exact ensures_advance.seq fun _ => .pure trivial
  · exact ensures_unexpected

theorem ensures_name : Ensures Parser.name fun _ => True := by
  unfold Parser.name
  refine ensures_peek.bind fun found _ => ?_
  split
  · exact ensures_string
  · exact ensures_ident.mono fun _ _ => trivial

/-! ### Paths -/

namespace Parser.Path

/-- The names in a path are type names. -/
def Valid : Parser.Path → Prop
  | .type name => Name.isTypeName name
  | .uid u => u.isValid

/-- The first segment of a path. -/
def first? : Parser.Path → Option String
  | .type name => (Name.segments name).head?
  | .uid u => (Name.segments u.type).head?

end Parser.Path

/-- A path goes on behind its first segment. -/
theorem ensures_pathRest {first : String} {count : Nat} : ∀ {soFar : String},
    Name.isTypeName soFar → (Name.segments soFar).head? = some first →
    Ensures (Parser.pathRest count soFar) fun p => p.Valid ∧ p.first? = some first := by
  induction count with
  | zero => exact fun h hfirst => .pure ⟨h, hfirst⟩
  | succ count ih =>
      intro soFar h hfirst
      unfold Parser.pathRest
      refine ensures_peek.bind fun found _ => ?_
      split
      · refine ensures_peekSecond.bind fun second hsecond => ?_
        split
        · have hs := hsecond _ rfl
          refine ensures_advance.seq fun _ => ensures_advance.seq fun _ =>
            ih (Name.isTypeName_extend h hs) ?_
          rw [← Name.extend, Name.segments_extend h hs, List.head?_append, hfirst, Option.some_or]
        · exact ensures_advance.seq fun _ => ensures_string.seq fun id => .pure ⟨h, hfirst⟩
        · exact ensures_advance.seq fun _ => ensures_unexpected
      · exact .pure ⟨h, hfirst⟩

/-- A path begins with the name that comes next. -/
theorem ensuresAt_path {l? : Option Lexeme} : EnsuresAt l? Parser.path fun p =>
    p.Valid ∧ ∃ first, l? = some (.ident first) ∧ p.first? = some first := by
  unfold Parser.path
  refine ensuresAt_ident.bind fun first hfirst => ensures_remaining.seq fun count => ?_
  refine (ensures_pathRest (Name.isTypeName_of_isIdent hfirst.2) ?_).mono fun p hp =>
    ⟨hp.1, first, hfirst.1, hp.2⟩
  rw [Name.segments_of_isIdent hfirst.2, List.head?_cons]

/-- The paths that are read are type names, or uids of such. -/
theorem ensures_path : Ensures Parser.path Parser.Path.Valid :=
  ensures_of_at fun _ => ensuresAt_path.mono fun _ => And.left

/-- A type name that was read is one. -/
theorem ensures_typeName : Ensures Parser.typeName fun name => Name.isTypeName name := by
  unfold Parser.typeName
  refine ensures_path.bind fun found hfound => ?_
  split
  · exact .pure hfound
  · exact .fail

/-- A uid that was read is valid. -/
theorem ensures_uid : Ensures Parser.uid fun u => u.isValid := by
  unfold Parser.uid
  refine ensures_path.bind fun found hfound => ?_
  split
  · exact .pure hfound
  · exact .fail

/-! ### Lists -/

section lists

variable {close : Symbol} {item : Parser α}

/-- What the reader of one item ensures holds of every item of a list. -/
theorem ensures_itemsUntil (hitem : Ensures item post) {count : Nat} :
    Ensures (Parser.itemsUntil close item count) fun xs => ∀ x ∈ xs, post x := by
  induction count with
  | zero => exact ensures_unexpected
  | succ count ih =>
      unfold Parser.itemsUntil
      refine hitem.bind fun x hx => ensures_eat.seq fun closed => ?_
      split
      · exact .pure (List.forall_mem_singleton.mpr hx)
      · exact ensures_expect.seq fun _ => ih.bind fun xs hxs =>
          .pure (List.forall_mem_cons.mpr ⟨hx, hxs⟩)

/-- What holds of every item that is read holds of the items of a list. -/
theorem ensures_listUntil (hitem : Ensures item post) :
    Ensures (Parser.listUntil close item) fun xs => ∀ x ∈ xs, post x := by
  unfold Parser.listUntil
  refine ensures_eat.seq fun closed => ?_
  split
  · exact .pure nofun
  · exact ensures_remaining.seq fun count => ensures_itemsUntil hitem

end lists

/-! ### Whole texts -/

/-- What a reader ensures of its result holds of what it makes of a whole text. -/
theorem post_of_readText {p : Parser (Except Error α)}
    (hp : Ensures p fun r => ∀ a, r = .ok a → post a)
    {text : String} {a : α} (h : readText text p = .ok a) : post a := by
  unfold readText at h
  split at h
  · cases h
  · rename_i ts hts
    unfold readTokens at h
    split at h
    · cases h
    · rename_i r s' hr
      exact (hp _ _ _ (clean_of_tokens hts _) hr).1 a h

/-- What a reader ensures holds of what it makes of a text up to its end. -/
theorem post_of_readAll {p : Parser α} (hp : Ensures p post) {text lead : String} {a : α}
    (h : readAll text lead p = .ok a) : post a := by
  refine post_of_readText (hp.bind fun a ha => Ensures.seq ?_ fun _ => .pure ?_) h
  · unfold Parser.expectEnd
    refine ensures_peek.bind fun found _ => ?_
    split
    · exact .pure trivial
    · exact .fail
  · rintro _ ⟨⟩
    exact ha

end AccessPolicy.Grammar
