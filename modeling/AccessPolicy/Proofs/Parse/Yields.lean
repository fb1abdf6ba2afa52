import AccessPolicy.Grammar.Parser
import AccessPolicy.Proofs.Text.Name
import Mathlib.Data.List.Forall2

/-!
# What readers make of tokens

* `Yields fails p ls a ms` — on every stream with the lexemes `ls`, wherever its tokens stand, the
  reader `p` gives `a` and leaves the lexemes `ms`; where `fails` holds, it may complain about
  nesting instead.
* One lemma for each reader of `Grammar.Parser`: single tokens (`yields_eat`, `yields_ident`,
  `yields_string`), paths (`yields_typeName`, `yields_uid`) and lists (`yields_listUntil`).
-/

namespace AccessPolicy.Grammar

/-- The lexemes of a stream. -/
def Stream.lexemes (s : Stream) : List Lexeme :=
  s.tokens.map (·.lexeme)

variable {α β : Type} {fails : Prop} {l : Lexeme} {ls ms ns : List Lexeme} {a : α} {b : β}

/-- On every stream with the lexemes `ls` the reader gives `a` and leaves `ms`, or, where `fails`
holds, complains about nesting. -/
def Yields (fails : Prop) (p : Parser α) (ls : List Lexeme) (a : α) (ms : List Lexeme) : Prop :=
  ∀ s : Stream, s.lexemes = ls →
    (∃ s', p s = .ok (a, s') ∧ s'.lexemes = ms) ∨ fails ∧ ∃ offset, p s = .error ⟨offset, .nesting⟩

/-- A sequence of readers. -/
theorem Yields.bind {p : Parser α} {f : α → Parser β} (hp : Yields fails p ls a ms)
    (hf : Yields fails (f a) ms b ns) : Yields fails (p >>= f) ls b ns := by
  intro s hs
  rw [Parser.run_bind]
  rcases hp s hs with ⟨s', h, hs'⟩ | ⟨hfails, offset, h⟩
  · rw [h]
    exact hf s' hs'
  · rw [h]
    exact .inr ⟨hfails, offset, rfl⟩

/-- To take nothing leaves everything. -/
theorem yields_pure : Yields fails (pure a : Parser α) ls a ls :=
  fun s hs => .inl ⟨s, rfl, hs⟩

/-- Complaining about nesting is allowed where reading may fail. -/
theorem yields_fail (h : fails) : Yields fails (Parser.fail .nesting) ls a ms :=
  fun s _ => .inr ⟨h, s.offset, rfl⟩

/-! ### Looking and moving -/

/-- To look at the next token leaves it there. -/
theorem yields_peek : Yields fails Parser.peek ls ls.head? ls := by
  rintro s rfl
  exact .inl ⟨s, by rw [Stream.lexemes, List.head?_map]; rfl, rfl⟩

/-- To look at the token behind it does so too. -/
theorem yields_peekSecond : Yields fails Parser.peekSecond ls ls.tail.head? ls := by
  rintro s rfl
  exact .inl ⟨s, by rw [Stream.lexemes, ← List.map_tail, List.head?_map, ← List.drop_one]; rfl, rfl⟩

/-- To go on takes the next token, whatever it is. -/
theorem yields_advance : Yields fails Parser.advance (l :: ls) () ls := by
  intro s hs
  refine .inl ⟨_, rfl, ?_⟩
  rw [Stream.lexemes] at hs
  simp [Stream.lexemes, hs]

/-- How many tokens are left is how many lexemes there are. -/
theorem yields_remaining : Yields fails Parser.remaining ls ls.length ls := by
  rintro s rfl
  exact .inl ⟨s, by rw [Stream.lexemes, List.length_map]; rfl, rfl⟩

/-! ### Single tokens -/

/-- A token that may be there is taken if it is. -/
theorem yields_eat : Yields fails (Parser.eat l) (l :: ls) true ls := by
  unfold Parser.eat
  refine yields_peek.bind ?_
  rw [List.head?_cons, if_pos rfl]
  exact yields_advance.bind yields_pure

/-- A token that does not come next is left. -/
theorem yields_eat_of_ne (h : ls.head? ≠ some l) : Yields fails (Parser.eat l) ls false ls := by
  unfold Parser.eat
  refine yields_peek.bind ?_
  rw [if_neg h]
  exact yields_pure

/-- A token that has to be there is taken. -/
theorem yields_expect : Yields fails (Parser.expect l) (l :: ls) () ls := by
  unfold Parser.expect
  exact yields_eat.bind yields_pure

/-- An identifier is taken as its name. -/
theorem yields_ident {name : String} :
    Yields fails Parser.ident (.ident name :: ls) name ls := by
  unfold Parser.ident
  exact yields_peek.bind (yields_advance.bind yields_pure)

/-- The characters of a quoted text are decoded; what was encoded comes back. -/
theorem yields_string {s : List Char} :
    Yields fails Parser.string (.str (String.ofList (Quoted.encode s)) :: ls) (String.ofList s)
      ls := by
  unfold Parser.string
  refine yields_peek.bind ?_
  simp only [List.head?_cons, String.toList_ofList, Quoted.decode_encode]
  exact yields_advance.bind yields_pure

/-! ### Paths -/

/-- The segments of a path behind the first extend the name so far; then the path goes on. -/
theorem yields_segments (least : Nat) {p : Parser.Path} {ss : List String} :
    ∀ {soFar : String},
      (∀ count ≥ least, Yields fails (Parser.pathRest count (ss.foldl Name.extend soFar)) ms p ns) →
      ∀ count ≥ least + ss.length, Yields fails (Parser.pathRest count soFar)
        ((ss.flatMap fun s => [.sym .pathSep, .ident s]) ++ ms) p ns := by
  induction ss with
  | nil => exact fun h count hcount => h count hcount
  | cons s ss ih =>
      intro soFar h count hcount
      rw [List.length_cons] at hcount
      obtain ⟨count, rfl⟩ := Nat.exists_eq_add_one_of_ne_zero (n := count) (by omega)
      refine yields_peek.bind ?_
      refine yields_peekSecond.bind ?_
      refine yields_advance.bind (yields_advance.bind ?_)
      exact ih h count (by omega)

/-- Each segment after the first takes two tokens. So what is left of a text is a bound on the
segments that can still come. -/
theorem length_furtherSegments (ss : List String) :
    (ss.flatMap fun s => [Lexeme.sym .pathSep, .ident s]).length = 2 * ss.length := by
  induction ss with
  | nil => rfl
  | cons s ss ih =>
      rw [List.flatMap_cons, List.length_append, ih, List.length_cons]
      simp only [List.length_cons, List.length_nil]
      omega

/-- A type name that does not go on. -/
theorem yields_path_type {name : String} (h : ms.head? ≠ some (.sym .pathSep)) :
    Yields fails Parser.path (Name.lexemes name ++ ms) (.type name) ms := by
  obtain ⟨s, ss, hs, hl⟩ := Name.lexemes_eq_cons name
  rw [hl, List.cons_append]
  unfold Parser.path
  refine yields_ident.bind (yields_remaining.bind (yields_segments 0 ?_ _ ?_))
  · rw [Name.foldl_extend hs]
    intro count _
    cases count with
    | zero => exact yields_pure
    | succ count =>
        refine yields_peek.bind ?_
        rw [if_neg h]
        exact yields_pure
  · rw [List.length_append, length_furtherSegments]
    omega

/-- A path that goes on with a quoted text is a uid. -/
theorem yields_path_uid (u : Uid) :
    Yields fails Parser.path (u.lexemes ++ ms) (.uid u) ms := by
  obtain ⟨s, ss, hs, hl⟩ := Name.lexemes_eq_cons u.type
  rw [Uid.lexemes, hl, List.append_assoc, List.cons_append]
  unfold Parser.path
  refine yields_ident.bind (yields_remaining.bind (yields_segments 1 ?_ _ ?_))
  · rw [Name.foldl_extend hs]
    intro count hcount
    obtain ⟨count, rfl⟩ := Nat.exists_eq_add_one_of_ne_zero (n := count) (by omega)
    refine yields_peek.bind (yields_peekSecond.bind ?_)
    refine yields_advance.bind (yields_string.bind ?_)
    rw [String.ofList_toList]
    exact yields_pure
  · rw [List.length_append, length_furtherSegments, List.length_append, List.length_cons]
    omega

/-- Where a type name is asked for, its path must not go on. -/
theorem yields_typeName {name : String} (h : ms.head? ≠ some (.sym .pathSep)) :
    Yields fails Parser.typeName (Name.lexemes name ++ ms) name ms := by
  unfold Parser.typeName
  exact (yields_path_type h).bind yields_pure

/-- Where a uid is asked for, its path must go on. -/
theorem yields_uid (u : Uid) : Yields fails Parser.uid (u.lexemes ++ ms) u ms := by
  unfold Parser.uid
  exact (yields_path_uid u).bind yields_pure

/-! ### Lists -/

/-- An item of a list: it is read in front of a comma and of the closing symbol, and does not begin
with that symbol. -/
structure ItemYields (fails : Prop) (close : Symbol) (item : Parser α) (a : α) (ls : List Lexeme) :
    Prop where
  /-- It is not empty, and does not begin with the closing symbol. -/
  head : ∃ l ls', ls = l :: ls' ∧ l ≠ .sym close
  /-- It is read. -/
  yields : ∀ ms, ms.head? = some (.sym .comma) ∨ ms.head? = some (.sym close) →
    Yields fails item (ls ++ ms) a ms

/-- Items are read one by one until the closing symbol. The count of the reader never runs out,
since each item takes a token. -/
theorem yields_itemsUntil {close : Symbol} {item : Parser α} (hclose : close ≠ .comma)
    {as : List α} {lss : List (List Lexeme)}
    (h : List.Forall₂ (ItemYields fails close item) as lss) : as ≠ [] →
    ∀ count ≥ lss.length, Yields fails (Parser.itemsUntil close item count)
      (separated (.sym .comma) lss ++ .sym close :: ms) as ms := by
  induction h with
  | nil => exact fun h => absurd rfl h
  | @cons a ls as lss ha has ih =>
      intro _ count hcount
      rw [List.length_cons] at hcount
      obtain ⟨count, rfl⟩ := Nat.exists_eq_add_one_of_ne_zero (n := count) (by omega)
      rw [Parser.itemsUntil]
      cases has with
      | nil =>
          rw [separated, List.flatMap_nil, List.append_nil]
          exact (ha.yields _ (.inr rfl)).bind (yields_eat.bind yields_pure)
      | @cons a' ls' as lss ha' has =>
          have hsep : separated (.sym .comma) (ls :: ls' :: lss) ++ .sym close :: ms =
              ls ++ .sym .comma :: (separated (.sym .comma) (ls' :: lss) ++ .sym close :: ms) := by
            simp [separated]
          rw [hsep]
          refine (ha.yields _ (.inl rfl)).bind ?_
          refine (yields_eat_of_ne ?_).bind (yields_expect.bind ?_)
          · simpa using hclose.symm
          · exact (ih (List.cons_ne_nil _ _) count (by omega)).bind yields_pure

/-- A list of items is no longer than its tokens. -/
theorem length_separated {l : Lexeme} {R : α → List Lexeme → Prop} {as : List α}
    {lss : List (List Lexeme)} (h : List.Forall₂ R as lss)
    (hne : ∀ a ls, R a ls → ∃ l ls', ls = l :: ls') :
    lss.length ≤ (separated l lss).length := by
  have rest : ∀ {as : List α} {lss : List (List Lexeme)}, List.Forall₂ R as lss →
      lss.length ≤ (lss.flatMap (l :: ·)).length := by
    intro as lss h
    induction h with
    | nil => exact Nat.le_refl _
    | cons ha _ ih =>
        simp only [List.flatMap_cons, List.length_append, List.length_cons]
        omega
  cases h with
  | nil => exact Nat.le_refl _
  | cons ha has =>
      obtain ⟨l, ls', rfl⟩ := hne _ _ ha
      have := rest has
      simp only [separated, List.length_append, List.length_cons]
      omega

/-- Items with commas between them, up to the closing symbol. -/
theorem yields_listUntil {close : Symbol} {item : Parser α} (hclose : close ≠ .comma) {as : List α}
    {lss : List (List Lexeme)} (h : List.Forall₂ (ItemYields fails close item) as lss) :
    Yields fails (Parser.listUntil close item) (separated (.sym .comma) lss ++ .sym close :: ms) as
      ms := by
  unfold Parser.listUntil
  cases h with
  | nil => exact yields_eat.bind yields_pure
  | @cons a ls as lss ha has =>
      have hne : ∀ a ls, ItemYields fails close item a ls → ∃ l ls', ls = l :: ls' := by
        intro a ls h
        obtain ⟨l, ls', hls, -⟩ := h.head
        exact ⟨l, ls', hls⟩
      have hlen := length_separated (l := .sym .comma) (.cons ha has) hne
      obtain ⟨l, ls', hls, hl⟩ := ha.head
      have hhead : (separated (.sym .comma) (ls :: lss) ++ .sym close :: ms).head? ≠
          some (.sym close) := by
        simpa [separated, hls] using hl
      refine (yields_eat_of_ne hhead).bind (yields_remaining.bind ?_)
      refine yields_itemsUntil hclose (.cons ha has) (List.cons_ne_nil _ _) _ ?_
      rw [List.length_append]
      omega

end AccessPolicy.Grammar
