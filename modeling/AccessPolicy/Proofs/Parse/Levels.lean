import AccessPolicy.Proofs.Parse.Yields
import AccessPolicy.Proofs.Print.Legible

/-!
# Levels of the grammar

The grammar of expressions has one reader for each level of binding. An expression that binds like a
level or more tightly stands there as it is, any other one in parentheses.

* `reader room least` — the reader for the level `least`, with `room` levels of nesting left.
* `tightness l` — the level at which a token would be read on behind an expression; a reader stops
  in front of a token that is less tight.
* `Reads`, `Chains`, `Members` — the tokens of an expression are read at a level, as the beginning
  of a chain, and as the beginning of member accesses, unless it is too deep for the levels of
  nesting that are left (`Deep`).
* **An expression is read at every level where it can stand** (`Good.of_own`), if it is at the level
  of its binding: readers of looser levels pass it on, and those of tighter levels find it in
  parentheses.
* `Inside e` — the operands of an expression are read in their places.
-/

namespace AccessPolicy.Grammar

open AccessPolicy.Expr

/-! ### Readers -/

/-- The operators that make chains at a level. -/
def operatorAt : Nat → Option Lexeme → Option (Expr → Expr → Expr)
  | 1 => orOperator
  | 2 => andOperator
  | 4 => sumOperator
  | 5 => productOperator
  | _ => fun _ => none

/-- The reader of products. -/
def products (room : Nat) : Parser Expr :=
  chained productOperator (unary room)

/-- The reader of sums. -/
def sums (room : Nat) : Parser Expr :=
  chained sumOperator (products room)

/-- The reader of conjunctions. -/
def conjunctions (room : Nat) : Parser Expr :=
  chained andOperator (relation (sums room))

/-- The reader for a level, with `room` levels of nesting left. -/
def reader (room : Nat) : (least : Nat) → Parser Expr
  | 0 => expr (room + 1)
  | 1 => disjunction (unary room)
  | 2 => conjunctions room
  | 3 => relation (sums room)
  | 4 => sums room
  | 5 => products room
  | _ => unary room

/-- Whether a level is one of chains. -/
def isChainLevel (least : Nat) : Prop :=
  least = 1 ∨ least = 2 ∨ least = 4 ∨ least = 5

/-- **At a level of chains**, operands are read by the next level. -/
theorem reader_chain {room least : Nat} (h : isChainLevel least) :
    reader room least = chained (operatorAt least) (reader room (least + 1)) := by
  rcases h with rfl | rfl | rfl | rfl <;> rfl

/-- The level at which a token would be read on behind an expression. -/
def tightness : Option Lexeme → Nat
  | some (.sym s) =>
    match s with
    | .orOr => 1
    | .andAnd => 2
    | .eqEq | .notEq | .less | .lessEq | .greater | .greaterEq => 3
    | .plus | .minus => 4
    | .star => 5
    | .dot | .openBracket => 7
    | .pathSep | .openParen => 8
    | _ => 0
  | some (.ident word) => if ["in", "has", "like", "is"].contains word then 3 else 0
  | _ => 0

variable {l? : Option Lexeme}

/-- A token that is less tight than a level is no operator there. -/
theorem operatorAt_eq_none {least : Nat} (h : tightness l? < least) :
    operatorAt least l? = none := by
  rcases l? with _ | (word | body | n | s)
  case some.sym =>
    unfold operatorAt
    split <;> first | rfl | (cases s <;> first | rfl | exact absurd h (by decide))
  all_goals
    unfold operatorAt
    split <;> rfl

/-- A token that would be read on does not come next. -/
theorem ne_of_tightness_lt {least : Nat} {l : Lexeme} (h : tightness l? < least)
    (hl : least ≤ tightness (some l)) : l? ≠ some l := by
  rintro rfl
  exact absurd h (Nat.not_lt_of_le hl)

/-! ### Operators of chains -/

/-- An operator joins expressions at a level of chains. -/
structure Joins (least : Nat) (l : Lexeme) (join : Expr → Expr → Expr) : Prop where
  /-- The level is one of chains. -/
  level : isChainLevel least
  /-- Its token joins expressions. -/
  operator : operatorAt least (some l) = some join
  /-- Its token is read at the level. -/
  tight : tightness (some l) = least
  /-- What it makes binds like the level. -/
  binding : ∀ a b, (join a b).binding = least
  /-- It adds no names. -/
  legible : ∀ a b, (join a b).isLegibleHere
  /-- Only its left operand may be made by it without parentheses. -/
  placed : ∀ a b, (join a b).placed = [⟨least, 0, a⟩, ⟨least + 1, 0, b⟩]
  /-- Its token stands between the operands. -/
  lexemes : ∀ a b, (join a b).lexemes =
    wrapped a.binding least a.lexemes ++ l :: wrapped b.binding (least + 1) b.lexemes

/-- Disjunctions are chains of the first level. -/
theorem joins_or : Joins 1 (.sym .orOr) .or :=
  ⟨.inl rfl, rfl, rfl, fun _ _ => rfl, fun _ _ => rfl, fun _ _ => rfl, fun _ _ => by rw [lexemes]⟩

/-- Conjunctions are chains of the second level. -/
theorem joins_and : Joins 2 (.sym .andAnd) .and :=
  ⟨.inr (.inl rfl), rfl, rfl, fun _ _ => rfl, fun _ _ => rfl, fun _ _ => rfl,
    fun _ _ => by rw [lexemes]⟩

/-- Sums are chains of the fourth level; the third one is for relations, which make no chains. -/
theorem joins_add : Joins 4 (.sym .plus) (.binary .add) :=
  ⟨.inr (.inr (.inl rfl)), rfl, rfl, fun _ _ => rfl, fun _ _ => rfl, fun _ _ => rfl,
    lexemes_operator rfl⟩

/-- Differences are chains of the level of sums. -/
theorem joins_sub : Joins 4 (.sym .minus) (.binary .sub) :=
  ⟨.inr (.inr (.inl rfl)), rfl, rfl, fun _ _ => rfl, fun _ _ => rfl, fun _ _ => rfl,
    lexemes_operator rfl⟩

/-- Products are chains of the fifth level. -/
theorem joins_mul : Joins 5 (.sym .star) (.binary .mul) :=
  ⟨.inr (.inr (.inr rfl)), rfl, rfl, fun _ _ => rfl, fun _ _ => rfl, fun _ _ => rfl,
    lexemes_operator rfl⟩

/-- What joins expressions at a level is one of its operators. -/
theorem joins_of_operatorAt {least : Nat} {join : Expr → Expr → Expr}
    (h : operatorAt least l? = some join) : ∃ l, Joins least l join := by
  unfold operatorAt at h
  split at h
  · unfold orOperator at h
    split at h <;> cases h
    exact ⟨_, joins_or⟩
  · unfold andOperator at h
    split at h <;> cases h
    exact ⟨_, joins_and⟩
  · unfold sumOperator at h
    split at h <;> cases h
    · exact ⟨_, joins_add⟩
    · exact ⟨_, joins_sub⟩
  · unfold productOperator at h
    split at h <;> cases h
    exact ⟨_, joins_mul⟩
  · cases h

/-! ### Reading at a level

The three predicates say of an expression how its tokens are read, whatever stands behind them. They
are stated with what is read on, for the reader of a chain takes the operands behind the first one
itself. -/

/-- An expression is too deep to be read at a level with `room` levels of nesting left. -/
def Deep (room : Nat) (e : Expr) (least : Nat) : Prop :=
  room < need e least ∨ nestingLimit < e.depth

/-- What contains an expression that is too deep is too deep itself. -/
theorem Deep.of_placed {e a : Expr} {room least extra : Nat} (h : Deep room a least)
    (hp : ⟨least, extra, a⟩ ∈ e.placed) (k : Nat) : Deep (room + extra) e k := by
  have hlevels : raised a.binding least a.nesting + extra ≤ e.nesting := nesting_le_of_mem_placed hp
  have hdepth := depth_lt_of_mem_placed hp
  rcases h with h | h
  · refine .inl (Nat.lt_of_lt_of_le ?_ (need_mono (Nat.zero_le k)))
    rw [need_of_le (Nat.zero_le _)]
    unfold need at h
    omega
  · exact .inr (by omega)

/-- The tokens of an expression are read at a level, in front of a token that is not read there. -/
def Reads (e : Expr) (least : Nat) : Prop :=
  ∀ ⦃fails : Prop⦄ ⦃room : Nat⦄ ⦃ms : List Lexeme⦄, (Deep room e least → fails) →
    tightness ms.head? < max least 1 →
    Yields fails (reader room least) (wrapped e.binding least e.lexemes ++ ms) e ms

/-- The tokens of an expression are read at a level of chains, and the chain goes on with what
follows; no more links of it are taken than the expression is deep. -/
def Chains (e : Expr) (least : Nat) : Prop :=
  ∀ ⦃fails : Prop⦄ ⦃room : Nat⦄ ⦃ms ns : List Lexeme⦄ ⦃whole : Expr⦄,
    (Deep room e least → fails) → tightness ms.head? ≤ least →
    (∀ links, nestingLimit ≤ links + e.depth →
      Yields fails (chain (operatorAt least) (reader room (least + 1)) links e) ms whole ns) →
    Yields fails (reader room least) (wrapped e.binding least e.lexemes ++ ms) whole ns

/-- The tokens of an expression are read in front of the members that follow. -/
def Members (e : Expr) : Prop :=
  ∀ ⦃fails : Prop⦄ ⦃room : Nat⦄ ⦃ms ns : List Lexeme⦄ ⦃whole : Expr⦄,
    (Deep (room + 1) e 7 → fails) → tightness ms.head? < 8 →
    (∀ links, nestingLimit ≤ links + e.depth →
      Yields fails (members (expr room) links e) ms whole ns) →
    Yields fails (do members (expr room) nestingLimit (← primary (expr room)))
      (wrapped e.binding 7 e.lexemes ++ ms) whole ns

section levels

variable {e : Expr} {fails : Prop} {ms : List Lexeme}

/-- A level more makes a difference only to the expressions that bind exactly like the level. -/
theorem wrapped_succ {binding least : Nat} (h : binding ≠ least) (ls : List Lexeme) :
    wrapped binding (least + 1) ls = wrapped binding least ls := by
  have hlt : binding < least + 1 ↔ binding < least := by omega
  simp only [wrapped, hlt]

/-- So it makes no other expression too deep. -/
theorem deep_succ {room least : Nat} (h : e.binding ≠ least) :
    Deep room e (least + 1) ↔ Deep room e least := by
  rw [Deep, Deep, need_succ h]

/-- With no nesting left nothing can be read. -/
theorem deep_zero (e : Expr) (least : Nat) : Deep 0 e least :=
  .inl (need_pos e least)

/-! ### Stopping

A reader stops in front of a token that belongs to a looser level. This is what makes it pass on an
expression of a tighter level as it is. -/

/-- A chain ends in front of a token that is less tight than its operators. -/
theorem yields_chain_stop {least links : Nat} {operand : Parser Expr}
    (h : tightness ms.head? < least) :
    Yields fails (chain (operatorAt least) operand links e) ms e ms := by
  cases links <;>
    · rw [chain]
      refine yields_peek.bind ?_
      rw [operatorAt_eq_none h]
      exact yields_pure

/-- A token that is less tight than a relation begins none: it is no comparison and none of the
words for tests. -/
theorem relation_stop (h : tightness l? < 3) :
    relationOp? l? = none ∧ l? ≠ some (.ident "has") ∧ l? ≠ some (.ident "like") ∧
      l? ≠ some (.ident "is") ∧ l? ≠ some (.ident "in") := by
  refine ⟨?_, ne_of_tightness_lt h (by decide), ne_of_tightness_lt h (by decide),
    ne_of_tightness_lt h (by decide), ne_of_tightness_lt h (by decide)⟩
  unfold relationOp?
  split <;> first | rfl | exact absurd h (by decide)

/-- So the operand of a relation ends in front of such a token. -/
theorem yields_relationRest_stop {sum : Parser Expr} (h : tightness ms.head? < 3) :
    Yields fails (relationRest sum e) ms e ms := by
  obtain ⟨hop, hhas, hlike, his, -⟩ := relation_stop h
  unfold relationRest
  refine yields_peek.bind ?_
  rw [hop]
  simp only [if_neg hhas, if_neg hlike, if_neg his]
  exact yields_pure

/-- Member accesses begin with a dot or a bracket, which are as tight as can be. -/
theorem yields_members_stop {argument : Parser Expr} {links : Nat} (h : tightness ms.head? < 7) :
    Yields fails (members argument links e) ms e ms := by
  have hdot : ms.head? ≠ some (.sym .dot) := ne_of_tightness_lt h (by decide)
  have hbracket : ms.head? ≠ some (.sym .openBracket) := ne_of_tightness_lt h (by decide)
  cases links with
  | zero =>
      rw [members]
      refine yields_peek.bind ?_
      rw [if_neg (by simp [hdot, hbracket])]
      exact yields_pure
  | succ links =>
      rw [members]
      refine yields_peek.bind ?_
      rw [if_neg hdot, if_neg hbracket]
      exact yields_pure

/-! ### From level to level

The levels are climbed in the order of the readers. Between two of them nothing happens but that the
looser reader looks at the next token and stops. -/

/-- What is read at the next level begins a chain: it is the first operand, and then the chain goes
on. -/
theorem Reads.chains {least : Nat} (h : Reads e (least + 1)) (hl : isChainLevel least)
    (hb : e.binding ≠ least) : Chains e least := by
  intro fails room ms ns whole hdeep htight hrest
  rw [reader_chain hl, ← wrapped_succ hb]
  rw [← deep_succ hb] at hdeep
  have hlt : tightness ms.head? < max (least + 1) 1 := by omega
  exact (h hdeep hlt).bind (hrest nestingLimit (Nat.le_add_right _ _))

/-- What begins a chain is the whole of it in front of a token that ends the chain. -/
theorem Chains.reads {least : Nat} (h : Chains e least) (hl : isChainLevel least) :
    Reads e least := by
  intro fails room ms hdeep htight
  have hleast : tightness ms.head? < least := by
    rcases hl with rfl | rfl | rfl | rfl <;> exact htight
  exact h hdeep (Nat.le_of_lt hleast) fun links _ => yields_chain_stop hleast

/-- A sum is a relation where no relation follows. -/
theorem Reads.relation (h : Reads e 4) (hb : e.binding ≠ 3) : Reads e 3 := by
  intro fails room ms hdeep htight
  rw [← wrapped_succ hb]
  rw [← deep_succ hb] at hdeep
  exact (h hdeep (Nat.lt_of_lt_of_le htight (by decide))).bind (yields_relationRest_stop htight)

/-- A disjunction is an expression where it does not begin with `if`. -/
theorem Reads.expr (h : Reads e 1) (hb : e.binding ≠ 0) (hfull : e.Full) : Reads e 0 := by
  intro fails room ms hdeep htight
  rw [← wrapped_succ hb]
  rw [← deep_succ hb] at hdeep
  have hif : (wrapped e.binding 1 e.lexemes ++ ms).head? ≠ some (.ident "if") := by
    obtain ⟨l, ls, -, hls, -, -⟩ := opens_lexemes e
    have hhead := hfull.resolve_left hb
    rw [hls] at hhead ⊢
    rwa [wrapped, if_neg (by omega), List.cons_append]
  rw [reader, Grammar.expr]
  exact (yields_eat_of_ne hif).bind (h hdeep htight)

/-- An expression with all its members is an operand of prefixes, of which it has none. -/
theorem Members.reads (h : Members e) (hb : e.binding ≠ 6) : Reads e 6 := by
  intro fails room ms hdeep htight
  rw [← wrapped_succ hb]
  rw [← deep_succ hb] at hdeep
  cases room with
  | zero =>
      change Yields fails (unary 0) _ _ _
      rw [unary]
      exact yields_fail (hdeep (deep_zero e 7))
  | succ room =>
      have stop (links : Nat) : Yields fails (members (Grammar.expr room) links e) ms e ms :=
        yields_members_stop (Nat.lt_trans htight (by decide))
      have main := h hdeep (Nat.lt_trans htight (by decide)) fun links _ => stop links
      have hopens : Opens 7 (wrapped e.binding 7 e.lexemes ++ ms) :=
        (opens_wrapped (opens_lexemes e) (by decide)).append
      obtain ⟨l, ls, b, hls, hl, hle⟩ := hopens
      change Yields fails (unary (room + 1)) _ _ _
      rw [hls] at main ⊢
      rw [unary]
      refine yields_peek.bind ?_
      -- the token is no prefix operator, which would bind less tightly
      split
      · rename_i hbang
        cases hbang
        cases hl
        exact absurd hle (by decide)
      · rename_i hminus
        cases hminus
        cases hl
        exact absurd hle (by decide)
      · exact main

/-- A full expression in front of a token that ends it. -/
theorem Reads.full (h : Reads e 0) {room : Nat}
    (hdeep : room < need e 0 + 1 ∨ nestingLimit < e.depth → fails)
    (hms : tightness ms.head? = 0) :
    Yields fails (Grammar.expr room) (e.lexemes ++ ms) e ms := by
  cases room with
  | zero =>
      rw [Grammar.expr]
      exact yields_fail (hdeep (.inl (Nat.succ_pos _)))
  | succ room =>
      refine h (fun hdeep' => hdeep (hdeep'.imp_left Nat.succ_lt_succ)) ?_
      rw [hms]
      decide

/-- What is read as a full expression is read in parentheses. -/
theorem Reads.parens (h : Reads e 0) {room : Nat}
    (hdeep : room < need e 0 + 1 ∨ nestingLimit < e.depth → fails) :
    Yields fails (primary (Grammar.expr room)) (inParens e.lexemes ++ ms) e ms := by
  have hls : inParens e.lexemes ++ ms =
      .sym .openParen :: (e.lexemes ++ .sym .closeParen :: ms) := by
    simp [inParens]
  rw [hls]
  unfold primary
  refine yields_peek.bind (yields_advance.bind ?_)
  exact (h.full hdeep rfl).bind (yields_expect.bind yields_pure)

/-- Where an expression binds too little, it needs two levels more, for its parentheses. -/
theorem need_of_lt {least : Nat} (h : e.binding < least) : need e least = need e 0 + 2 := by
  rw [need, raised, if_pos h, need_of_le (Nat.zero_le _)]

/-- In parentheses, an expression is a primary one, and members may follow. -/
theorem Reads.members (h : Reads e 0) (hb : e.binding < 7) : Members e := by
  intro fails room ms ns whole hdeep htight hrest
  rw [wrapped, if_pos hb]
  refine (h.parens fun hdeep' => hdeep (hdeep'.imp_left fun hlt => ?_)).bind
    (hrest nestingLimit (Nat.le_add_right _ _))
  rw [need_of_lt hb]
  omega

end levels

/-! ### All levels -/

/-- The tokens of an expression are read wherever it can stand. -/
structure Good (e : Expr) : Prop where
  /-- It is read at every level. -/
  reads : ∀ least ≤ 6, e.Stands least → Reads e least
  /-- It begins chains. -/
  chains : ∀ least, isChainLevel least → e.Stands least → Chains e least
  /-- It is read in front of members. -/
  members : e.Stands 7 → Members e

/-- One step towards looser levels, for an expression that binds in another way than the level. -/
theorem reads_of_tighter {e : Expr} {least : Nat} (hleast : least ≤ 6) (hb : e.binding ≠ least)
    (hs : e.Stands least) (hnext : least < 6 → e.Stands (least + 1) → Reads e (least + 1))
    (hlast : least = 6 → e.Stands 7 → Members e) : Reads e least := by
  have hs' := hs.succ hb
  match least, hleast with
  | 0, _ => exact (hnext (by decide) hs').expr hb hs.full
  | 1, _ => exact ((hnext (by decide) hs').chains (.inl rfl) hb).reads (.inl rfl)
  | 2, _ => exact ((hnext (by decide) hs').chains (.inr (.inl rfl)) hb).reads (.inr (.inl rfl))
  | 3, _ => exact (hnext (by decide) hs').relation hb
  | 4, _ =>
      have hl : isChainLevel 4 := .inr (.inr (.inl rfl))
      exact ((hnext (by decide) hs').chains hl hb).reads hl
  | 5, _ =>
      have hl : isChainLevel 5 := .inr (.inr (.inr rfl))
      exact ((hnext (by decide) hs').chains hl hb).reads hl
  | 6, _ => exact (hlast rfl hs').reads hb

/-- **An expression is read at every level where it can stand**, if it is at the level of its
binding. -/
theorem Good.of_own {e : Expr} (hreads : e.binding ≤ 6 → Reads e e.binding)
    (hchains : isChainLevel e.binding → Chains e e.binding)
    (hmembers : 7 ≤ e.binding → Members e) : Good e := by
  -- Down from the level of the expression, which is enough for what stands in parentheses; with
  -- that, down from its members.
  have down : ∀ k least, least + k = 6 → e.Stands least →
      least ≤ e.binding ∨ (e.Stands 7 → Members e) → Reads e least := by
    intro k
    induction k with
    | zero =>
        rintro least rfl hs hstart
        by_cases hb : e.binding = 6
        · exact hb ▸ hreads (Nat.le_of_eq hb)
        · refine reads_of_tighter (Nat.le_refl 6) hb hs (by simp) fun _ => ?_
          rcases hstart with hle | hstart
          · exact fun _ => hmembers (by omega)
          · exact hstart
    | succ k ih =>
        intro least hsum hs hstart
        by_cases hb : e.binding = least
        · exact hb ▸ hreads (by omega)
        · refine reads_of_tighter (by omega) hb hs (fun _ hs' => ?_) fun h => by omega
          exact ih (least + 1) (by omega) hs' (hstart.imp_left fun hle => by omega)
  have members : e.Stands 7 → Members e := by
    intro hs
    by_cases hb : e.binding < 7
    · exact (down 6 0 rfl ((hs (.inr hb)).stands 0) (.inl (Nat.zero_le _))).members hb
    · exact hmembers (Nat.le_of_not_lt hb)
  refine ⟨fun least hle hs => down (6 - least) least (by omega) hs (.inr members),
    fun least hl hs => ?_, members⟩
  by_cases hb : e.binding = least
  · exact hb ▸ hchains (hb ▸ hl)
  · refine (down (5 - least) (least + 1) ?_ (hs.succ hb) (.inr members)).chains hl hb
    rcases hl with rfl | rfl | rfl | rfl <;> rfl

/-- Primary expressions and those with members are passed on by every other level. -/
theorem Good.of_members {e : Expr} (hb : 7 ≤ e.binding) (h : Members e) : Good e := by
  refine .of_own (fun hle => absurd hle (by omega)) (fun hl => ?_) fun _ => h
  rcases hl with hl | hl | hl | hl <;> omega

/-- What begins a chain of its level is read there; looser levels pass it on, and tighter ones find
it in parentheses. -/
theorem Good.of_chains {e : Expr} (least : Nat) (hb : e.binding = least) (hl : isChainLevel least)
    (h : Chains e least) : Good e := by
  subst hb
  refine .of_own (fun _ => h.reads hl) (fun _ => h) fun hle => ?_
  rcases hl with hl | hl | hl | hl <;> omega

/-- What is read at a level that is none of chains is passed on in the same way. -/
theorem Good.of_reads {e : Expr} (least : Nat) (hb : e.binding = least) (hl : ¬ isChainLevel least)
    (hle : least ≤ 6) (h : Reads e least) : Good e := by
  subst hb
  exact .of_own (fun _ => h) (fun hl' => absurd hl' hl) fun hle' => by omega

/-! ### Operands

In an induction on expressions all is known of the operands. `Inside` says it in terms of their
places, which is how the lemmas on operators ask for it. -/

/-- The operands of an expression are read in their places. -/
def Inside (e : Expr) : Prop :=
  ∀ p ∈ e.placed, Good p.operand ∧ p.operand.Stands p.least

namespace Inside

variable {e a : Expr} {fails : Prop} {room extra : Nat} {ms : List Lexeme}

/-- An operand is taken from its place. -/
theorem operand (h : Inside e) {least : Nat} (hp : ⟨least, extra, a⟩ ∈ e.placed) :
    Good a ∧ a.Stands least :=
  h _ hp

/-- An operand is read at the level of its place. -/
theorem reads (h : Inside e) (least : Nat) (hp : ⟨least, extra, a⟩ ∈ e.placed) (hleast : least ≤ 6)
    {k : Nat} (hdeep : Deep (room + extra) e k → fails) (hms : tightness ms.head? < max least 1) :
    Yields fails (reader room least) (wrapped a.binding least a.lexemes ++ ms) a ms := by
  obtain ⟨hgood, hstands⟩ := h.operand hp
  exact hgood.reads least hleast hstands (fun hd => hdeep (hd.of_placed hp k)) hms

/-- An operand that has to be full is too deep only if the expression around it is. -/
theorem deep_of_full (hp : ⟨0, extra + 1, a⟩ ∈ e.placed)
    (h : room < need a 0 + 1 ∨ nestingLimit < a.depth) (k : Nat) : Deep (room + extra) e k := by
  cases room with
  | zero =>
      have hlevels : raised a.binding 0 a.nesting + (extra + 1) ≤ e.nesting :=
        nesting_le_of_mem_placed hp
      have := need_mono (e := e) (Nat.zero_le k)
      rw [need_of_le (Nat.zero_le _)] at this
      exact .inl (by omega)
  | succ room =>
      have hdeep : Deep room a 0 := h.imp_left Nat.lt_of_succ_lt_succ
      have := hdeep.of_placed hp k
      rwa [← Nat.add_assoc, Nat.add_right_comm] at this

/-- An operand that has to be full is read in front of a token that ends it. -/
theorem full (h : Inside e) (extra : Nat) (hp : ⟨0, extra + 1, a⟩ ∈ e.placed) {k : Nat}
    (hdeep : Deep (room + extra) e k → fails) (hms : tightness ms.head? = 0) :
    Yields fails (expr room) (a.lexemes ++ ms) a ms := by
  obtain ⟨hgood, hstands⟩ := h.operand hp
  exact (hgood.reads 0 (by decide) hstands).full (fun hd => hdeep (deep_of_full hp hd k)) hms

end Inside

end AccessPolicy.Grammar
