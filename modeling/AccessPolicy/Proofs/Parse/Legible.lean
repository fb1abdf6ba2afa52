import AccessPolicy.Proofs.Parse.Ensures
import AccessPolicy.Proofs.Parse.Levels

/-!
# What is parsed is legible

* `Fits l? room least e` — what the reader of a level makes of tokens that begin with `l?`, with
  `room` levels of nesting left: the text of `e` can be read at the level again, and if `e` is
  compact, the levels that are left are enough for it.
* `Fits.of_left` — what an operator makes fits if its operands do.
* **Expressions** (`ensures_bounded`): every condition that is read is legible, and its tree is not
  too deep; a compact one is read back within the bounds on nesting.
-/

namespace AccessPolicy.Grammar

open AccessPolicy.Expr Grammar.Parser

/-! ### What readers make -/

/-- What the reader of a level makes of tokens that begin with `l?`, with `room` levels of nesting
left. -/
structure Fits (l? : Option Lexeme) (room least : Nat) (e : Expr) : Prop where
  /-- Its parts can be read in their places. -/
  legible : e.Legible
  /-- It can be read at the level. -/
  stands : e.Stands least
  /-- It can be read as a full expression, unless its source begins like a condition. -/
  full : l? ≠ some (.ident "if") → e.Full
  /-- There is a level for it. -/
  pos : 0 < room
  /-- A compact expression takes no more levels than its source; a negative number does in front of
  members. -/
  nesting : e.Compact → e.isNegative = false → need e least ≤ room

/-- What the reader of full expressions makes. -/
structure FitsFull (room : Nat) (e : Expr) : Prop where
  /-- Its parts can be read in their places. -/
  legible : e.Legible
  /-- It can be read as a full expression. -/
  full : e.Full
  /-- A compact expression takes no more levels than its source. -/
  nesting : e.Compact → need e 0 < room

/-- What was read for a place of an expression. -/
structure FitsIn (room : Nat) (e : Expr) (p : Place) : Prop where
  /-- Its parts can be read in their places. -/
  legible : p.operand.Legible
  /-- It can be read in its place. -/
  stands : p.operand.Stands p.least
  /-- There are levels enough for the place. -/
  nesting : e.isCompactHere → p.operand.Compact → p.nesting < room

section fits

variable {l? : Option Lexeme} {room least : Nat} {e o : Expr}

/-- Looser levels take what fits a tighter one. -/
theorem Fits.of_succ (h : Fits l? room (least + 1) e) (hleast : 0 < least) : Fits l? room least e :=
  ⟨h.legible, h.stands.of_succ hleast, h.full, h.pos, fun hc hneg =>
    Nat.le_trans (need_mono (Nat.le_succ least)) (h.nesting hc hneg)⟩

/-- A negative number needs no parentheses at levels other than that of members. -/
theorem Fits.need_le (h : Fits l? room least e) (hleast : least ≤ 6) (hc : e.Compact) :
    need e least ≤ room := by
  cases hneg : e.isNegative with
  | false => exact h.nesting hc hneg
  | true =>
      unfold isNegative at hneg
      split at hneg
      · rename_i n
        have hb : least ≤ binding (.lit (.long n)) := by
          simpa [binding, of_decide_eq_true hneg] using hleast
        rw [need_of_le hb]
        exact h.pos
      · cases hneg

/-- What the reader of a level makes may stand in a place for that level. -/
theorem Fits.inside (h : Fits l? room least o) (hleast : least ≤ 6) (extra : Nat) :
    FitsIn (room + extra) e ⟨least, extra, o⟩ := by
  refine ⟨h.legible, h.stands, fun _ hc => ?_⟩
  have := h.need_le hleast hc
  unfold need at this
  have hlevels : Place.nesting ⟨least, extra, o⟩ = raised o.binding least o.nesting + extra := rfl
  omega

/-- What stands in front of a member. -/
theorem Fits.receiver (h : Fits l? room 7 o) (hneg : e.isCompactHere → o.isNegative = false) :
    FitsIn room e ⟨7, 0, o⟩ :=
  ⟨h.legible, h.stands, fun hhere hc => h.nesting hc (hneg hhere)⟩

/-- What the reader of full expressions makes may stand between brackets, which take a level of
nesting. -/
theorem FitsFull.inside (h : FitsFull room o) (extra : Nat) :
    FitsIn (room + extra) e ⟨0, extra + 1, o⟩ := by
  refine ⟨h.legible, h.full.stands 0, fun _ hc => ?_⟩
  have := h.nesting hc
  rw [need_of_le (Nat.zero_le _)] at this
  have hlevels : Place.nesting ⟨0, extra + 1, o⟩ = o.nesting + (extra + 1) := rfl
  omega

/-- What stands in its places makes an expression legible. -/
theorem legible_of_placed (hhere : e.isLegibleHere) (hplaced : ∀ p ∈ e.placed, FitsIn room e p) :
    e.Legible :=
  .of_placed hhere fun p hp => ⟨(hplaced p hp).legible, (hplaced p hp).stands⟩

/-- **The levels that are left** are enough for the places of an expression, so they are for the
expression. -/
theorem nesting_lt_of_placed (hroom : 0 < room) (hplaced : ∀ p ∈ e.placed, FitsIn room e p)
    (hc : e.Compact) : e.nesting < room := by
  have hle : e.nesting ≤ room - 1 := by
    refine nesting_le_iff.mpr fun p hp => ?_
    have := (hplaced p hp).nesting hc.here (hc.operand (mem_operands_of_mem_placed hp))
    omega
  omega

/-- An expression fits where its binding is asked for, if its operands fit in their places. -/
theorem Fits.of_placed (hhere : e.isLegibleHere) (hroom : 0 < room) (hleast : 0 < least)
    (hb : least ≤ e.binding) (hfull : l? ≠ some (.ident "if") → e.Full)
    (hplaced : ∀ p ∈ e.placed, FitsIn room e p) : Fits l? room least e := by
  refine ⟨legible_of_placed hhere hplaced, fun h => ?_, hfull, hroom, fun hc _ => ?_⟩
  · omega
  · rw [need_of_le hb]
    exact nesting_lt_of_placed hroom hplaced hc

/-- **What an operator makes fits** if its operands fit; it begins like its left operand. -/
theorem Fits.of_left {k : Nat} (h : Fits l? room k o) {ls : List Lexeme}
    (hls : e.lexemes = wrapped o.binding k o.lexemes ++ ls) (hk : 0 < k) (hhere : e.isLegibleHere)
    (hleast : 0 < least) (hb : least ≤ e.binding) (hplaced : ∀ p ∈ e.placed, FitsIn room e p) :
    Fits l? room least e :=
  .of_placed hhere h.pos hleast hb (fun hl => (h.full hl).of_left k hls hk) hplaced

/-- An expression without operands takes one level and binds as tightly as can be. -/
theorem fits_leaf (hhere : e.isLegibleHere) (hroom : 0 < room) (hplaced : e.placed = [])
    (hb : e.binding = 8) (hfull : l? ≠ some (.ident "if") → e.Full) : Fits l? room 7 e :=
  .of_placed hhere hroom (by decide) (by omega) hfull (by simp [hplaced])

/-- A number, which may be negative. -/
theorem fits_long (n : Long) (hroom : 0 < room) : Fits l? room 7 (.lit (.long n)) := by
  have hfull : Full (.lit (.long n)) := by
    refine .inr ?_
    rw [lexemes, literalLexemes]
    split <;> simp
  refine ⟨.of_placed rfl (by simp [placed]), hfull.stands 7, fun _ => hfull, hroom, fun _ hneg => ?_⟩
  have hb : binding (.lit (.long n)) = 8 := by
    have hn : ¬ n.toInt < 0 := of_decide_eq_false hneg
    simp [binding, hn]
  rw [need_of_le (by omega)]
  exact hroom

/-- Parentheses are no part of an expression: what stands in them may have to get others when it is
printed. -/
theorem FitsFull.parens (h : FitsFull room e) : Fits l? (room + 1) 7 e := by
  refine ⟨h.legible, h.full.stands 7, fun _ => h.full, Nat.succ_pos room, fun hc _ => ?_⟩
  have := h.nesting hc
  have hraised : need e 7 ≤ need e 0 + 2 := by
    unfold need raised
    split <;> split <;> omega
  omega

end fits

section readers

variable {l? : Option Lexeme} {room : Nat}

/-! ### Chains

A chain is read from left to right and grows with each link, so that the bound on its links is at
once one on the depth of its left operands. -/

/-- A link of a chain fits if its operands do; the right one was read at the next level. -/
theorem fits_join {least : Nat} {l : Lexeme} {join : Expr → Expr → Expr} (hj : Joins least l join)
    {r? : Option Lexeme} {left right : Expr} (hleft : Fits l? room least left)
    (hright : Fits r? room (least + 1) right) : Fits l? room least (join left right) := by
  have hleast : 0 < least ∧ least + 1 ≤ 6 := by
    rcases hj.level with rfl | rfl | rfl | rfl <;> decide
  refine hleft.of_left (hj.lexemes left right) hleast.1 (hj.legible _ _) hleast.1
    (Nat.le_of_eq (hj.binding _ _).symm) ?_
  rw [hj.placed]
  exact List.forall_mem_cons.mpr ⟨hleft.inside (by omega) 0,
    List.forall_mem_singleton.mpr (hright.inside hleast.2 0)⟩

/-- A chain fits, link by link from the left. -/
theorem ensures_chain {least : Nat} {operand : Parser Expr}
    (hoperand : Ensures operand fun e => ∃ r?, Fits r? room (least + 1) e) {links : Nat} :
    ∀ {left : Expr}, Fits l? room least left →
      Ensures (chain (operatorAt least) operand links left) (Fits l? room least) := by
  induction links with
  | zero =>
      intro left hleft
      unfold chain
      refine ensures_peek.bind fun found _ => ?_
      split
      · exact .pure hleft
      · exact ensures_advance.seq fun _ => .fail
  | succ links ih =>
      intro left hleft
      unfold chain
      refine ensures_peek.bind fun found _ => ?_
      split
      · exact .pure hleft
      · rename_i join hjoin
        obtain ⟨l, hj⟩ := joins_of_operatorAt hjoin
        apply ensures_advance.seq
        intro _
        apply hoperand.bind
        rintro right ⟨r?, hright⟩
        exact ih (fits_join hj hleft hright)

/-- The reader of a level makes what fits there. -/
def Sound (room least : Nat) : Prop :=
  ∀ l?, EnsuresAt l? (reader room least) (Fits l? room least)

/-- What is made of tokens fits whatever they begin with. -/
theorem Sound.ensures {least : Nat} (h : Sound room least) :
    Ensures (reader room least) fun e => ∃ r?, Fits r? room least e :=
  ensures_of_at fun l? => (h l?).mono fun _ he => ⟨l?, he⟩

/-- So a level of chains is sound if the next one is. -/
theorem Sound.chained {least : Nat} (h : Sound room (least + 1)) (hl : isChainLevel least) :
    Sound room least := by
  have hpos : 0 < least := by rcases hl with rfl | rfl | rfl | rfl <;> decide
  intro l?
  rw [reader_chain hl]
  exact (h l?).bind fun first hfirst => ensures_chain h.ensures (hfirst.of_succ hpos)

/-! ### Relations -/

/-- Whatever a pattern is, it has no places. -/
theorem ensures_pattern : Ensures pattern fun _ => True := by
  unfold pattern
  refine ensures_peek.bind fun found _ => ?_
  split
  · split
    · exact .fail
    · exact ensures_advance.seq fun _ => .pure trivial
  · exact ensures_unexpected

/-- The operators of relations bind alike, and ask sums of both operands. -/
theorem placed_relation {op : BinaryOp} {found : Option Lexeme} (h : relationOp? found = some op)
    (a b : Expr) : (Expr.binary op a b).placed = [⟨4, 0, a⟩, ⟨4, 0, b⟩] ∧
      (Expr.binary op a b).binding = 3 ∧ op.isMethod = false ∧ operandBinding op = (4, 4) := by
  unfold relationOp? at h
  split at h <;> cases h <;> exact ⟨rfl, rfl, rfl, rfl⟩

/-- A relation fits if its operands do, whichever word or symbol stands between them. -/
theorem ensures_relationRest (hsum : Sound room 4) {left : Expr} (hleft : Fits l? room 4 left) :
    Ensures (relationRest (sums room) left) (Fits l? room 3) := by
  have hfirst (e : Expr) : FitsIn room e ⟨4, 0, left⟩ := hleft.inside (by decide) 0
  -- a relation with one operand
  have alone (e : Expr) {ls : List Lexeme} (hhere : e.isLegibleHere) (hb : e.binding = 3)
      (hp : e.placed = [⟨4, 0, left⟩])
      (hls : e.lexemes = wrapped left.binding 4 left.lexemes ++ ls) : Fits l? room 3 e := by
    refine hleft.of_left hls (by decide) hhere (by decide) (Nat.le_of_eq hb.symm) ?_
    rw [hp]
    exact List.forall_mem_singleton.mpr (hfirst e)
  unfold relationRest
  refine ensures_peek.bind fun next _ => ?_
  split
  · rename_i op hop
    apply ensures_advance.seq
    intro _
    apply hsum.ensures.bind
    rintro right ⟨r?, hright⟩
    obtain ⟨hp, hb, hmethod, hoperand⟩ := placed_relation hop left right
    have hls := lexemes_operator hmethod left right
    rw [hoperand] at hls
    refine .pure (hleft.of_left hls (by decide) rfl (by decide) (Nat.le_of_eq hb.symm) ?_)
    rw [hp]
    exact List.forall_mem_cons.mpr
      ⟨hfirst _, List.forall_mem_singleton.mpr (hright.inside (by decide) 0)⟩
  split
  · exact ensures_advance.seq fun _ => ensures_name.seq fun attr =>
      .pure (alone _ rfl rfl rfl (by rw [lexemes]))
  split
  · exact ensures_advance.seq fun _ => ensures_pattern.seq fun globs =>
      .pure (alone _ rfl rfl rfl (by rw [lexemes]))
  split
  · apply ensures_advance.seq
    intro _
    apply ensures_typeName.bind
    intro type htype
    apply ensures_eat.seq
    intro eaten
    split
    · apply hsum.ensures.bind
      rintro group ⟨r?, hgroup⟩
      refine .pure (hleft.of_left (by rw [lexemes, List.append_assoc]) (by decide) htype
        (by decide) (Nat.le_refl 3) ?_)
      exact List.forall_mem_cons.mpr
        ⟨hfirst _, List.forall_mem_singleton.mpr (hgroup.inside (by decide) 0)⟩
    · exact .pure (alone _ htype rfl rfl (by rw [lexemes]))
  · exact .pure (hleft.of_succ (by decide))

/-- So relations are sound if sums are. -/
theorem Sound.relation (h : Sound room 4) : Sound room 3 :=
  fun l? => (h l?).bind fun _ hleft => ensures_relationRest h hleft

/-- From prefixed expressions to disjunctions. -/
theorem Sound.disjunction (h : Sound room 6) : Sound room 1 := by
  have hproducts : Sound room 5 := h.chained (.inr (.inr (.inr rfl)))
  have hsums : Sound room 4 := hproducts.chained (.inr (.inr (.inl rfl)))
  have hconjunctions : Sound room 2 := hsums.relation.chained (.inr (.inl rfl))
  exact hconjunctions.chained (.inl rfl)

/-! ### Members

Accesses to members are read as a chain is, but there is no operand on the right: what is in the
brackets of a call are full expressions. -/

section members

variable {argument : Parser Expr}

/-- A call fits if its receiver and its arguments do: a method is known by name and takes one
argument or none. -/
theorem ensures_call {receiver : Expr} (hreceiver : Fits l? (room + 1) 7 receiver) {method : String}
    {args : List Expr} (hargs : ∀ e ∈ args, FitsFull room e) :
    Ensures (call receiver method args) (Fits l? (room + 1) 7) := by
  unfold call
  split
  · split
    · refine .pure (hreceiver.of_left (by rw [lexemes]) (by decide) rfl (by decide)
        (Nat.le_refl 7) (List.forall_mem_singleton.mpr (hreceiver.receiver ?_)))
      simp [isCompactHere]
    · exact .fail
  · split
    · exact .fail
    · rename_i op hop
      have hmethod : op.isMethod := (Option.filter_eq_some_iff.mp hop).2
      split
      · rename_i arg
        have hb : binding (.binary op receiver arg) = 7 := by
          cases op <;> first | rfl | cases hmethod
        refine .pure (hreceiver.of_left (by rw [lexemes, if_pos hmethod, List.append_assoc])
          (by decide) rfl (by decide) (Nat.le_of_eq hb.symm) ?_)
        rw [placed, if_pos hmethod]
        refine List.forall_mem_cons.mpr ⟨hreceiver.receiver ?_, List.forall_mem_singleton.mpr
          ((hargs arg List.mem_cons_self).inside 1)⟩
        simp [isCompactHere, hmethod]
      · exact .fail

/-- An access fits if its receiver does. -/
theorem fits_getAttr {left : Expr} (hleft : Fits l? room 7 left) (attr : String) :
    Fits l? room 7 (.getAttr left attr) := by
  refine hleft.of_left (by rw [lexemes]) (by decide) rfl (by decide) (Nat.le_refl 7)
    (List.forall_mem_singleton.mpr (hleft.receiver ?_))
  simp [isCompactHere]

/-- Members fit, one by one. -/
theorem ensures_members (hargument : Ensures argument (FitsFull room)) {links : Nat} :
    ∀ {left : Expr}, Fits l? (room + 1) 7 left →
      Ensures (members argument links left) (Fits l? (room + 1) 7) := by
  -- By the number of accesses that may still follow; without one left, the reader complains.
  induction links with
  | zero =>
      intro left hleft
      unfold members
      refine ensures_peek.bind fun next _ => ?_
      split
      · exact .fail
      · exact .pure hleft
  | succ links ih =>
      intro left hleft
      unfold members
      refine ensures_peek.bind fun next _ => ?_
      split
      · apply ensures_advance.seq
        intro _
        apply ensures_ident.bind
        intro attr _
        apply ensures_eat.seq
        intro opened
        split
        · apply (ensures_listUntil hargument).bind
          intro args hargs
          apply (ensures_call hleft hargs).bind
          intro called hcalled
          exact ih hcalled
        · exact ih (fits_getAttr hleft attr)
      split
      · refine ensures_peekSecond.bind fun second _ => ?_
        split
        · exact ensures_advance.seq fun _ => ensures_string.seq fun attr =>
            ensures_expect.seq fun _ => ih (fits_getAttr hleft attr)
        · exact .pure hleft
      · exact .pure hleft

end members

/-! ### What stands alone

Whatever can stand alone binds as tightly as can be, and what is in brackets inside of it is a full
expression with one level of nesting less. -/

/-- What holds of each value that is read holds of the fields of a record, and no key comes twice,
nor one already read. -/
theorem ensures_fields {value : Parser Expr} {P : Expr → Prop} (hvalue : Ensures value P)
    {count : Nat} : ∀ {seen : List String}, Ensures (fields value count seen) fun fs =>
      (Ascending.keys fs).Nodup ∧ (∀ f ∈ fs, f.1 ∉ seen) ∧ ∀ f ∈ fs, P f.2 := by
  induction count with
  | zero => exact ensures_unexpected
  | succ count ih =>
      intro seen
      unfold fields
      refine ensures_name.seq fun key => ?_
      split
      · exact .fail
      rename_i hseen
      have hkey : key ∉ seen := by simpa using hseen
      apply ensures_expect.seq
      intro _
      apply hvalue.bind
      intro e he
      apply ensures_eat.seq
      intro closed
      split
      · exact .pure ⟨List.pairwise_singleton _ key, List.forall_mem_singleton.mpr hkey,
          List.forall_mem_singleton.mpr he⟩
      · apply ensures_expect.seq
        intro _
        apply ih.bind
        rintro rest ⟨hnodup, hfresh, hvalid⟩
        -- The keys behind this one were read while it counted as seen.
        have hnew : key ∉ Ascending.keys rest := by
          intro hmem
          obtain ⟨f, hf, rfl⟩ := List.mem_map.mp hmem
          exact hfresh f hf List.mem_cons_self
        refine .pure ⟨List.nodup_cons.mpr ⟨hnew, hnodup⟩, List.forall_mem_cons.mpr ⟨hkey, ?_⟩,
          List.forall_mem_cons.mpr ⟨he, hvalid⟩⟩
        intro f hf hmem
        exact hfresh f hf (List.mem_cons_of_mem key hmem)

/-- A number that is too large is refused, and any other one fits. -/
theorem ensures_longLiteral {text : String} {l : Option Long} :
    Ensures (longLiteral text l) (Fits l? (room + 1) 7) := by
  unfold longLiteral
  split
  · exact ensures_advance.seq fun _ => .pure (fits_long _ (Nat.succ_pos room))
  · exact .fail

/-- The literal of an entity begins with the word that was found to be no truth value. -/
theorem fits_entity {u : Uid} {word : String} (hu : u.isValid)
    (hfirst : (Name.segments u.type).head? = some word) (htrue : word ≠ "true")
    (hfalse : word ≠ "false") :
    Fits (some (.ident word)) (room + 1) 7 (.lit (.entity u)) := by
  obtain ⟨s, ss, hs, hl⟩ := Name.lexemes_eq_cons u.type
  obtain rfl : s = word := by simpa [hs] using hfirst
  refine fits_leaf ?_ (Nat.succ_pos room) rfl rfl fun hif => .inr ?_
  · simp [isLegibleHere, hu, hs, htrue, hfalse]
  · simpa [lexemes, literalLexemes, Uid.lexemes, hl] using hif

/-- What a word names fits; a path that it begins may be an entity, whose type may begin with
`if`. -/
theorem ensuresAt_named {word : String} :
    EnsuresAt (some (.ident word)) (named word) (Fits (some (.ident word)) (room + 1) 7) := by
  have hroom := Nat.succ_pos room
  unfold named
  split
  · exact (ensures_advance.seq fun _ =>
      .pure (fits_leaf rfl hroom rfl rfl fun _ => .inr (by decide))).at _
  split
  · exact (ensures_advance.seq fun _ =>
      .pure (fits_leaf rfl hroom rfl rfl fun _ => .inr (by decide))).at _
  rename_i htrue hfalse
  refine ensuresAt_peekSecond fun second => ?_
  split
  · refine ensuresAt_path.bind fun found hfound => ?_
    obtain ⟨hvalid, first, hhead, hfirst⟩ := hfound
    cases hhead
    split
    · exact .pure (fits_entity hvalid hfirst htrue hfalse)
    · exact .fail
  · split
    · rename_i v hv
      refine (ensures_advance.seq fun _ =>
        .pure (fits_leaf rfl hroom rfl rfl fun _ => .inr ?_)).at _
      cases v <;> decide
    · split
      · exact Ensures.fail.at _
      · exact Ensures.fail.at _

/-- One of the two slots. -/
theorem ensures_slotName : Ensures slotName (Fits l? (room + 1) 7) := by
  unfold slotName
  refine ensures_ident.bind fun name _ => ?_
  split
  · refine .pure (fits_leaf rfl (Nat.succ_pos room) rfl rfl fun _ => .inr ?_)
    simp [lexemes, Slot.lexemes]
  · exact .fail

/-- **What stands alone** fits: literals, names, sets, records and what stands in parentheses. -/
theorem ensuresAt_primary (hexpr : Ensures (expr room) (FitsFull room)) :
    EnsuresAt l? (primary (expr room)) (Fits l? (room + 1) 7) := by
  have hroom := Nat.succ_pos room
  unfold primary
  refine ensuresAt_peek fun _ => ?_
  -- The cases are the tokens that a primary expression may begin with.
  split
  · exact ensures_longLiteral.at _
  · refine (ensures_string.seq fun s =>
      .pure (fits_leaf rfl hroom rfl rfl fun _ => .inr ?_)).at _
    simp [lexemes, literalLexemes, quoted]
  · exact ensuresAt_named
  · exact (ensures_advance.seq fun _ => ensures_slotName).at _
  · exact (ensures_advance.seq fun _ => hexpr.bind fun e he => ensures_expect.seq fun _ =>
      .pure he.parens).at _
  · refine (ensures_advance.seq fun _ => (ensures_listUntil hexpr).bind fun items hitems =>
      .pure (.of_placed rfl hroom (by decide) (Nat.le_succ 7) (fun _ => .inr ?_) ?_)).at _
    · rw [lexemes]
      simp
    · exact List.forall_mem_map.mpr fun e he => (hitems e he).inside 1
  · refine (ensures_advance.seq fun _ => ensures_eat.seq fun closed => ?_).at _
    split
    · exact .pure (fits_leaf rfl hroom rfl rfl fun _ => .inr (by simp [lexemes]))
    · apply ensures_remaining.seq
      intro count
      apply (ensures_fields hexpr).bind
      rintro fs ⟨hnodup, -, hfits⟩
      refine .pure (.of_placed (decide_eq_true hnodup) hroom (by decide) (Nat.le_succ 7)
        (fun _ => .inr ?_) ?_)
      · rw [lexemes]
        simp
      · exact List.forall_mem_map.mpr fun f hf => (hfits f hf).inside 1
  · exact ensures_unexpected.at _

/-! ### Prefixes and conditions -/

/-- A minus sign in front of an expression that is no number for its source. -/
theorem fits_neg {r? : Option Lexeme} {arg : Expr} (h : Fits r? room 6 arg) :
    Fits l? (room + 1) 6 (.unary .neg arg) := by
  refine .of_placed rfl (Nat.succ_pos room) (by decide) (Nat.le_refl 6) (fun _ => .inr ?_) ?_
  · rw [lexemes]
    simp
  refine List.forall_mem_singleton.mpr ?_
  by_cases hdigit : arg.startsWithDigit
  · refine ⟨h.legible, (full_of_startsWithDigit arg hdigit).stands _, fun hhere _ => ?_⟩
    simp [isCompactHere, hdigit] at hhere
  · rw [if_neg hdigit]
    exact h.inside (by decide) 1

/-- Prefixes fit. Each takes a level of nesting, and a minus in front of digits makes a literal. -/
theorem ensuresAt_unary (hexpr : Ensures (expr room) (FitsFull room)) (hunary : Sound room 6) :
    EnsuresAt l? (unary (room + 1)) (Fits l? (room + 1) 6) := by
  have loosen {e : Expr} (he : Fits l? (room + 1) 7 e) : Fits l? (room + 1) 6 e :=
    he.of_succ (by decide)
  unfold unary
  refine ensuresAt_peek fun _ => ?_
  split
  · refine (ensures_advance.seq fun _ => hunary.ensures.bind fun arg harg => .pure ?_).at _
    obtain ⟨r?, harg⟩ := harg
    refine .of_placed rfl (Nat.succ_pos room) (by decide) (Nat.le_refl 6) (fun _ => .inr ?_)
      (List.forall_mem_singleton.mpr (harg.inside (by decide) 1))
    rw [lexemes]
    simp
  · refine ensuresAt_peekSecond fun second => ?_
    split
    · exact (ensures_advance.seq fun _ => ensures_longLiteral.bind fun base hbase =>
        (ensures_members hexpr hbase).mono fun _ => loosen).at _
    · refine (ensures_advance.seq fun _ => hunary.ensures.bind fun arg harg => .pure ?_).at _
      obtain ⟨r?, harg⟩ := harg
      exact fits_neg harg
  · exact (ensuresAt_primary hexpr).bind fun base hbase =>
      (ensures_members hexpr hbase).mono fun _ => loosen

/-- A condition fits among full expressions if its operands do. -/
theorem fits_ite {c a b : Expr} (hc : FitsFull room c) (ha : FitsFull room a)
    (hb : FitsFull room b) : FitsFull (room + 1) (.ite c a b) := by
  have hplaced : ∀ p ∈ (Expr.ite c a b).placed, FitsIn room (.ite c a b) p :=
    List.forall_mem_cons.mpr ⟨hc.inside 0, List.forall_mem_cons.mpr
      ⟨ha.inside 0, List.forall_mem_singleton.mpr (hb.inside 0)⟩⟩
  refine ⟨legible_of_placed rfl hplaced, .inl rfl, fun hcompact => ?_⟩
  have hroom : 0 < room := by
    have := hc.nesting (hcompact.operand (by simp [operands]))
    omega
  rw [need_of_le (Nat.zero_le _)]
  exact Nat.succ_lt_succ (nesting_lt_of_placed hroom hplaced hcompact)

/-- A full expression is a condition or a disjunction. -/
theorem ensures_expr (hexpr : Ensures (expr room) (FitsFull room)) (hunary : Sound room 6) :
    Ensures (expr (room + 1)) (FitsFull (room + 1)) := by
  refine ensures_of_at fun l? => ?_
  unfold expr
  refine ensuresAt_eat (fun _ => ?_) fun hif => ?_
  · apply hexpr.bind
    intro cond hcond
    apply ensures_expect.seq
    intro _
    apply hexpr.bind
    intro yes hyes
    apply ensures_expect.seq
    intro _
    apply hexpr.bind
    intro no hno
    exact .pure (fits_ite hcond hyes hno)
  · refine (hunary.disjunction l?).mono fun e he =>
      ⟨he.legible, he.full hif, fun hc => Nat.lt_succ_of_le ?_⟩
    exact Nat.le_trans (need_mono (Nat.zero_le 1)) (he.need_le (by decide) hc)

end readers

/-! ### Expressions -/

/-- Full and prefixed expressions fit, by induction on the levels that are left. -/
theorem ensures_levels (room : Nat) : Ensures (expr room) (FitsFull room) ∧ Sound room 6 := by
  induction room with
  | zero => exact ⟨.fail, fun l? => Ensures.fail.at l?⟩
  | succ room ih =>
      obtain ⟨hexpr, hunary⟩ := ih
      exact ⟨ensures_expr hexpr hunary, fun l? => ensuresAt_unary hexpr hunary⟩

/-- What was read for a condition: its text can be read again, and nests no more deeply than its
source if it is compact. -/
structure Condition (e : Expr) : Prop where
  /-- Its parts can be read in their places. -/
  legible : e.Legible
  /-- It can be read as a full expression. -/
  full : e.Full
  /-- Its tree is not too deep. -/
  depth : e.depth ≤ nestingLimit
  /-- If it is compact, its text does not nest too deeply. -/
  compact : e.Compact → ¬ e.TooDeep

/-- **A condition that was read** can be read again. -/
theorem ensures_bounded : Ensures bounded Condition := by
  unfold bounded
  refine (ensures_levels nestingLimit).1.bind fun e he => ?_
  split
  · exact .fail
  · rename_i hdepth
    refine .pure ⟨he.legible, he.full, by omega, fun hc hdeep => ?_⟩
    have := he.nesting hc
    rw [need_of_le (Nat.zero_le _)] at this
    unfold TooDeep at hdeep
    omega

end AccessPolicy.Grammar
