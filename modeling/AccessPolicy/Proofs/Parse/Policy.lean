import AccessPolicy.Grammar.Policy
import AccessPolicy.Proofs.Parse.Expr
import AccessPolicy.Proofs.Parse.Gives
import AccessPolicy.Proofs.Policy.Set
import AccessPolicy.Proofs.Print.Policy

/-!
# Printed policies read back

* One lemma for each reader of `Grammar.Policy`: annotations (`yields_header`), scopes
  (`yields_entityScope`, `yields_actionScope`) and clauses (`yields_clauses`).
* **A policy reads back** from its tokens at any place (`yields_policy`), with the id that it had.
* **Printing and parsing are inverse** (`PolicySet.parse_print`): in every layout the text of a
  printable set gives the set, unless a condition nests too deeply; with bodies whose depth is at
  most 64 it always does.
-/

namespace AccessPolicy.Grammar

open AccessPolicy.Expr

variable {fails : Prop} {ms : List Lexeme}

/-! ### Annotations -/

/-- One annotation reads back if those after it do. The annotation `id` is the id, any other is put
in its place. -/
theorem yields_annotation {key value : String} {count : Nat} {h g : Header} {ns : List Lexeme}
    (hrest : Yields fails (if key = "id" then header count { h with id := value }
      else if Ascending.hasKey key h.annotations then Parser.fail (.annotatedTwice key)
      else header count { h with annotations := Ascending.put key value h.annotations }) ms g ns) :
    Yields fails (header (count + 1) h) (Policy.annotationLexemes key value ++ ms) g ns := by
  rw [header]
  refine yields_eat.bind (yields_ident.bind (yields_expect.bind ?_))
  exact (yields_quoted value).bind (yields_expect.bind hrest)

/-- Annotations with ascending keys behind others. -/
theorem yields_annotations (id : String) (hms : ms.head? ≠ some (.sym .sign)) :
    (as done : List (String × String)) → (∀ a ∈ as, a.1 ≠ "id") →
    Ascending.Sorted (Ascending.keys (done ++ as)) → ∀ count ≥ as.length,
    Yields fails (header count ⟨id, done⟩)
      (as.flatMap (fun a => Policy.annotationLexemes a.1 a.2) ++ ms) ⟨id, done ++ as⟩ ms
  | [], done, _, _ => by
      intro count _
      rw [List.flatMap_nil, List.nil_append, List.append_nil]
      cases count with
      | zero => exact yields_pure
      | succ count =>
          rw [header]
          exact (yields_eat_of_ne hms).bind yields_pure
  | (key, value) :: as, done, hid, hsorted => by
      intro count hcount
      rw [List.length_cons] at hcount
      obtain ⟨count, rfl⟩ := Nat.exists_eq_add_one_of_ne_zero (n := count) (by omega)
      -- Keys ascend, so that this one is put behind those that are done and is none of them.
      have hlt : ∀ a ∈ done, compare a.1 key = .lt := by
        intro a ha
        refine (List.pairwise_append.mp (List.pairwise_map.mp hsorted)).2.2 a ha _
          List.mem_cons_self
      have hnew : Ascending.hasKey key done = false := by
        rw [Bool.eq_false_iff]
        intro hk
        obtain ⟨v, hv⟩ := Option.isSome_iff_exists.mp hk
        have := hlt _ (Ascending.mem_of_get? hv)
        rw [Std.compare_self] at this
        cases this
      have hrest := yields_annotations id hms as (done ++ [(key, value)])
        (fun a ha => hid a (List.mem_cons_of_mem _ ha)) (by simpa using hsorted) count (by omega)
      rw [List.flatMap_cons, List.append_assoc]
      refine yields_annotation ?_
      rw [if_neg (hid _ List.mem_cons_self), hnew, if_neg Bool.false_ne_true,
        Ascending.put_append_of_lt hlt]
      simpa using hrest

/-- The annotations of a policy, with the one for its id where its place does not give it. -/
theorem yields_header {p : Policy} (h : p.Shaped) (hms : ms.head? ≠ some (.sym .sign))
    (place count : Nat) (hcount : p.annotations.length + 1 ≤ count) :
    Yields fails (header count ⟨Policy.defaultId place, []⟩) (p.headerLexemes place ++ ms)
      ⟨p.id, p.annotations⟩ ms := by
  have hkeys : ∀ a ∈ p.annotations, a.1 ≠ "id" := fun a ha => (h.keys a ha).2
  obtain ⟨count, rfl⟩ := Nat.exists_eq_add_one_of_ne_zero (n := count) (by omega)
  unfold Policy.headerLexemes
  split
  · rename_i hid
    rw [← hid]
    exact yields_annotations _ hms p.annotations [] hkeys h.sorted (count + 1) (by omega)
  · rw [List.append_assoc]
    refine yields_annotation ?_
    rw [if_pos rfl]
    exact yields_annotations _ hms p.annotations [] hkeys h.sorted count (by omega)

/-! ### Scopes -/

/-- An effect reads back from its word. -/
theorem yields_effect (e : Effect) : Yields fails effect (.ident e.name :: ms) e ms := by
  have he : Effect.ofName? e.name = some e := by cases e <;> decide
  unfold effect
  refine yields_peek.bind ?_
  simp only [List.head?_cons, he]
  exact yields_advance.bind yields_pure

/-- A reference that fits the slot of its place reads back. -/
theorem yields_reference {slot : Slot} {r : Reference} (h : r.fits slot) :
    Yields fails (reference slot) (r.lexemes ++ ms) r ms := by
  unfold reference
  cases r with
  | uid u =>
      obtain ⟨x, ls, hl⟩ := u.lexemes_eq_cons
      have hhead : (u.lexemes ++ ms).head? ≠ some (.sym .question) := by simp [hl]
      exact (yields_eat_of_ne hhead).bind ((yields_uid u).bind yields_pure)
  | slot s =>
      have hs : s = slot := by simpa [Reference.fits] using h
      subst hs
      have hname : "?" ++ s.word = s.name := by cases s <;> decide
      refine yields_eat.bind (yields_ident.bind ?_)
      simp only [hname, if_pos]
      exact yields_pure

/-- A token that ends a scope. -/
def endsScope : Option Lexeme → Bool
  | some (.sym .comma) | some (.sym .closeParen) => true
  | _ => false

/-- A token that ends a scope is no other one. -/
theorem ne_of_endsScope {l? : Option Lexeme} {l : Lexeme} (h : endsScope l?)
    (hl : endsScope (some l) = false) : l? ≠ some l := by
  rintro rfl
  rw [hl] at h
  cases h

/-- The scope of a principal or a resource reads back where a comma or a bracket follows. -/
theorem yields_entityScope (var : Var) {slot : Slot} {s : Scope} (h : s.fitsEntity slot)
    (hms : endsScope ms.head?) :
    Yields fails (entityScope var slot) (s.lexemes var.name ++ ms) s ms := by
  have hpath : ms.head? ≠ some (.sym .pathSep) := ne_of_endsScope hms rfl
  have hin : ms.head? ≠ some (.ident "in") := ne_of_endsScope hms rfl
  unfold entityScope
  cases s with
  | any =>
      refine yields_expect.bind ((yields_eat_of_ne (ne_of_endsScope hms rfl)).bind ?_)
      refine (yields_eat_of_ne hin).bind ?_
      exact (yields_eat_of_ne (ne_of_endsScope hms rfl)).bind yields_pure
  | eq r => exact yields_expect.bind (yields_eat.bind ((yields_reference h).bind yields_pure))
  | mem r =>
      refine yields_expect.bind ((yields_eat_of_ne (by simp)).bind (yields_eat.bind ?_))
      exact (yields_reference h).bind yields_pure
  | memAny us => cases h
  | is type =>
      refine yields_expect.bind ((yields_eat_of_ne (by simp)).bind ?_)
      refine (yields_eat_of_ne (by simp)).bind (yields_eat.bind ?_)
      exact (yields_typeName hpath).bind ((yields_eat_of_ne hin).bind yields_pure)
  | isMem type r =>
      simp only [Scope.fitsEntity, Bool.and_eq_true] at h
      rw [Scope.lexemes, List.append_assoc]
      refine yields_expect.bind ((yields_eat_of_ne (by simp)).bind ?_)
      refine (yields_eat_of_ne (by simp)).bind (yields_eat.bind ?_)
      refine (yields_typeName (by simp)).bind (yields_eat.bind ?_)
      exact (yields_reference h.2).bind yields_pure

/-- The scope of an action reads back where a comma or a bracket follows. -/
theorem yields_actionScope {s : Scope} (h : s.fitsAction) (hms : endsScope ms.head?) :
    Yields fails actionScope (s.lexemes "action" ++ ms) s ms := by
  unfold actionScope
  cases s with
  | any =>
      refine yields_expect.bind ((yields_eat_of_ne (ne_of_endsScope hms rfl)).bind ?_)
      refine (yields_eat_of_ne (ne_of_endsScope hms rfl)).bind (yields_peek.bind ?_)
      rw [if_neg (ne_of_endsScope hms rfl)]
      exact yields_pure
  | eq r =>
      cases r with
      | slot s => cases h
      | uid u => exact yields_expect.bind (yields_eat.bind ((yields_uid u).bind yields_pure))
  | mem r =>
      cases r with
      | slot s => cases h
      | uid u =>
          obtain ⟨x, ls, hl⟩ := u.lexemes_eq_cons
          have hhead : (u.lexemes ++ ms).head? ≠ some (.sym .openBracket) := by simp [hl]
          refine yields_expect.bind ((yields_eat_of_ne (by simp)).bind (yields_eat.bind ?_))
          exact (yields_eat_of_ne hhead).bind ((yields_uid u).bind yields_pure)
  -- Only behind the bracket does the reader know a list of groups from a single one.
  | memAny us =>
      have items : List.Forall₂ (ItemYields fails .closeBracket Parser.uid) us
          (us.map Uid.lexemes) := by
        refine List.forall₂_map_right_iff.mpr (List.forall₂_same.mpr fun u _ => ⟨?_, ?_⟩)
        · obtain ⟨x, ls, hl⟩ := u.lexemes_eq_cons
          exact ⟨_, ls, hl, nofun⟩
        · exact fun ms _ => yields_uid u
      have hls : (Scope.memAny us).lexemes "action" ++ ms = .ident "action" :: .ident "in" ::
          .sym .openBracket ::
            (separated (.sym .comma) (us.map Uid.lexemes) ++ .sym .closeBracket :: ms) := by
        simp [Scope.lexemes]
      rw [hls]
      refine yields_expect.bind ((yields_eat_of_ne (by simp)).bind (yields_eat.bind ?_))
      exact yields_eat.bind ((yields_listUntil (by decide) items).bind yields_pure)
  | is type => cases h
  | isMem type r => cases h

/-! ### Clauses and policies

The reader counts tokens to know that it ends. Each clause has a token, so that the count is enough
for all of them. -/

/-- The kind of a clause reads back from its word. -/
theorem yields_clauseKind (k : ClauseKind) :
    Yields fails clauseKind? (.ident k.name :: ms) (some k) ms := by
  unfold clauseKind?
  cases k with
  | whenTrue => exact yields_eat.bind yields_pure
  | unlessTrue =>
      refine (yields_eat_of_ne ?_).bind (yields_eat.bind yields_pure)
      simp [ClauseKind.name]

/-- Clauses read back up to the semicolon, each unless its body nests too deeply for a failing
reader. -/
theorem yields_clauses : (cs : List Clause) →
    (∀ c ∈ cs, (c.body.Legible ∧ c.body.Full) ∧ (c.body.TooDeep → fails)) → ∀ count ≥ cs.length,
    Yields fails (clauses count) (cs.flatMap Clause.lexemes ++ .sym .semicolon :: ms) cs
      (.sym .semicolon :: ms)
  | [], _ => by
      intro count _
      cases count with
      | zero => exact yields_pure
      | succ count =>
          have none : Yields fails clauseKind? (.sym .semicolon :: ms) none
              (.sym .semicolon :: ms) := by
            unfold clauseKind?
            exact (yields_eat_of_ne (by simp)).bind ((yields_eat_of_ne (by simp)).bind yields_pure)
          rw [clauses]
          exact none.bind yields_pure
  | c :: cs, h => by
      intro count hcount
      rw [List.length_cons] at hcount
      obtain ⟨count, rfl⟩ := Nat.exists_eq_add_one_of_ne_zero (n := count) (by omega)
      obtain ⟨⟨hbody, hfull⟩, hdeep⟩ := h c List.mem_cons_self
      have hrest := yields_clauses cs (fun d hd => h d (List.mem_cons_of_mem c hd)) count
        (by omega)
      have hls : (c :: cs).flatMap Clause.lexemes ++ .sym .semicolon :: ms =
          .ident c.kind.name :: .sym .openBrace :: (c.body.lexemes ++ .sym .closeBrace ::
            (cs.flatMap Clause.lexemes ++ .sym .semicolon :: ms)) := by
        simp [Clause.lexemes]
      rw [hls, clauses]
      refine (yields_clauseKind c.kind).bind (yields_expect.bind ?_)
      refine (yields_bounded hbody hfull hdeep rfl).bind (yields_expect.bind ?_)
      exact hrest.bind yields_pure

/-- There are at least as many tokens as there are things with a token. -/
theorem length_flatMap_le {α : Type} {f : α → List Lexeme} {xs : List α}
    (hf : ∀ x ∈ xs, f x ≠ []) : xs.length ≤ (xs.flatMap f).length := by
  induction xs with
  | nil => exact Nat.zero_le _
  | cons x xs ih =>
      obtain ⟨hx, hxs⟩ := List.forall_mem_cons.mp hf
      have := List.length_pos_iff.mpr hx
      have := ih hxs
      rw [List.flatMap_cons, List.length_append, List.length_cons]
      omega

/-- **A policy reads back** from its tokens at any place. -/
theorem yields_policy {p : Policy} (h : p.Legible)
    (hdeep : ∀ c ∈ p.conditions, c.body.TooDeep → fails) (place : Nat) :
    Yields fails (policy (Policy.defaultId place)) (p.lexemes place ++ ms) p ms := by
  have hlen : p.annotations.length ≤
      (p.annotations.flatMap fun a => Policy.annotationLexemes a.1 a.2).length :=
    length_flatMap_le fun a _ => List.cons_ne_nil _ _
  have hclauses : p.conditions.length ≤ (p.conditions.flatMap Clause.lexemes).length :=
    length_flatMap_le fun c _ => List.cons_ne_nil _ _
  have hls : p.lexemes place ++ ms = p.headerLexemes place ++ (.ident p.effect.name ::
      .sym .openParen :: (p.principal.lexemes "principal" ++ .sym .comma ::
        (p.action.lexemes "action" ++ .sym .comma :: (p.resource.lexemes "resource" ++
          .sym .closeParen :: (p.conditions.flatMap Clause.lexemes ++ .sym .semicolon :: ms))))) := by
    simp [Policy.lexemes]
  rw [hls]
  unfold policy
  refine yields_remaining.bind ((yields_header h.toShaped (by simp) place _ ?_).bind ?_)
  · simp only [Policy.headerLexemes, List.length_append, List.length_cons]
    omega
  refine (yields_effect p.effect).bind (yields_expect.bind ?_)
  refine (yields_entityScope .principal h.principal rfl).bind (yields_expect.bind ?_)
  refine (yields_actionScope h.action rfl).bind (yields_expect.bind ?_)
  refine (yields_entityScope .resource h.resource rfl).bind (yields_expect.bind ?_)
  refine yields_remaining.bind ((yields_clauses p.conditions
    (fun c hc => ⟨h.conditions c hc, hdeep c hc⟩) _ ?_).bind ?_)
  · rw [List.length_append]
    omega
  exact yields_expect.bind yields_pure

/-! ### Sets -/

/-- The policies of a text are added in the order of their tokens. -/
theorem yields_policies {t : PolicySet} : (ps : List Policy) →
    (∀ p ∈ ps, p.Legible ∧ ∀ c ∈ p.conditions, c.body.TooDeep → fails) →
    ∀ count ≥ ps.length, ∀ (place : Nat) (s : PolicySet), s.addAll ps = .ok t →
      Yields fails (policies count place s) (PolicySet.lexemesFrom place ps) (.ok t) []
  | [], _ => by
      intro count _ place s hadd
      cases hadd
      cases count with
      | zero => exact yields_pure
      | succ count => exact yields_peek.bind yields_pure
  | p :: ps, h => by
      intro count hcount place s hadd
      rw [List.length_cons] at hcount
      obtain ⟨count, rfl⟩ := Nat.exists_eq_add_one_of_ne_zero (n := count) (by omega)
      obtain ⟨hp, hdeep⟩ := h p List.mem_cons_self
      have hsome : (PolicySet.lexemesFrom place (p :: ps)).head?.isNone = false := by
        simp [PolicySet.lexemesFrom, Policy.lexemes]
      rw [PolicySet.addAll] at hadd
      unfold policies
      refine yields_peek.bind ?_
      rw [if_neg (by simp [hsome])]
      refine (yields_policy hp hdeep place).bind ?_
      -- The reader hands on what adding says, and here all policies can be added.
      cases hs : s.add p with
      | error e =>
          rw [hs] at hadd
          cases hadd
      | ok s' =>
          rw [hs] at hadd
          exact yields_policies ps (fun q hq => h q (List.mem_cons_of_mem p hq)) count (by omega)
            (place + 1) s' hadd

end AccessPolicy.Grammar

namespace AccessPolicy.PolicySet

open Grammar

variable {s : PolicySet}

/-- A printable set is what its policies make of the empty set. -/
theorem Printable.addAll_eq_ok (h : s.Printable) :
    empty.addAll (s.policies ++ s.templates) = .ok s := by
  rw [addAll_append_eq_ok h.ids h.policies h.templates, ← h.links]

/-- A set has at least as many tokens as policies, so counting tokens lets the reader of sets
end. -/
theorem length_lexemesFrom : (ps : List Policy) → (place : Nat) →
    ps.length ≤ (lexemesFrom place ps).length
  | [], _ => Nat.zero_le _
  | p :: ps, place => by
      have := length_lexemesFrom ps (place + 1)
      simp only [lexemesFrom, Policy.lexemes, List.length_append, List.length_cons]
      omega

/-- The text of legible policies gives what they make of the empty set, where no condition is too
deep. -/
theorem parse_print_of (h : ∀ p ∈ s.policies ++ s.templates, p.Legible)
    (hadd : empty.addAll (s.policies ++ s.templates) = .ok s) (options : LayoutOptions)
    (fails : Prop)
    (hdeep : ∀ p ∈ s.policies ++ s.templates, ∀ c ∈ p.conditions, c.body.TooDeep → fails) :
    parse (s.print options) = .ok s ∨ fails ∧ ∃ position,
      parse (s.print options) = .error (.syntaxError Complaint.nesting.message position) := by
  have hpolicies : ∀ count ≥ (s.policies ++ s.templates).length,
      Yields fails (Grammar.policies count 0 .empty) s.lexemes (.ok s) [] := fun count hcount =>
    yields_policies _ (fun p hp => ⟨h p hp, hdeep p hp⟩) count hcount 0 .empty hadd
  have hlength := Nat.le_succ_of_le (length_lexemesFrom (s.policies ++ s.templates) 0)
  exact readText_of_yields (spells_print h options) (yields_remaining.bind (hpolicies _ hlength))

/-- **Printing and parsing are inverse.** In every layout the text of a printable set gives the set,
or its reader complains about nesting; if the bodies of all clauses have a depth of at most 64, it
gives the set. -/
theorem parse_print (h : s.Printable) (options : LayoutOptions) :
    (parse (s.print options) = .ok s ∨ ∃ position,
      parse (s.print options) = .error (.syntaxError Complaint.nesting.message position)) ∧
    ((∀ p ∈ s.policies ++ s.templates, ∀ c ∈ p.conditions, c.body.depth ≤ 64) →
      parse (s.print options) = .ok s) := by
  have legible : ∀ p ∈ s.policies ++ s.templates, p.Legible := fun p hp =>
    (h.printable p hp).legible
  constructor
  · exact (parse_print_of legible h.addAll_eq_ok options True fun _ _ _ _ _ =>
      trivial).imp_right And.right
  · intro hdepth
    refine (parse_print_of legible h.addAll_eq_ok options False fun p hp c hc hdeep =>
      ?_).resolve_right And.left
    exact absurd (hdepth p hp c hc) (Nat.not_le_of_lt hdeep.lt_depth)

/-- A number behind a minus sign keeps its parentheses, and a template behind a static policy takes
its id from its place. -/
theorem parse_print_negatedNumber :
    let five : Expr := .lit (.long ⟨5, by decide, by decide⟩)
    let p : Policy := ⟨"p", .forbid, .any, .any, .is "Photo",
      [⟨.whenTrue, .binary .less (.unary .neg five) five⟩], [("note", "a \"b\"")]⟩
    let t : Policy := ⟨"policy1", .permit, .eq (.slot .principal), .memAny [⟨"Action", "view"⟩],
      .any, [], []⟩
    let s : PolicySet := ⟨[p], [t], []⟩
    s.Printable ∧ parse (s.print ⟨20, 2⟩) = .ok s := by
  intro five p t s
  have hp : p.Printable :=
    ⟨⟨by decide, by decide, by decide, by decide +kernel, List.pairwise_singleton _ _⟩,
      by decide +kernel⟩
  have ht : t.Printable := ⟨⟨by decide, by decide +kernel, by decide, nofun, .nil⟩, nofun⟩
  have hs : s.Printable := by
    refine ⟨rfl, by decide, by decide +kernel, by decide +kernel, ?_⟩
    simpa [s] using ⟨hp, ht⟩
  exact ⟨hs, (parse_print hs ⟨20, 2⟩).2 (by decide +kernel)⟩

end AccessPolicy.PolicySet
